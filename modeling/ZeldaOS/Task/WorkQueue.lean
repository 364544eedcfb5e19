import ZeldaOS.Machine.Runs
import ZeldaOS.Posix
import ZeldaOS.Task.WaitQueue

/-!
# Work queues

The worker of `kernel/work_queue.c` runs with interrupts enabled, and `notify_work_queue` comes from
an interrupt handler between any two of its steps.

* `no_notification_lost`: no timely notification is lost.
-/

namespace ZeldaOS

open Machine

/-! ## The worker -/

/-- Where the worker is: before its entry is on the wait queue, before the first test of `to_terminate`, before
`transit_state`, `yield_cpu` and the second test, in `do_work`, behind the loop, and at the end. -/
inductive WorkerPc where
  | enter | test | transit | yieldCpu | retest | doWork | quit | ended
  deriving DecidableEq, Repr

structure WorkQueue where
  worker : OneTask
  pc : WorkerPc
  toTerminate : Bool
  waits : Bool
  outstanding : ℕ

def registerWorkQueue : WorkQueue := ⟨⟨createdTask false, false⟩, .enter, false, false, 0⟩

def WorkQueue.setTask (w : WorkQueue) (t : Task) : WorkQueue :=
  { w with worker := { w.worker with task := t } }

/-- The next step of `work_queue_top_level_body`, while the worker is `current`. -/
def workerStep (w : WorkQueue) : Except Panic WorkQueue :=
  match w.pc with
  | .enter => .ok { w with waits := true, pc := .test }
  | .test => .ok { w with pc := if w.toTerminate then .quit else .transit }
  | .transit => (transitState w.worker.task .interruptible).map fun t =>
      { w.setTask t with pc := .yieldCpu }
  | .yieldCpu => .ok { w with worker := { w.worker with onCpu := false }, pc := .retest }
  | .retest =>
    if w.toTerminate then .ok { w with pc := .quit }
    else .ok { w with pc := .doWork, outstanding := 0 }
  | .doWork => .ok { w with pc := .test }
  | .quit => do
    let t ← signalTask w.worker.task sigCont
    let t ← signalTask t sigQuit
    .ok { w.setTask t with pc := .ended }
  | .ended => .ok w

/-- `wake_up` on the queue that has the worker's entry or none. -/
def WorkQueue.wakeUp (w : WorkQueue) : Except Panic WorkQueue :=
  (wakeUpQueue (fun _ => w.worker.task) (if w.waits then [0] else [])).map fun task => w.setTask (task 0)

def notifyWorkQueue (w : WorkQueue) : Except Panic (WorkQueue × ℤ) :=
  if w.toTerminate then .ok (w, -errBusy)
  else w.wakeUp.map fun w => (w, 0)

def terminateWorkQueue (w : WorkQueue) : Except Panic (WorkQueue × ℤ) :=
  if w.toTerminate then .ok (w, -errBusy)
  else do
    let (w, r) ← notifyWorkQueue w
    if r = 0 then .ok ({ w with toTerminate := true }, 0) else .error .assertion

/-- The worker makes a step, an interrupt handler notifies or terminates the queue, or the scheduler acts. -/
inductive WorkOp where
  | work | notify | terminate | preempt | dispatch
  deriving DecidableEq, Repr

def WorkQueue.step (w : WorkQueue) : WorkOp → Except Panic WorkQueue
  | .work => if w.worker.onCpu then workerStep w else .ok w
  | .notify => (notifyWorkQueue w).map fun r => { r.1 with outstanding := r.1.outstanding + 1 }
  | .terminate => (terminateWorkQueue w).map fun r => { r.1 with outstanding := r.1.outstanding + 1 }
  | .preempt => (w.worker.step .preempt).map fun t => { w with worker := t }
  | .dispatch => (w.worker.step .dispatch).map fun t => { w with worker := t }

/-- The worker sees the notification: it is between `transit_state` and `do_work`, or will not sleep any more. -/
def WorkOp.Timely (w : WorkQueue) (op : WorkOp) : Prop :=
  op = .notify ∨ op = .terminate → w.pc ∈ [.yieldCpu, .retest, .quit, .ended]

instance WorkOp.decidableTimely (w : WorkQueue) (op : WorkOp) : Decidable (op.Timely w) :=
  inferInstanceAs (Decidable (_ → _))

def WorkerPc.Late (pc : WorkerPc) : Prop := pc ∈ [WorkerPc.yieldCpu, .retest, .quit, .ended]

/-! ## The invariant -/

/-- The worker is busy or has not started; or it will see the notifications; or it sleeps, or is going to, and nothing
is outstanding. -/
inductive Phase (w : WorkQueue) : Prop where
  | busy (pc : w.pc ∈ [.enter, .test, .transit, .doWork]) (state : w.worker.task.state = .running)
      (none : w.outstanding = 0) (going : w.toTerminate = false) (waits : w.pc ≠ .enter → w.waits = true)
  | awake (pc : w.pc.Late) (state : w.worker.task.state = .running) (waits : w.waits = true)
  | asleep (pc : w.pc = .yieldCpu ∨ w.pc = .retest ∧ w.worker.onCpu = false)
      (state : w.worker.task.state = .interruptible) (none : w.outstanding = 0)
      (going : w.toTerminate = false) (waits : w.waits = true)

structure WorkInv (w : WorkQueue) : Prop where
  phase : Phase w
  invalid : ∀ sig, (w.worker.task.sigEntries sig).valid = false

theorem workInv_register : WorkInv registerWorkQueue :=
  ⟨.busy (by decide) rfl rfl rfl fun h => absurd rfl h, fun _ => rfl⟩

variable {w : WorkQueue}

theorem workInv_busy (hinv : ∀ sig, (w.worker.task.sigEntries sig).valid = false)
    (hpc : w.pc ∈ [.enter, .test, .transit, .doWork]) (hst : w.worker.task.state = .running) (hnone : w.outstanding = 0)
    (hgoing : w.toTerminate = false) (hwaits : w.pc ≠ .enter → w.waits = true) :
    ∃ w', workerStep w = .ok w' ∧ WorkInv w' := by
  unfold workerStep
  cases h : w.pc with
  | enter => exact ⟨_, rfl, .busy (by simp) hst hnone hgoing fun _ => rfl, hinv⟩
  | test =>
    have hw := hwaits (by simp [h])
    simp only [hgoing, Bool.false_eq_true, if_false]
    exact ⟨_, rfl, .busy (by simp) hst hnone rfl fun _ => hw, hinv⟩
  | transit =>
    -- the only way to fall asleep, and nothing is outstanding here
    have hw := hwaits (by simp [h])
    refine ⟨{ w.setTask { w.worker.task with state := .interruptible } with pc := .yieldCpu }, ?_,
      .asleep (.inl rfl) rfl hnone hgoing hw, hinv⟩
    simp only [transitState, hst]
    rfl
  | doWork =>
    have hw := hwaits (by simp [h])
    exact ⟨_, rfl, .busy (by simp) hst hnone hgoing fun _ => hw, hinv⟩
  | _ => simp [h] at hpc

theorem workInv_awake (hinv : ∀ sig, (w.worker.task.sigEntries sig).valid = false) (hpc : w.pc.Late)
    (hst : w.worker.task.state = .running) (hwaits : w.waits = true) : ∃ w', workerStep w = .ok w' ∧ WorkInv w' := by
  unfold workerStep
  cases h : w.pc with
  | yieldCpu => exact ⟨_, rfl, .awake (by simp [WorkerPc.Late]) hst hwaits, hinv⟩
  | retest =>
    split_ifs with hterm
    · exact ⟨_, rfl, .awake (by simp [WorkerPc.Late]) hst hwaits, hinv⟩
    · exact ⟨_, rfl, .busy (by simp) hst rfl (by simpa using hterm) fun _ => hwaits, hinv⟩
  | quit =>
    -- no signal is valid for a kernel task
    have hsig (sig : Sig) (h0 : sig ≠ 0) : signalTask w.worker.task sig = .ok w.worker.task := by
      rw [signalTask, if_neg h0, if_pos (hinv sig)]
    refine ⟨{ w with pc := .ended }, ?_, .awake (by simp [WorkerPc.Late]) hst hwaits, hinv⟩
    simp only [hsig sigCont (by decide), hsig sigQuit (by decide), bind, Except.bind]
    rfl
  | ended => exact ⟨w, rfl, .awake hpc hst hwaits, hinv⟩
  | _ => simp [h, WorkerPc.Late] at hpc

theorem workInv_workerStep (h : WorkInv w) (hcpu : w.worker.onCpu = true) :
    ∃ w', workerStep w = .ok w' ∧ WorkInv w' := by
  obtain ⟨hphase, hinv⟩ := h
  cases hphase with
  | busy hpc hst hnone hgoing hwaits => exact workInv_busy hinv hpc hst hnone hgoing hwaits
  | awake hpc hst hwaits => exact workInv_awake hinv hpc hst hwaits
  | asleep hpc hst hnone hgoing hwaits =>
    rcases hpc with hpc | ⟨-, hoff⟩
    · -- the worker gives up the processor asleep
      refine ⟨{ w with worker := { w.worker with onCpu := false }, pc := .retest }, ?_,
        .asleep (.inr ⟨rfl, rfl⟩) hst hnone hgoing hwaits, hinv⟩
      rw [workerStep, hpc]
    · rw [hcpu] at hoff
      cases hoff

theorem WorkQueue.wakeUp_waits (h : w.waits = true) : w.wakeUp = (rawTaskWakeUp w.worker.task).map w.setTask := by
  rw [WorkQueue.wakeUp, if_pos h, wakeUpQueue]
  cases rawTaskWakeUp w.worker.task with
  | error p => rfl
  | ok t => rfl

theorem workInv_wakeUp (h : WorkInv w) (hlate : w.pc.Late) :
    ∃ w', w.wakeUp = .ok w' ∧ w'.pc = w.pc ∧ w'.worker.task.state = .running ∧ w'.waits = true ∧
      ∀ sig, (w'.worker.task.sigEntries sig).valid = false := by
  obtain ⟨hphase, hinv⟩ := h
  cases hphase with
  | busy hpc => cases hw : w.pc <;> simp [hw, WorkerPc.Late] at hpc hlate
  | awake _ hst hwaits =>
    refine ⟨w, ?_, rfl, hst, hwaits, hinv⟩
    rw [w.wakeUp_waits hwaits, rawTaskWakeUp, hst]
    rfl
  | asleep _ hst _ _ hwaits =>
    refine ⟨w.setTask { w.worker.task with state := .running }, ?_, rfl, rfl, hwaits, hinv⟩
    rw [w.wakeUp_waits hwaits]
    simp only [rawTaskWakeUp, transitState, hst]
    rfl

theorem WorkInv.awake_of_terminate (h : WorkInv w) (ht : w.toTerminate = true) :
    w.worker.task.state = .running ∧ w.waits = true := by
  cases h.phase with
  | busy _ _ _ hgoing =>
    rw [ht] at hgoing
    cases hgoing
  | awake _ hst hwaits => exact ⟨hst, hwaits⟩
  | asleep _ _ _ hgoing =>
    rw [ht] at hgoing
    cases hgoing

theorem workInv_step (w : WorkQueue) (op : WorkOp) (h : WorkInv w) (ht : op.Timely w) :
    ∃ w', w.step op = .ok w' ∧ WorkInv w' := by
  cases op with
  | work =>
    rw [WorkQueue.step]
    split_ifs with hcpu
    · exact workInv_workerStep h hcpu
    · exact ⟨w, rfl, h⟩
  | notify =>
    have hlate : w.pc.Late := ht (.inl rfl)
    rw [WorkQueue.step, notifyWorkQueue]
    split_ifs with hterm
    · obtain ⟨hst, hwaits⟩ := h.awake_of_terminate hterm
      exact ⟨_, rfl, .awake hlate hst hwaits, h.invalid⟩
    obtain ⟨w', hw', hpc, hst, hwaits, hinv⟩ := workInv_wakeUp h hlate
    refine ⟨{ w' with outstanding := w'.outstanding + 1 }, by rw [hw']; rfl, ?_, hinv⟩
    exact .awake (hpc ▸ hlate) hst hwaits
  | terminate =>
    have hlate : w.pc.Late := ht (.inr rfl)
    rw [WorkQueue.step, terminateWorkQueue, notifyWorkQueue]
    split_ifs with hterm
    · obtain ⟨hst, hwaits⟩ := h.awake_of_terminate hterm
      exact ⟨_, rfl, .awake hlate hst hwaits, h.invalid⟩
    obtain ⟨w', hw', hpc, hst, hwaits, hinv⟩ := workInv_wakeUp h hlate
    refine ⟨{ w' with toTerminate := true, outstanding := w'.outstanding + 1 }, by rw [hw']; rfl, ?_, hinv⟩
    exact .awake (hpc ▸ hlate) hst hwaits
  | preempt =>
    refine ⟨{ w with worker := { w.worker with onCpu := false } }, rfl, ?_, h.invalid⟩
    cases h.phase with
    | busy hpc hst hnone hgoing hwaits => exact .busy hpc hst hnone hgoing hwaits
    | awake hpc hst hwaits => exact .awake hpc hst hwaits
    | asleep hpc hst hnone hgoing hwaits =>
      exact .asleep (hpc.imp id fun hr => ⟨hr.1, rfl⟩) hst hnone hgoing hwaits
  | dispatch =>
    rw [WorkQueue.step, OneTask.step]
    split_ifs with hrun
    · refine ⟨{ w with worker := { w.worker with onCpu := true } }, rfl, ?_, h.invalid⟩
      cases h.phase with
      | busy hpc hst hnone hgoing hwaits => exact .busy hpc hst hnone hgoing hwaits
      | awake hpc hst hwaits => exact .awake hpc hst hwaits
      | asleep _ hst =>
        rw [hrun] at hst
        cases hst
    · exact ⟨w, rfl, h⟩

/-- **In every run whose notifications are timely, none is outstanding while the worker sleeps, and nothing panics.** -/
theorem no_notification_lost (ops : List WorkOp)
    (h : Along WorkQueue.step (fun w op => op.Timely w) registerWorkQueue ops) :
    ∃ w, runSteps WorkQueue.step registerWorkQueue ops = .ok w ∧
      (w.worker.task.state = .interruptible → w.outstanding = 0) := by
  obtain ⟨w, hrun, hw⟩ := inv_run_total workInv_step workInv_register h
  refine ⟨w, hrun, fun hst => ?_⟩
  cases hw.phase with
  | busy _ _ hnone => exact hnone
  | awake _ hrun =>
    rw [hst] at hrun
    cases hrun
  | asleep _ _ hnone => exact hnone

/-- The worker falls asleep, is notified, does the work, and falls asleep again. -/
def workRound : List WorkOp :=
  [.dispatch, .work, .work, .work, .work, .notify, .dispatch, .work, .work, .work, .work, .work]

theorem no_notification_lost_round : ∃ w, runSteps WorkQueue.step registerWorkQueue workRound = .ok w ∧
      w.worker.task.state = .interruptible ∧ (w.worker.task.state = .interruptible → w.outstanding = 0) := by
  obtain ⟨w, hrun, hnone⟩ := no_notification_lost workRound (by decide)
  refine ⟨w, hrun, ?_, hnone⟩
  cases hrun
  rfl

/-- **A notification between `do_work` and the change of state is still outstanding when the worker sleeps.** -/
theorem notification_lost : ∃ w, runSteps WorkQueue.step registerWorkQueue
        [.dispatch, .work, .work, .work, .work, .notify, .dispatch, .work, .work, .notify, .work, .work,
          .work] = .ok w ∧ w.worker.task.state = .interruptible ∧ w.worker.onCpu = false ∧ w.outstanding = 1 :=
  ⟨_, rfl, rfl, rfl, rfl⟩

end ZeldaOS
