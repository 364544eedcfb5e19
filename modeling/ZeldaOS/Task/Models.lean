import ZeldaOS.Sched.Wake
import ZeldaOS.Task.WorkQueue
import ZeldaOS.Trap.Local

/-!
# The models of the tasks

A run of a single task, of the scheduler, of the interrupts or of a work queue is for each of its tasks a sequence of
calls, so what the calls keep holds in all of these models.

* `OneTask.krun_becomes`, `WorkQueue.run_created`: the task of a run comes from its first one by calls.
* `SchedState.run_created`, `TrapState.run_created`: every task of a run comes from a new one by calls.
* `Task.Created.bookkept`: in each of them `signal_pending` says of a PL3 task whether a signal is queued.
-/

namespace ZeldaOS

open Machine

/-- The task comes by calls from one that the kernel made. -/
def Task.Created (v : Task) : Prop := ∃ user, (createdTask user).Becomes v

variable {v v' : Task}

theorem Task.Created.becomes (h : v.Created) (hb : v.Becomes v') : v'.Created := by
  obtain ⟨user, hu⟩ := h
  exact ⟨user, hu.trans hb⟩

/-- A call after which there is a task. -/
theorem Task.Created.next (h : v.Created) (c : TaskCall) (hcall : v.call c = .ok v') : v'.Created :=
  h.becomes (.single ⟨c, hcall⟩)

/-! ## A single task -/

theorem becomes_depth (v : Task) (d : ℕ) : v.Becomes { v with interruptDepth := d } := by
  -- down to zero, and up again
  have hdown : ∀ n, v.Becomes { v with interruptDepth := v.interruptDepth - n } := fun n => by
    induction n with
    | zero => exact .refl
    | succ n ih => exact ih.next (c := .leave) rfl
  induction d with
  | zero =>
    have hzero := hdown v.interruptDepth
    rwa [Nat.sub_self] at hzero
  | succ d ih => exact ih.next (c := .enter) rfl

variable {s s' : OneTask}

theorem OneTask.step_becomes {e : Event} (h : s.step e = .ok s') : s.task.Becomes s'.task := by
  cases e with
  | signal sig h0 =>
    obtain ⟨t, ht, rfl⟩ := map_eq_ok h
    exact .single ⟨.signal sig, ht⟩
  | wakeUp =>
    obtain ⟨t, ht, rfl⟩ := map_eq_ok h
    exact .single ⟨.wakeUp, ht⟩
  | block =>
    rw [OneTask.step] at h
    split_ifs at h
    · obtain ⟨t, ht, rfl⟩ := map_eq_ok h
      exact .single ⟨.block, ht⟩
    · cases h
      exact .refl
  | sysSignal n handler =>
    cases h
    split_ifs
    · exact .single ⟨.sysSignal n handler, rfl⟩
    · exact .refl
  | dispatch =>
    cases h
    split_ifs <;> exact .refl
  | preempt =>
    cases h
    exact .refl

theorem OneTask.kstep_becomes {e : KernelEvent} (h : s.kstep e = .ok s') : s.task.Becomes s'.task := by
  cases e with
  | base e => exact OneTask.step_becomes h
  | interruptExit depth =>
    rw [OneTask.kstep] at h
    split_ifs at h
    · obtain ⟨r, hr, rfl⟩ := map_eq_ok h
      refine (becomes_depth s.task depth).next (c := .processSignal) ?_
      rw [Task.call, hr]
      rfl
    · cases h
      exact .refl
  | signalReturn =>
    rw [OneTask.kstep] at h
    split_ifs at h with hcpu hscheduled
    · cases h
      exact .single ⟨.signalReturn, if_pos hscheduled⟩
    · cases h
      exact .refl

/-- **A run of a single task is a sequence of calls.** -/
theorem OneTask.krun_becomes {es : List KernelEvent} (h : s.krun es = .ok s') : s.task.Becomes s'.task := by
  induction es generalizing s with
  | nil =>
    cases h
    exact .refl
  | cons e es ih =>
    rw [OneTask.krun, List.foldlM_cons] at h
    obtain ⟨s1, hs1, h⟩ := bind_eq_ok h
    exact (OneTask.kstep_becomes hs1).trans (ih h)

/-! ## Work queues -/

variable {w w' : WorkQueue}

theorem WorkQueue.wakeUp_becomes (h : w.wakeUp = .ok w') : w.worker.task.Becomes w'.worker.task := by
  cases hwaits : w.waits with
  | false =>
    rw [WorkQueue.wakeUp, hwaits] at h
    cases h
    exact .refl
  | true =>
    rw [w.wakeUp_waits hwaits] at h
    obtain ⟨t, ht, rfl⟩ := map_eq_ok h
    exact .single ⟨.wakeUp, ht⟩

theorem notifyWorkQueue_becomes {r : ℤ} (h : notifyWorkQueue w = .ok (w', r)) :
    w.worker.task.Becomes w'.worker.task := by
  rw [notifyWorkQueue] at h
  split_ifs at h
  · cases h
    exact .refl
  obtain ⟨w1, hw1, h⟩ := map_eq_ok h
  cases h
  exact WorkQueue.wakeUp_becomes hw1

theorem workerStep_becomes (h : workerStep w = .ok w') : w.worker.task.Becomes w'.worker.task := by
  rw [workerStep] at h
  cases hpc : w.pc <;> simp only [hpc] at h
  case transit =>
    obtain ⟨t, ht, rfl⟩ := map_eq_ok h
    exact .single ⟨.block, ht⟩
  case quit =>
    obtain ⟨t, ht, h⟩ := bind_eq_ok h
    obtain ⟨t', ht', h⟩ := bind_eq_ok h
    cases h
    exact (Relation.ReflTransGen.single ⟨.signal sigCont, ht⟩).tail ⟨.signal sigQuit, ht'⟩
  case retest =>
    split_ifs at h <;> cases h <;> exact .refl
  all_goals
    cases h
    exact .refl

theorem WorkQueue.step_becomes {op : WorkOp} (h : w.step op = .ok w') : w.worker.task.Becomes w'.worker.task := by
  cases op with
  | work =>
    rw [WorkQueue.step] at h
    split_ifs at h
    · exact workerStep_becomes h
    · cases h
      exact .refl
  | notify =>
    obtain ⟨r, hr, rfl⟩ := map_eq_ok h
    exact (notifyWorkQueue_becomes hr :)
  | terminate =>
    obtain ⟨r, hr, rfl⟩ := map_eq_ok h
    rw [terminateWorkQueue] at hr
    split_ifs at hr
    · cases hr
      exact .refl
    obtain ⟨⟨w1, r1⟩, hw1, hr⟩ := bind_eq_ok hr
    dsimp only at hr
    split_ifs at hr
    cases hr
    exact (notifyWorkQueue_becomes hw1 :)
  | preempt =>
    rw [WorkQueue.step] at h
    obtain ⟨t, ht, rfl⟩ := map_eq_ok h
    exact OneTask.step_becomes ht
  | dispatch =>
    rw [WorkQueue.step] at h
    obtain ⟨t, ht, rfl⟩ := map_eq_ok h
    exact OneTask.step_becomes ht

/-- **The worker of a work queue comes from a new kernel task by calls.** -/
theorem WorkQueue.run_created {ops : List WorkOp} (h : runSteps WorkQueue.step registerWorkQueue ops = .ok w) :
    w.worker.task.Created :=
  inv_of_run (I := fun w => w.worker.task.Created) (fun _ _ _ hw hs => hw.becomes (WorkQueue.step_becomes hs))
    ⟨false, .refl⟩ h

/-! ## The scheduler -/

section
variable {c : SchedLayout} {s s' : SchedState} {q : Queue → List ℕ}

theorem SchedState.step_created (h : SchedInv c s q) {op : SchedOp} (hop : ∀ t v, op = .spawn t v → v.Created)
    (hall : ∀ t ∈ s.live, (s.task t).Created) (hs : s.step c op = .ok s') : ∀ t ∈ s'.live, (s'.task t).Created := by
  by_cases hleave : op = .leave
  · subst hleave
    rw [SchedState.step] at hs
    split_ifs at hs with hallow
    case neg =>
      cases hs
      exact hall
    obtain ⟨⟨v, r⟩, hv, hs⟩ := bind_eq_ok hs
    cases hs
    have hprocess : (s.task s.current).call .processSignal = .ok v := by
      rw [Task.call, onTask_eq_ok hv]
      rfl
    intro t ht
    by_cases hcur : t = s.current
    · rw [hcur, setTask_task_self]
      have hv := (hall s.current (hcur ▸ ht)).next .processSignal hprocess
      split_ifs
      · exact hv
      · exact hv.next .leave rfl
    · rw [setTask_task_of_ne hcur]
      exact hall t ht
  by_cases hspawn : ∃ t v, op = .spawn t v
  · obtain ⟨t, v, rfl⟩ := hspawn
    rw [SchedState.step] at hs
    split_ifs at hs with hallow
    case neg =>
      cases hs
      exact hall
    obtain ⟨-, -, hs⟩ := bind_eq_ok hs
    obtain ⟨hlive, htask⟩ := taskPut_eq_ok hs
    intro u hu
    rw [hlive] at hu
    rw [htask]
    change (Function.update s.task t v u).Created
    by_cases hut : u = t
    · rw [hut, Function.update_self]
      exact hop t v rfl
    · rw [Function.update_of_ne hut]
      exact hall u ((List.mem_cons.1 hu).resolve_left hut)
  push Not at hspawn
  intro t ht
  obtain ⟨hlive, htouched⟩ := step_touches h hs hleave hspawn t ht
  exact (hall t hlive).becomes htouched.becomes

theorem SchedState.run_keeps_created {ops : List SchedOp} (h : SchedInv c s q)
    (hops : ∀ t v, SchedOp.spawn t v ∈ ops → v.Created) (hall : ∀ t ∈ s.live, (s.task t).Created)
    (hs : s.run c ops = .ok s') : ∀ t ∈ s'.live, (s'.task t).Created := by
  induction ops generalizing s q with
  | nil =>
    cases hs
    exact hall
  | cons op ops ih =>
    obtain ⟨s1, hs1, hs⟩ := bind_eq_ok hs
    obtain ⟨q1, h1⟩ := schedInv_step h hs1
    refine ih h1 (fun t v hmem => hops t v (List.mem_cons_of_mem op hmem)) ?_ hs
    exact SchedState.step_created h (fun t v he => hops t v (he ▸ List.mem_cons_self)) hall hs1

/-- **If the tasks that a run of the scheduler is given are new, every live task comes from a new one by calls.** -/
theorem SchedState.run_created {ops : List SchedOp} (hops : ∀ t v, SchedOp.spawn t v ∈ ops → v.Created)
    (hs : (c.boot (createdTask false)).run c ops = .ok s) : ∀ t ∈ s.live, (s.task t).Created :=
  SchedState.run_keeps_created (schedInv_boot (createdTask false)) hops (fun _ _ => ⟨false, .refl⟩) hs

end

/-! ## Interrupts -/

section
variable {v w : TrapTask} {esp new f : Frame}

theorem processSignal_task {e : Exit} (h : processSignal v esp new = .ok (w, e)) :
    v.task.call .processSignal = .ok w.task := by
  rw [processSignal] at h
  rw [Task.call]
  cases hp : taskProcessSignal v.task with
  | error p =>
    rw [hp] at h
    cases h
  | ok r =>
    obtain ⟨t, r⟩ := r
    rw [hp] at h
    cases r with
    | yielded => cases h; rfl
    | normal => cases h; rfl
    | signaled =>
      dsimp only at h
      split_ifs at h <;> cases h <;> rfl

theorem iret_task {pl d : ℕ} (h : iret v pl d f = .ok w) : w.task = v.task := by
  rw [iret] at h
  cases hn : v.traps with
  | nil =>
    rw [hn] at h
    cases h
  | cons n ns =>
    rw [hn] at h
    dsimp only at h
    split_ifs at h
    cases hl : n.locals <;> rw [hl] at h <;> cases h <;> rfl

theorem taskPost_task (h : taskPostInterruptHandler v = .ok w) : v.task.call .leave = .ok w.task := by
  rw [taskPostInterruptHandler] at h
  split_ifs at h
  cases h
  rfl

theorem finish_becomes {o : Option Frame} (h : finish v esp new = .ok (w, o)) : v.task.Becomes w.task := by
  obtain ⟨⟨v1, e⟩, hp, h⟩ := bind_eq_ok h
  have hb : v.task.Becomes v1.task := .single ⟨.processSignal, processSignal_task hp⟩
  cases e with
  | yielded =>
    cases h
    exact hb
  | restore f =>
    obtain ⟨v2, h2, h⟩ := bind_eq_ok h
    obtain ⟨v3, h3, h⟩ := bind_eq_ok h
    cases h
    rw [iret_task h3]
    exact hb.next (taskPost_task h2)
  | handler f =>
    obtain ⟨v2, h2, h⟩ := bind_eq_ok h
    cases h
    exact (hb.next (taskPost_task h2) :)

theorem finish_created (h : v.task.Created) (k : ℕ) (X : List Frame) :
    Ends (LeftIn (fun _ _ w => w.task.Created) (fun _ _ _ => True) k X) (fun _ => True) (finish v esp new) := by
  cases hf : finish v esp new with
  | error e => trivial
  | ok r => exact ⟨h.becomes (finish_becomes hf), fun _ _ => trivial⟩

theorem trap_created (v : TrapTask) (h : v.task.Created) (locals : Option (Frame × Frame)) :
    (v.trap f locals).task.Created := by
  rw [trap_task]
  exact h.next .enter rfl

theorem coded_created {x : Except Panic Task} (h : v.task.Created) (hx : Coded (fun _ _ => True) v x) :
    Ends Task.Created (fun _ => True) (inTrap x) := by
  refine inTrap_ends (fun t ht => ?_) fun _ _ => trivial
  cases hx with
  | block => exact h.next .block ht
  | signal sig => exact h.next (.signal sig) ht
  | wakeUp => exact h.next .wakeUp ht
  | sysSignal n handler => exact h.next (.sysSignal n handler) ht

theorem local_created : Local (fun _ _ => True) (fun _ _ v => v.task.Created) (fun _ _ _ => True) fun _ => True where
  later h := h
  laterLog _ := trivial
  others h := h
  othersLog _ := trivial
  new user _ := ⟨user, .refl⟩
  code h hx := coded_created h hx
  trap h _ _ := trap_created _ h none
  yieldCpu h _ _ := trap_created _ h _
  sleep {k X v t} h _ ht _ := trap_created { v with task := t } (h.next .block ht) _
  insomnia _ _ := trivial
  exit h _ _ _ := finish_created h _ _
  sigReturn {k X v} h _ _ _ := by
    split_ifs with hscheduled
    have hreturn := (h.next .enter rfl).next .signalReturn (if_pos hscheduled)
    exact finish_created (v := v.unparked ⟨k, true⟩) hreturn _ _
  exitCall {k X v} h _ _ _ := by
    cases hx : callSysExit (v.trap ⟨k, true⟩ none).task with
    | error p => trivial
    | ok t =>
      obtain ⟨t1, h1, h2⟩ := bind_eq_ok hx
      have hexit := ((trap_created v h none).next (.signal sigCont) h1).next (.signal sigQuit) h2
      exact finish_created (v := { v.trap ⟨k, true⟩ none with task := t, exited := some ⟨k, true⟩ }) hexit _ _

/-- **Every task of a run of the interrupts comes from a new one by calls.** -/
theorem TrapState.run_created {ops : List TrapOp} {s : TrapState} (h : runSteps TrapState.step .start ops = .ok s)
    {t : ℕ} (hv : s.tasks t = some v) : v.task.Created := by
  have hall : Along TrapState.step (fun _ _ => True) .start ops := along_of_forall fun _ _ => trivial
  have hrun := ends_run (P := fun _ _ => True) (fun s op hs _ => local_created.step s op hs fun _ _ => trivial)
    each_start hall
  rw [h] at hrun
  exact hrun.task t v hv

end

/-! ## Signals in all models -/

theorem call_signalStep {c : TaskCall} (h : v.call c = .ok v') : ∃ op, v.signalStep op = .ok v' := by
  cases c with
  | block =>
    rw [Task.call, transitState] at h
    split_ifs at h
    exact ⟨.other .interruptible v.nonStopState v.interruptDepth v.signalScheduled, h⟩
  | wakeUp =>
    refine ⟨.other v'.state v'.nonStopState v.interruptDepth v.signalScheduled, ?_⟩
    rcases rawTaskWakeUp_cases h with ⟨-, rfl⟩ | ⟨-, rfl⟩ | ⟨-, rfl⟩ <;> rfl
  | signal sig =>
    have h0 : sig ≠ 0 := fun h0 => by
      rw [Task.call, signalTask, if_pos h0] at h
      cases h
    exact ⟨.signal sig h0, h⟩
  | sysSignal n handler => exact ⟨.sysSignal n handler, h⟩
  | processSignal => exact ⟨.processSignal, h⟩
  | signalReturn =>
    rw [Task.call] at h
    split_ifs at h
    exact ⟨.other v.state v.nonStopState v.interruptDepth false, h⟩
  | enter => exact ⟨.other v.state v.nonStopState (v.interruptDepth + 1) v.signalScheduled, h⟩
  | leave => exact ⟨.other v.state v.nonStopState (v.interruptDepth - 1) v.signalScheduled, h⟩

theorem Task.Becomes.bookkept (h : v.Becomes v') (hv : v.Bookkept) : v'.Bookkept := by
  induction h with
  | refl => exact hv
  | tail _ hcall ih =>
    obtain ⟨c, hc⟩ := hcall
    obtain ⟨op, hop⟩ := call_signalStep hc
    exact (signaled_signalStep ih hop).1

theorem Task.Becomes.privilegeLevel (h : v.Becomes v') : v'.privilegeLevel = v.privilegeLevel := by
  induction h with
  | refl => rfl
  | tail _ hcall ih =>
    obtain ⟨c, hc⟩ := hcall
    rw [← ih]
    cases c with
    | processSignal =>
      obtain ⟨⟨t, r⟩, ht, rfl⟩ := map_eq_ok hc
      exact (processed_of_eq_ok ht).privilegeLevel
    | leave =>
      cases hc
      rfl
    | _ => exact (Task.Touched.keeps (.inr ⟨_, rfl, hc⟩)).privilegeLevel

/-- **In all models `signal_pending` says of a PL3 task whether a signal is queued, and what is queued can be
handled.** -/
theorem Task.Created.bookkept (h : v.Created) (hpl : v.privilegeLevel = 3) : v.Bookkept := by
  obtain ⟨user, hb⟩ := h
  rw [hb.privilegeLevel] at hpl
  cases user with
  | false => cases hpl
  | true => exact hb.bookkept (bookkept_start (createdTask true))

end ZeldaOS
