import ZeldaOS.Machine.Lists
import ZeldaOS.Task.WaitQueue

/-!
# The scheduler

`schedule` of `kernel/task.c` with its four intrusive lists, as one step, and the other code that reads or writes what
it uses.

* `schedule` with the lists that it works on.
* `SchedState.step`: the other code.
-/

namespace ZeldaOS

open Machine Function

/-! ## The state -/

inductive Queue where
  | run | blocking | exit | zombie
  deriving DecidableEq, Repr

/-- The heads of the four lists, and `kernel_idle_task`. -/
structure SchedLayout where
  head : Queue → ℕ
  idle : ℕ
  head_inj : Function.Injective head
  idle_ne_zero : idle ≠ 0
  idle_ne_head : ∀ i, idle ≠ head i

inductive Crash where
  | panic (p : Panic)
  | fault (f : Fault)
  deriving DecidableEq, Repr

def onList {α : Type} (x : Except Fault α) : Except Crash α := x.mapError .fault

def onTask {α : Type} (x : Except Panic α) : Except Crash α := x.mapError .panic

def assert (c : Prop) [Decidable c] : Except Crash Unit := onList (ensure c)

/-- The waiters of a task on the exit list are woken, and then it is given back. -/
inductive SchedEvent where
  | woken (waiter : ℕ)
  | reclaimed (task : ℕ)
  deriving DecidableEq, Repr

structure SchedState where
  links : Links
  live : List ℕ
  task : ℕ → Task
  taskId : ℕ → UInt32
  taskSeed : UInt32
  waiters : ℕ → List ℕ
  waiting : ℕ → Option (UInt32 × ℕ)
  current : ℕ
  events : List SchedEvent

def SchedState.setTask (s : SchedState) (t : ℕ) (v : Task) : SchedState :=
  { s with task := update s.task t v }

def SchedState.create (s : SchedState) (t : ℕ) (v : Task) : SchedState where
  links := (s.links.setNext t 0).setPrev t 0
  live := t :: s.live
  task := update s.task t v
  taskId := update s.taskId t s.taskSeed
  taskSeed := s.taskSeed + 1
  waiters := update s.waiters t []
  waiting := update s.waiting t none
  current := s.current
  events := s.events

def SchedState.fuel (s : SchedState) : ℕ := s.live.length + 1

section
variable (c : SchedLayout)

def SchedState.append (s : SchedState) (i : Queue) (t : ℕ) : Except Crash SchedState := do
  let links ← onList (listAppend s.links (c.head i) t)
  .ok { s with links }

def SchedState.fetch (s : SchedState) (i : Queue) : Except Crash (SchedState × ℕ) := do
  let (links, t) ← onList (listFetch s.links (c.head i))
  .ok ({ s with links }, t)

def SchedState.delete (s : SchedState) (i : Queue) (t : ℕ) : Except Crash SchedState := do
  let links ← onList (listDelete s.links s.fuel (c.head i) t)
  .ok { s with links }

def taskPut (s : SchedState) (t : ℕ) : Except Crash SchedState := s.append c .run t

def taskGet (s : SchedState) : Except Crash (SchedState × ℕ) := s.fetch c .run

/-! ## `schedule` -/

def processBlockingTaskList : (fuel : ℕ) → SchedState → ℕ → Except Crash SchedState
  | 0, _, _ => .error (.fault .diverge)
  | fuel + 1, s, t =>
    if t = 0 then .ok s
    else
      let next := s.links.next t
      match (s.task t).state with
      | .running | .exiting => do
        let s ← s.delete c .blocking t
        let s ← taskPut c s t
        processBlockingTaskList fuel s next
      | .interruptible | .uninterruptible => processBlockingTaskList fuel s next
      | .zombie => do
        let s ← s.delete c .blocking t
        let s ← s.append c .zombie t
        processBlockingTaskList fuel s next

/-- `wake_up`, with the `ASSERT` that each entry has a task. -/
def wakeUp (s : SchedState) (ts : List ℕ) : Except Crash SchedState := do
  assert (0 ∉ ts)
  let task ← onTask (wakeUpQueue s.task ts)
  .ok { s with task, events := s.events ++ ts.map .woken }

/-- `reclaim_task` for the scheduler: the task leaves the task table. -/
def reclaimTask (s : SchedState) (t : ℕ) : Except Crash SchedState := do
  assert (s.links.prev t = 0)
  assert (s.links.next t = 0)
  assert (t ∈ s.live)
  .ok { s with live := s.live.filter (· ≠ t), events := s.events ++ [.reclaimed t] }

def processExitTaskList : (fuel : ℕ) → SchedState → Except Crash SchedState
  | 0, _ => .error (.fault .diverge)
  | fuel + 1, s => do
    let (s, t) ← s.fetch c .exit
    if t = 0 then .ok s
    else
      assert ((s.task t).state = .exiting)
      let s ← wakeUp s (s.waiters t)
      let s ← reclaimTask s t
      processExitTaskList fuel s

/-- The loop of `schedule` that picks the next task; `0` when there is none. -/
def pickNextTask : (fuel : ℕ) → SchedState → Except Crash (SchedState × ℕ)
  | 0, _ => .error (.fault .diverge)
  | fuel + 1, s => do
    let (s, t) ← taskGet c s
    if t = 0 then .ok (s, 0)
    else
      match (s.task t).state with
      | .running => .ok (s, t)
      | .exiting => do
        let s ← s.append c .exit t
        pickNextTask fuel s
      | .zombie => do
        let s ← s.append c .zombie t
        pickNextTask fuel s
      | .interruptible | .uninterruptible => do
        let s ← s.append c .blocking t
        pickNextTask fuel s

def putCurrent (s : SchedState) : Except Crash SchedState :=
  if s.current = 0 then .ok s
  else if s.current = c.idle then .ok { s with current := 0 }
  else do
    let s' ← taskPut c s s.current
    .ok { s' with current := 0 }

def schedule (s : SchedState) : Except Crash SchedState := do
  let s ← putCurrent c s
  let s ← processBlockingTaskList c s.fuel s (s.links.next (c.head .blocking))
  let s ← processExitTaskList c s.fuel s
  let (s, t) ← pickNextTask c s.fuel s
  let s := { s with current := if t = 0 then c.idle else t }
  assert (s.current ≠ 0)
  .ok s

end

/-! ## Steps -/

/-- What happens between two calls of `schedule`. -/
inductive SchedOp where
  /-- A task is created at an address and put on the run list. -/
  | spawn (t : ℕ) (v : Task)
  /-- `signal_task`, by the task itself or by anyone else. -/
  | signal (t : ℕ) (sig : Sig)
  /-- `raw_task_wake_up` by a timer, a device or a work queue. -/
  | wakeUp (t : ℕ)
  /-- The current task blocks, in `sleep`, a device read or a work queue. -/
  | block
  /-- The current task enters `call_sys_wait0` and blocks. -/
  | wait0 (taskId : UInt32)
  /-- The current task goes on behind the `yield_cpu` of `call_sys_wait0`. -/
  | wait0Return
  | sysSignal (signal : ℤ) (handler : ℕ)
  /-- The current task returns from a user handler. -/
  | sigReturn
  /-- `task_pre_interrupt_handler`. -/
  | enter
  /-- `task_process_signal` and `task_post_interrupt_handler`. -/
  | leave
  | schedule

def SchedOp.Allowed (c : SchedLayout) (s : SchedState) : SchedOp → Prop
  | .spawn t v => t ≠ 0 ∧ (∀ i ∈ [Queue.run, .blocking, .exit, .zombie], t ≠ c.head i) ∧ t ∉ s.live ∧
      v.state = .running
  | .signal t _ | .wakeUp t => t ∈ s.live
  | .block | .sysSignal _ _ | .sigReturn | .enter => s.current ≠ 0
  | .wait0 _ => s.current ≠ 0 ∧ s.waiting s.current = none ∧ 0 < (s.task s.current).interruptDepth
  | .wait0Return => s.current ≠ 0 ∧
      (s.waiting s.current).map Prod.snd = some (s.task s.current).interruptDepth
  | .leave => s.current ≠ 0 ∧ 0 < (s.task s.current).interruptDepth ∧
      ∀ w ∈ s.waiting s.current, w.2 < (s.task s.current).interruptDepth
  | .schedule => True

instance SchedOp.decidableAllowed (c : SchedLayout) (s : SchedState) :
    (op : SchedOp) → Decidable (op.Allowed c s)
  | .spawn _ _ => inferInstanceAs (Decidable (_ ∧ _ ∧ _ ∧ _))
  | .signal _ _ | .wakeUp _ => inferInstanceAs (Decidable (_ ∈ _))
  | .block | .sysSignal _ _ | .sigReturn | .enter => inferInstanceAs (Decidable (_ ≠ _))
  | .wait0 _ => inferInstanceAs (Decidable (_ ∧ _ ∧ _))
  | .wait0Return => inferInstanceAs (Decidable (_ ∧ _))
  | .leave => inferInstanceAs (Decidable (_ ∧ _ ∧ _))
  | .schedule => inferInstanceAs (Decidable True)

def searchTaskById (s : SchedState) (taskId : UInt32) : Option ℕ :=
  s.live.find? fun t => s.taskId t == taskId

def SchedState.step (c : SchedLayout) (s : SchedState) (op : SchedOp) : Except Crash SchedState :=
  let cur := s.task s.current
  if op.Allowed c s then
    match op with
    | .spawn t v => do
      -- `register_task_in_task_table` refuses an id that is taken: `task_seed` may have wrapped
      assert (searchTaskById s s.taskSeed = none)
      taskPut c (s.create t v) t
    | .signal t sig => do
      let v ← onTask (signalTask (s.task t) sig)
      .ok (s.setTask t v)
    | .wakeUp t => do
      let v ← onTask (rawTaskWakeUp (s.task t))
      .ok (s.setTask t v)
    | .block => do
      let v ← onTask (transitState cur .interruptible)
      .ok (s.setTask s.current v)
    | .wait0 taskId =>
      match searchTaskById s taskId with
      | none => .ok s
      | some t =>
        if (s.task t).state = .exiting then .ok s
        else do
          let v ← onTask (transitState cur .interruptible)
          .ok { s.setTask s.current v with
            waiters := update s.waiters t (addWaitQueueEntry (s.waiters t) s.current)
            waiting := update s.waiting s.current (some (taskId, cur.interruptDepth)) }
    | .wait0Return =>
      let s' := { s with waiting := update s.waiting s.current none }
      match (s.waiting s.current).bind fun w => searchTaskById s w.1 with
      | none => .ok s'
      | some t =>
        .ok { s' with waiters := update s.waiters t (removeWaitQueueEntry (s.waiters t) s.current) }
    | .sysSignal signal handler => .ok (s.setTask s.current (callSysSignal cur signal handler))
    | .sigReturn => do
      assert (cur.signalScheduled = true)
      .ok (s.setTask s.current { cur with signalScheduled := false })
    | .enter => .ok (s.setTask s.current { cur with interruptDepth := cur.interruptDepth + 1 })
    | .leave => do
      let (v, resume) ← onTask (taskProcessSignal cur)
      .ok (s.setTask s.current (if resume = .yielded then v else { v with interruptDepth := v.interruptDepth - 1 }))
    | .schedule => schedule c s
  else .ok s

def SchedState.run (c : SchedLayout) (s : SchedState) : List SchedOp → Except Crash SchedState
  | [] => .ok s
  | op :: ops => do (← s.step c op).run c ops

def SchedLayout.boot (c : SchedLayout) (idleTask : Task) : SchedState where
  links := ⟨fun _ => 0, fun _ => 0⟩
  live := [c.idle]
  task _ := { idleTask with state := .running }
  taskId _ := 0
  taskSeed := 1
  waiters _ := []
  waiting _ := none
  current := 0
  events := []

end ZeldaOS
