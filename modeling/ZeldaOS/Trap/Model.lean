import ZeldaOS.Machine.Runs
import ZeldaOS.Task.Model

/-!
# Interrupts and signal handlers

`interrupt_handler` with the code that it calls, `schedule`, the system calls that queue signals and the return from a
user handler. A frame is named by the interrupt that made it. Handlers and the kernel code of a PL3 task run with
interrupts disabled.

* `TrapState.step`: interrupts, system calls and switches.
-/

namespace ZeldaOS

/-! ## Tasks and frames -/

/-- The interrupt that pushed it, and whether it returns to PL3. -/
structure Frame where
  serial : ℕ
  user : Bool
  deriving DecidableEq, Repr

structure Nested where
  frame : Frame
  locals : Option (Frame × Frame)
  deriving DecidableEq, Repr

/-- A task with the frames that `cpu` and `signaled_cpu` point to. -/
structure TrapTask where
  task : Task
  cpu : Frame
  signaledCpu : Frame
  traps : List Nested
  parked : List Nested
  handling : Option Sig
  exited : Option Frame

def TrapTask.InUser (v : TrapTask) : Prop := v.task.privilegeLevel = 3 ∧ v.traps = []

instance TrapTask.decidableInUser (v : TrapTask) : Decidable v.InUser :=
  decidable_of_iff (v.task.privilegeLevel = 3 ∧ v.traps.isEmpty = true) (by
    rw [TrapTask.InUser, List.isEmpty_iff])

/-- A panic of the task code, the `ASSERT` on `interrupt_depth` or one of `return_from_pl3_signal_context`, or the
return to a frame that does not wait for it, where the model ends. -/
inductive TrapFault where
  | panic (p : Panic)
  | depth
  | sigReturn
  | stray (privilegeLevel interruptDepth : ℕ) (f : Frame)
  deriving DecidableEq, Repr

/-! ## Handlers -/

def taskPreInterruptHandler (v : TrapTask) (cpu : Frame) : TrapTask :=
  let v := { v with task := { v.task with interruptDepth := v.task.interruptDepth + 1 } }
  if v.task.signalScheduled then { v with signaledCpu := cpu } else { v with cpu := cpu }

def taskPostInterruptHandler (v : TrapTask) : Except TrapFault TrapTask :=
  if v.task.interruptDepth = 0 then .error .depth
  else .ok { v with task := { v.task with interruptDepth := v.task.interruptDepth - 1 } }

/-- Return to a frame, enter the user handler, or give up the processor for good. -/
inductive Exit where
  | restore (f : Frame)
  | handler (f : Frame)
  | yielded
  deriving DecidableEq, Repr

/-- `new` is where `prepare_signal_context` builds a frame. -/
def processSignal (v : TrapTask) (esp new : Frame) : Except TrapFault (TrapTask × Exit) :=
  match taskProcessSignal v.task with
  | .error p => .error (.panic p)
  | .ok (t, .yielded) => .ok ({ v with task := t }, .yielded)
  | .ok (t, .normal) => .ok ({ v with task := t }, .restore esp)
  | .ok (t, .signaled) =>
    if v.task.signalScheduled then .ok ({ v with task := t }, .restore v.signaledCpu)
    else .ok ({ v with task := t, signaledCpu := new, handling := nextSignal v.task 1 }, .handler new)

/-- The return to a frame. Behind its trap `yield_cpu` puts its locals back. -/
def iret (v : TrapTask) (privilegeLevel interruptDepth : ℕ) (f : Frame) : Except TrapFault TrapTask :=
  match v.traps with
  | [] => .error (.stray privilegeLevel interruptDepth f)
  | n :: ns =>
    if n.frame = f then
      match n.locals with
      | none => .ok { v with traps := ns }
      | some (cpu, signalCpu) => .ok { v with traps := ns, cpu := cpu, signaledCpu := signalCpu }
    else .error (.stray privilegeLevel interruptDepth f)

def finish (v : TrapTask) (esp new : Frame) : Except TrapFault (TrapTask × Option Frame) := do
  let (v', e) ← processSignal v esp new
  match e with
  | .yielded => .ok (v', none)
  | .restore f => do
    let w ← taskPostInterruptHandler v'
    let w ← iret w v.task.privilegeLevel v.task.interruptDepth f
    .ok (w, some f)
  | .handler f => do
    let w ← taskPostInterruptHandler v'
    .ok ({ w with traps := [], parked := w.traps }, some f)

def returnFromPl3SignalContext (v : TrapTask) (esp : Frame) : Except TrapFault (TrapTask × Frame) :=
  if v.task.signalScheduled = true ∧ v.signaledCpu = esp then
    .ok ({ v with task := { v.task with signalScheduled := false } }, v.cpu)
  else .error .sigReturn

def callSysExit (t : Task) : Except Panic Task := do
  let t ← signalTask t sigCont
  signalTask t sigQuit

def inTrap {α : Type} (x : Except Panic α) : Except TrapFault α := x.mapError .panic

/-! ## The system -/

/-- The task, its privilege level, the depth that is tested, and the frame that is restored. -/
structure ExitRecord where
  task : ℕ
  privilegeLevel : ℕ
  interruptDepth : ℕ
  frame : Frame
  deriving DecidableEq, Repr

/-- With the interrupts taken while `current` is `NULL`, and two records: the interrupt exits, and the frames of the
exit calls. -/
structure TrapState where
  tasks : ℕ → Option TrapTask
  current : Option ℕ
  boot : List Frame
  fresh : ℕ
  log : List ExitRecord
  exits : List Frame

inductive TrapOp where
  | spawn (t : ℕ) (user : Bool)
  /-- An interrupt, an exception or a system call, from PL3 or inside the kernel. -/
  | trap
  | yieldCpu
  /-- `transit_state(current, TASK_STATE_INTERRUPTIBLE)` and `yield_cpu`. -/
  | sleep
  /-- The former without the latter: a kernel task may be interrupted between them. -/
  | block
  | signal (t : ℕ) (sig : Sig)
  | wakeUp (t : ℕ)
  | sysSignal (signal : ℤ) (handler : ℕ)
  | leave
  /-- The handler returns what `schedule` gave it, with a next task. -/
  | switch (next : ℕ)
  /-- PL3 code faults at the address of `return_from_pl3_signal_context`. -/
  | sigReturn
  | exitCall
  | reclaim (t : ℕ)

/-- Its frame is saved. -/
def newTask (user : Bool) (f : Frame) : TrapTask where
  task := createdTask user
  cpu := f
  signaledCpu := f
  traps := [⟨f, none⟩]
  parked := []
  handling := none
  exited := none

def TrapTask.trap (v : TrapTask) (f : Frame) (locals : Option (Frame × Frame)) : TrapTask :=
  { taskPreInterruptHandler v f with traps := ⟨f, locals⟩ :: v.traps }

namespace TrapState

def setTask (s : TrapState) (t : ℕ) (v : TrapTask) : TrapState :=
  { s with tasks := Function.update s.tasks t (some v) }

def withTask (s : TrapState) (t : ℕ) (f : TrapTask → Except TrapFault TrapState) :
    Except TrapFault TrapState :=
  match s.tasks t with
  | some v => f v
  | none => .ok s

def withCurrent (s : TrapState) (f : ℕ → TrapTask → Except TrapFault TrapState) :
    Except TrapFault TrapState :=
  match s.current with
  | some t => s.withTask t (f t)
  | none => .ok s

def enter (s : TrapState) (t : ℕ) (v : TrapTask) (locals : Option (Frame × Frame)) : TrapState :=
  { s.setTask t (v.trap ⟨s.fresh, decide v.InUser⟩ locals) with fresh := s.fresh + 1 }

def exit (s : TrapState) (t : ℕ) (v : TrapTask) (esp : Frame) : Except TrapFault TrapState := do
  let (w, f) ← finish v esp ⟨s.fresh, true⟩
  .ok { s.setTask t w with
    current := some t
    fresh := s.fresh + 1
    log := (f.map (⟨t, v.task.privilegeLevel, v.task.interruptDepth, ·⟩)).toList ++ s.log }

/-- The current task is inside an interrupt, or nothing is current. -/
def inHandler (s : TrapState) : Bool :=
  match s.current with
  | none => !s.boot.isEmpty
  | some t =>
    match s.tasks t with
    | none => false
    | some v => !v.traps.isEmpty

def step (s : TrapState) : TrapOp → Except TrapFault TrapState
  | .spawn t user =>
    if (s.tasks t).isNone then
      .ok { s.setTask t (newTask user ⟨s.fresh, user⟩) with fresh := s.fresh + 1 }
    else .ok s
  | .trap =>
    match s.current with
    | none => .ok { s with boot := ⟨s.fresh, false⟩ :: s.boot, fresh := s.fresh + 1 }
    | some t => s.withTask t fun v =>
        if v.task.state = .exiting then .ok s else .ok (s.enter t v none)
  | .yieldCpu => s.withCurrent fun t v =>
      if v.InUser then .ok s else .ok (s.enter t v (some (v.cpu, v.signaledCpu)))
  | .sleep => s.withCurrent fun t v =>
      if v.InUser ∨ v.task.state = .exiting then .ok s
      else do
        let task ← inTrap (transitState v.task .interruptible)
        .ok (s.enter t { v with task } (some (v.cpu, v.signaledCpu)))
  | .block => s.withCurrent fun t v =>
      if v.task.privilegeLevel = 3 then .ok s
      else do
        let task ← inTrap (transitState v.task .interruptible)
        .ok (s.setTask t { v with task })
  | .signal t sig => s.withTask t fun v =>
      if sig = 0 then .ok s
      else do
        let task ← inTrap (signalTask v.task sig)
        .ok (s.setTask t { v with task })
  | .wakeUp t => s.withTask t fun v => do
      let task ← inTrap (rawTaskWakeUp v.task)
      .ok (s.setTask t { v with task })
  | .sysSignal n h => s.withCurrent fun t v =>
      .ok (s.setTask t { v with task := callSysSignal v.task n h })
  | .leave =>
    match s.current with
    | none => .ok { s with boot := s.boot.tail }
    | some t => s.withTask t fun v =>
        match v.traps with
        | [] => .ok s
        | n :: _ =>
          if n.locals.isSome ∨ v.task.state = .exiting then .ok s else s.exit t v n.frame
  | .switch next => s.withTask next fun v =>
      if s.inHandler = true ∧ v.task.state = .running then s.exit next v v.cpu else .ok s
  | .sigReturn => s.withCurrent fun t v =>
      if v.InUser then do
        let f : Frame := ⟨s.fresh, true⟩
        let (w, esp) ← returnFromPl3SignalContext (v.trap f none) f
        ({ s with fresh := s.fresh + 1 } : TrapState).exit t { w with traps := w.parked, parked := [] } esp
      else .ok s
  | .exitCall => s.withCurrent fun t v =>
      if v.InUser then do
        let f : Frame := ⟨s.fresh, true⟩
        let v := v.trap f none
        let task ← inTrap (callSysExit v.task)
        ({ s with fresh := s.fresh + 1, exits := f :: s.exits } : TrapState).exit t { v with task, exited := some f } f
      else .ok s
  | .reclaim t => s.withTask t fun v =>
      if s.current ≠ some t ∧ v.task.state = .exiting then
        .ok { s with tasks := Function.update s.tasks t none }
      else .ok s

def start : TrapState := ⟨fun _ => none, none, [], 0, [], []⟩

end TrapState

end ZeldaOS
