import Mathlib.Tactic

/-!
# Tasks: states and signals

The part of `kernel/task.c` and `kernel/task_signal.c` that moves one task between its states. The panic of
`transit_state` carries the pair of states.

* `signalTask` and `taskProcessSignal`: signals are queued and handled.
-/

namespace ZeldaOS

/-! ## States -/

inductive TaskState where
  | zombie | running | interruptible | uninterruptible | exiting
  deriving DecidableEq, Repr

/-- `transition_table`, as filled by `task_state_transition_init`. -/
def transitionTable : TaskState → TaskState → Bool
  | .zombie, .zombie => true
  | .running, .running => true
  | .exiting, .exiting => true
  | .interruptible, .interruptible => true
  | .uninterruptible, .uninterruptible => true
  | .running, .interruptible => true
  | .running, .uninterruptible => true
  | .running, .exiting => true
  | .interruptible, .running => true
  | .interruptible, .uninterruptible => true
  | .uninterruptible, .running => true
  | .uninterruptible, .interruptible => true
  | _, _ => false

inductive Panic where
  /-- The `ASSERT` of `transit_state` on a pair outside `transition_table`. -/
  | transition (src dst : TaskState)
  | assertion
  | notReach
  deriving DecidableEq, Repr

abbrev sigMax : ℕ := 28

/-- A signal number below `SIG_MAX`; `0` is `SIG_INVALID`. -/
abbrev Sig : Type := Fin sigMax

instance : NeZero sigMax := ⟨by decide⟩

instance : LawfulBEq Sig := inferInstance

/-! ## Signals -/

def sigHup : Sig := 1
def sigInt : Sig := 2
def sigQuit : Sig := 3
def sigIll : Sig := 4
def sigFpe : Sig := 8
def sigKill : Sig := 9
def sigSegv : Sig := 11
def sigSys : Sig := 12
def sigPipe : Sig := 13
def sigAlarm : Sig := 14
def sigTerm : Sig := 15
def sigUsr1 : Sig := 16
def sigUsr2 : Sig := 17
def sigStop : Sig := 23
def sigTstp : Sig := 24
def sigCont : Sig := 25
def sigTtin : Sig := 26
def sigTtou : Sig := 27

inductive SigAction where
  | exit | ignore | stop | continue | user
  deriving DecidableEq, Repr

structure SignalEntry where
  valid : Bool
  signaled : Bool
  overridable : Bool
  action : SigAction
  userEntry : ℕ
  deriving DecidableEq, Repr

def SignalEntry.zero : SignalEntry := ⟨false, false, false, .exit, 0⟩

structure CpuState where
  edi : ℕ
  esi : ℕ
  ebp : ℕ
  ebx : ℕ
  edx : ℕ
  ecx : ℕ
  eax : ℕ
  gs : ℕ
  fs : ℕ
  es : ℕ
  ds : ℕ
  vector : ℕ
  errorcode : ℕ
  eip : ℕ
  cs : ℕ
  eflags : ℕ
  esp : ℕ
  ss : ℕ
  deriving DecidableEq, Repr

/-- The fields of `struct task` that the state and signal code reads or writes. -/
structure Task where
  state : TaskState
  nonStopState : TaskState
  interruptDepth : ℕ
  signaledCpu : Option CpuState
  signalScheduled : Bool
  signalPending : Bool
  privilegeLevel : ℕ
  sigEntries : Sig → SignalEntry

def transitState (t : Task) (target : TaskState) : Except Panic Task :=
  if transitionTable t.state target then .ok { t with state := target }
  else .error (.transition t.state target)

def rawTaskWakeUp (t : Task) : Except Panic Task :=
  match t.state with
  | .running => .ok t
  | .interruptible => transitState t .running
  | .uninterruptible =>
    if t.nonStopState = .running ∨ t.nonStopState = .interruptible then
      .ok { t with nonStopState := .running }
    else .error .assertion
  | _ => .error .notReach

/-- The disposition `task_signal_init` gives to a signal. -/
def initEntry (sig : Sig) : SignalEntry :=
  let fixed (a : SigAction) : SignalEntry := { SignalEntry.zero with valid := true, action := a }
  let overridable (a : SigAction) : SignalEntry := { fixed a with overridable := true }
  if sig ∈ [sigHup, sigQuit, sigIll, sigFpe, sigKill, sigSegv, sigSys, sigTerm] then fixed .exit
  else if sig ∈ [sigInt, sigPipe] then overridable .exit
  else if sig ∈ [sigAlarm, sigUsr1, sigUsr2] then overridable .ignore
  else if sig ∈ [sigStop, sigTstp, sigTtin, sigTtou] then fixed .stop
  else if sig = sigCont then fixed .continue
  else .zero

def taskSignalInit (t : Task) : Task := { t with sigEntries := initEntry }

/-- A task as `load_static_elf32` or, without signals, `create_kernel_task` leaves it. -/
def createdTask (user : Bool) : Task where
  state := .running
  nonStopState := .zombie
  interruptDepth := 1
  signaledCpu := none
  signalScheduled := false
  signalPending := false
  privilegeLevel := if user then 3 else 0
  sigEntries := if user then initEntry else fun _ => .zero

def Task.setEntry (t : Task) (sig : Sig) (e : SignalEntry) : Task :=
  { t with sigEntries := Function.update t.sigEntries sig e }

/-! ## Delivery -/

/-- An invalid entry is refused with `-ERR_NOT_SUPPORTED`. -/
def signalTask (t : Task) (sig : Sig) : Except Panic Task :=
  if sig = 0 then .error .assertion
  else if (t.sigEntries sig).valid = false then .ok t
  else
    match (t.sigEntries sig).action with
    | .stop =>
      if t.state = .interruptible ∨ t.state = .running then
        transitState { t with nonStopState := t.state } .uninterruptible
      else .ok t
    | .continue =>
      if t.state = .uninterruptible then do
        let t' ← transitState t t.nonStopState
        .ok { t' with nonStopState := .zombie }
      else .ok t
    | _ =>
      rawTaskWakeUp { t.setEntry sig { t.sigEntries sig with signaled := true } with
        signalPending := true }

/-- `call_sys_signal` by the task itself; every refusal leaves the task as it is. -/
def callSysSignal (t : Task) (signal : ℤ) (handler : ℕ) : Task :=
  if h : 0 < signal ∧ signal < sigMax then
    let sig : Sig := ⟨signal.toNat, by omega⟩
    if (t.sigEntries sig).valid = false ∨ (t.sigEntries sig).overridable = false then t
    else t.setEntry sig { t.sigEntries sig with action := .user, userEntry := handler }
  else t

def userspaceSignalStackTop : ℕ := 0xA0000000 + 1024 * 1024

def userCodeSelector : ℕ := 0x1B
def userDataSelector : ℕ := 0x23

def signalEflags : ℕ := 0x2 ||| 0x200 ||| 0x3000

/-- The frame that `prepare_signal_context` builds to enter the handler `entry`. -/
def signalFrame (entry : ℕ) : CpuState :=
  { edi := 0, esi := 0, ebp := 0, ebx := 0, edx := 0, ecx := 0, eax := 0,
    gs := userDataSelector, fs := userDataSelector, es := userDataSelector,
    ds := userDataSelector, vector := 0, errorcode := 0,
    eip := entry, cs := userCodeSelector, eflags := signalEflags,
    esp := userspaceSignalStackTop - 0x100 - 8, ss := userDataSelector }

def prepareSignalContext (t : Task) (sig : Sig) : Except Panic Task :=
  if t.privilegeLevel = 3 ∧ sig ≠ 0 ∧ (t.sigEntries sig).valid = true ∧
      (t.sigEntries sig).action = .user ∧ (t.sigEntries sig).userEntry ≠ 0 then
    .ok { t with signaledCpu := some (signalFrame (t.sigEntries sig).userEntry) }
  else .error .assertion

def nextSignal (t : Task) (start : ℕ) : Option Sig :=
  (List.finRange sigMax).find? fun sig =>
    decide (start ≤ sig.val) && (t.sigEntries sig).valid && (t.sigEntries sig).signaled

/-- The interrupted frame, the frame of the user handler, or nothing because the task yielded. -/
inductive Resume where
  | normal | signaled | yielded
  deriving DecidableEq, Repr

/-- The frame chosen at the label `out` of `task_process_signal`. -/
def resumeOf (t : Task) : Resume := if t.signalScheduled then .signaled else .normal

def handlePending (t : Task) : Except Panic (Task × Resume) :=
  match nextSignal t 1 with
  | none => let t' := { t with signalPending := false }; .ok (t', resumeOf t')
  | some sig =>
    let t₁ := t.setEntry sig { t.sigEntries sig with signaled := false }
    let t₂ := if (nextSignal t₁ (sig.val + 1)).isNone then { t₁ with signalPending := false } else t₁
    match (t₂.sigEntries sig).action with
    | .ignore => .ok (t₂, resumeOf t₂)
    | .exit => do
      let t₃ ← transitState t₂ .exiting
      .ok (t₃, .yielded)
    | .user => do
      let t₃ ← prepareSignalContext t₂ sig
      .ok ({ t₃ with signalScheduled := true }, .signaled)
    | _ => .error .notReach

def taskProcessSignal (t : Task) : Except Panic (Task × Resume) :=
  if t.privilegeLevel = 3 ∧ t.interruptDepth = 1 then
    if t.state = .running ∨ t.state = .uninterruptible then
      if t.signalScheduled = false ∧ t.signalPending = true then handlePending t
      else .ok (t, resumeOf t)
    else .error .assertion
  else .ok (t, resumeOf t)

end ZeldaOS
