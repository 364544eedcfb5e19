import ZeldaOS.Machine.Ring
import ZeldaOS.Machine.Runs
import ZeldaOS.Posix
import ZeldaOS.Task.WaitQueue

/-!
# Pseudo terminals

One terminal of `device/pseudo_terminal.c`, without its screen, and the tasks that read from it. A read is atomic up
to its `yield_cpu`. A task and its wait queue entry are named by the `task_id`.

* `Terminal.step`: reads, keys and requests.
-/

namespace ZeldaOS

open Machine Function

def pseudoBufferSize : ℕ := 64

/-! ## The terminal -/

structure Ptty where
  masterTaskId : ℕ
  foregroundTaskId : ℕ
  wqHead : List ℕ
  ring : RingBuffer UInt8
  slaveWqHead : List ℕ
  slaveRing : RingBuffer UInt8

def pttyInit : Ptty where
  masterTaskId := 0
  foregroundTaskId := 0
  wqHead := []
  ring := ⟨pseudoBufferSize, 0, 0, fun _ => 0⟩
  slaveWqHead := []
  slaveRing := ⟨pseudoBufferSize, 0, 0, fun _ => 0⟩

/-- The `PTTY_IOCTL_*` requests; a negative size writes no bytes. -/
inductive PttyRequest where
  | clear
  | master (taskId : ℕ)
  | foreground (taskId : ℕ)
  | slaveWrite (bytes : List UInt8)
  | unknown

def pttyDevIoctl (p : Ptty) : PttyRequest → Ptty × ℤ
  | .clear => (p, 0)
  | .master taskId => ({ p with masterTaskId := taskId }, 0)
  | .foreground taskId => ({ p with foregroundTaskId := taskId, slaveRing := p.slaveRing.reset }, 0)
  | .slaveWrite bytes =>
    let (slaveRing, n) := p.slaveRing.write bytes
    ({ p with slaveRing }, n)
  | .unknown => (p, -errNotPresent)

inductive Reader where
  | master | slave
  deriving DecidableEq, Repr

def Ptty.source (p : Ptty) : Reader → RingBuffer UInt8
  | .master => p.ring
  | .slave => p.slaveRing

def Ptty.setSource (p : Ptty) (r : RingBuffer UInt8) : Reader → Ptty
  | .master => { p with ring := r }
  | .slave => { p with slaveRing := r }

def Ptty.queue (p : Ptty) : Reader → List ℕ
  | .master => p.wqHead
  | .slave => p.slaveWqHead

def Ptty.setQueue (p : Ptty) (q : List ℕ) : Reader → Ptty
  | .master => { p with wqHead := q }
  | .slave => { p with slaveWqHead := q }

def Ptty.waits (p : Ptty) (t : ℕ) : Reader → Bool
  | .master => p.ring.isEmpty
  | .slave => p.foregroundTaskId != t || p.slaveRing.isEmpty

/-! ## Readers -/

/-- With the read, and the size asked for, of a task behind the `yield_cpu` of a read. -/
structure Terminal where
  ptty : Ptty
  task : ℕ → Task
  reading : ℕ → Option (Reader × ℤ)

def Terminal.leave (s : Terminal) (t : ℕ) (k : Reader) : Terminal :=
  { s with
    ptty := s.ptty.setQueue (removeWaitQueueEntry (s.ptty.queue k) t) k
    reading := update s.reading t none }

/-- The loop of a read from its test on, and what it returns when it does not block. -/
def pttyReadLoop (s : Terminal) (t : ℕ) (k : Reader) (size : ℤ) :
    Except Panic (Terminal × Option (ℤ × List UInt8)) :=
  if s.ptty.waits t k then do
    let v ← transitState (s.task t) .interruptible
    .ok ({ s with
      task := update s.task t v
      reading := update s.reading t (some (k, size)) }, none)
  else
    let (r, bytes) := (s.ptty.source k).read size.toNat
    .ok (({ s with ptty := s.ptty.setSource r k } : Terminal).leave t k, some (bytes.length, bytes))

def pttyRead (s : Terminal) (t : ℕ) (k : Reader) (size : ℤ) :
    Except Panic (Terminal × Option (ℤ × List UInt8)) :=
  pttyReadLoop { s with ptty := s.ptty.setQueue (addWaitQueueEntry (s.ptty.queue k) t) k } t k size

def pttyMasterRead (s : Terminal) (t : ℕ) (size : ℤ) :
    Except Panic (Terminal × Option (ℤ × List UInt8)) :=
  if t = s.ptty.masterTaskId then pttyRead s t .master size else .error .assertion

def pttySlaveRead (s : Terminal) (t : ℕ) (size : ℤ) :
    Except Panic (Terminal × Option (ℤ × List UInt8)) :=
  pttyRead s t .slave size

def pttyDevRead (s : Terminal) (t : ℕ) (size : ℤ) :
    Except Panic (Terminal × Option (ℤ × List UInt8)) :=
  if s.ptty.masterTaskId = t then pttyMasterRead s t size else pttySlaveRead s t size

/-- A read from behind its `yield_cpu` on. -/
def resumeRead (s : Terminal) (t : ℕ) (k : Reader) (size : ℤ) :
    Except Panic (Terminal × Option (ℤ × List UInt8)) :=
  if (s.task t).signalPending then .ok (s.leave t k, some (-errInterrupted, []))
  else pttyReadLoop s t k size

/-- The end of `keyboard_interrupt_handler`, for a key of the current terminal. -/
def keyboardEnqueue (s : Terminal) (ascii : UInt8) : Except Panic Terminal := do
  let ring := (s.ptty.ring.write [ascii]).1
  let task ← wakeUpQueue s.task s.ptty.wqHead
  .ok { s with ptty := { s.ptty with ring }, task }

inductive TerminalOp where
  | read (t : ℕ) (size : ℤ)
  | resume (t : ℕ)
  | key (ascii : UInt8)
  /-- `switch_to_pseudo_terminal` or `switch_to_default_console`. -/
  | switchTo
  | ioctl (request : PttyRequest)
  | signal (t : ℕ) (sig : Sig)
  /-- A task outside of the reads goes on, is created, or ends. -/
  | other (t : ℕ) (v : Task)

def TerminalOp.Allowed (s : Terminal) : TerminalOp → Prop
  | .read t _ => s.reading t = none ∧
      ((s.task t).state = .running ∨ (s.task t).state = .uninterruptible)
  | .resume t => (s.reading t).isSome ∧ (s.task t).state = .running
  | .signal t sig => (s.reading t).isSome ∧ sig ≠ 0
  | .other t _ => s.reading t = none
  | .key _ | .switchTo | .ioctl _ => True

instance TerminalOp.decidableAllowed (s : Terminal) :
    (op : TerminalOp) → Decidable (op.Allowed s)
  | .read _ _ => inferInstanceAs (Decidable (_ ∧ (_ ∨ _)))
  | .resume _ => inferInstanceAs (Decidable (_ ∧ _))
  | .signal _ _ => inferInstanceAs (Decidable (_ ∧ _))
  | .other _ _ => inferInstanceAs (Decidable (_ = _))
  | .key _ | .switchTo | .ioctl _ => inferInstanceAs (Decidable True)

def Terminal.step (s : Terminal) (op : TerminalOp) : Except Panic Terminal :=
  if op.Allowed s then
    match op with
    | .read t size => (pttyDevRead s t size).map Prod.fst
    | .resume t =>
      match s.reading t with
      | some (k, size) => (resumeRead s t k size).map Prod.fst
      | none => .ok s
    | .key ascii => keyboardEnqueue s ascii
    | .switchTo => .ok { s with ptty := { s.ptty with ring := s.ptty.ring.reset } }
    | .ioctl request => .ok { s with ptty := (pttyDevIoctl s.ptty request).1 }
    | .signal t sig => (signalTask (s.task t) sig).map fun v =>
        { s with task := update s.task t v }
    | .other t v => .ok { s with task := update s.task t v }
  else .ok s

def Terminal.start (task : ℕ → Task) : Terminal := ⟨pttyInit, task, fun _ => none⟩

end ZeldaOS
