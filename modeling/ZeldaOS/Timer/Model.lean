import ZeldaOS.Heap.Model

/-!
# Timers

`kernel/timer.c`: timers in the linked heap, with what it means that they fire when they are due.

* `TimersFire`: what is expected of the timers.
-/

namespace ZeldaOS

open Machine Function

/-! ## The calls -/

structure TimerState where
  heap : Heap
  timeToExpire : ℕ → ℕ
  scheduled : ℕ → Bool
  callback : ℕ → ℕ
  jiffies : ℕ
  calls : List ℕ

def timerCompare (timeToExpire : ℕ → ℕ) (x y : ℕ) : ℤ :=
  if timeToExpire x < timeToExpire y then -1 else if timeToExpire x > timeToExpire y then 1 else 0

def timerInit : TimerState where
  heap := ⟨⟨fun _ => 0, fun _ => 0, fun _ => 0⟩, 0, 0, 0⟩
  timeToExpire _ := 0
  scheduled _ := false
  callback _ := 0
  jiffies := 0
  calls := []

def registerTimer (s : TimerState) (t : ℕ) : Except Fault TimerState := do
  ensure (s.heap.nodes.left t = 0)
  ensure (s.heap.nodes.right t = 0)
  ensure (s.heap.nodes.parent t = 0)
  let heap ← attachHeapNode (timerCompare s.timeToExpire) s.heap t
  .ok { s with heap, scheduled := update s.scheduled t true }

def cancelTimer (s : TimerState) (t : ℕ) : Except Fault TimerState := do
  let heap ← deleteHeapNode (timerCompare s.timeToExpire) s.heap t
  ensure (heap.nodes.left t = 0)
  ensure (heap.nodes.right t = 0)
  ensure (heap.nodes.parent t = 0)
  .ok { s with heap, scheduled := update s.scheduled t false }

def scheduleTimer : (fuel : ℕ) → TimerState → Except Fault TimerState
  | 0, _ => .error .diverge
  | fuel + 1, s =>
    if s.heap.root = 0 then .ok s
    else do
      ensure (s.scheduled s.heap.root = true)
      if s.jiffies < s.timeToExpire s.heap.root then .ok s
      else
        let (heap, t) ← detachHeapNode (timerCompare s.timeToExpire) s.heap
        ensure (t ≠ 0)
        ensure (s.timeToExpire t ≤ s.jiffies)
        ensure (s.scheduled t = true)
        ensure (s.callback t ≠ 0)
        scheduleTimer fuel { s with heap, calls := s.calls ++ [t] }

inductive TimerOp where
  | register (t timeToExpire callback : ℕ)
  | cancel (t : ℕ)
  | tick (d : ℕ)
  | schedule
  deriving DecidableEq, Repr

def TimerOp.Allowed (s : TimerState) : TimerOp → Prop
  | .register t _ callback => t ≠ 0 ∧ s.heap.Detached t ∧ callback ≠ 0
  | .cancel t => t ≠ 0
  | .tick _ | .schedule => True

instance TimerOp.decidableAllowed (s : TimerState) : (op : TimerOp) → Decidable (op.Allowed s)
  | .register _ _ _ => inferInstanceAs (Decidable (_ ∧ _ ∧ _))
  | .cancel _ => inferInstanceAs (Decidable (_ ≠ _))
  | .tick _ | .schedule => inferInstanceAs (Decidable True)

def TimerState.step (s : TimerState) (op : TimerOp) : Except Fault TimerState :=
  if op.Allowed s then
    match op with
    | .register t timeToExpire callback =>
      registerTimer { s with
        timeToExpire := update s.timeToExpire t timeToExpire
        callback := update s.callback t callback } t
    | .cancel t => cancelTimer s t
    | .tick d => .ok { s with jiffies := s.jiffies + d }
    | .schedule => scheduleTimer s.heap.fuel s
  else .ok s

def TimerState.run (s : TimerState) : List TimerOp → Except Fault TimerState
  | [] => .ok s
  | op :: ops => do (← s.step op).run ops

/-! ## Due timers -/

inductive Heap.Holds (h : Heap) : ℕ → Prop
  | root : h.root ≠ 0 → Holds h h.root
  | left {x : ℕ} : Holds h x → h.nodes.left x ≠ 0 → Holds h (h.nodes.left x)
  | right {x : ℕ} : Holds h x → h.nodes.right x ≠ 0 → Holds h (h.nodes.right x)

/-- The times of the timers that are registered and neither cancelled nor fired. -/
abbrev Pending : Type := ℕ → Option ℕ

def Represents (s : TimerState) (p : Pending) : Prop :=
  ∀ t time, p t = some time ↔ s.heap.Holds t ∧ s.timeToExpire t = time

/-- The callbacks `fired` at the time `now`: of every pending timer that is due, once, in order. -/
structure ScheduleSpec (now : ℕ) (p : Pending) (fired : List ℕ) (p' : Pending) : Prop where
  nodup : fired.Nodup
  mem_iff : ∀ t, t ∈ fired ↔ ∃ time ∈ p t, time ≤ now
  sorted : fired.Pairwise fun t u => ∀ time ∈ p t, ∀ time' ∈ p u, time ≤ time'
  rest : ∀ t, p' t = if t ∈ fired then none else p t

def StepSpec (s : TimerState) (p : Pending) (op : TimerOp) (fired : List ℕ) (p' : Pending) : Prop :=
  if op.Allowed s then
    match op with
    | .register t timeToExpire _ =>
      p t = none ∧ fired = [] ∧ p' = update p t (some timeToExpire)
    | .cancel t => fired = [] ∧ p' = update p t none
    | .tick _ => fired = [] ∧ p' = p
    | .schedule => ScheduleSpec s.jiffies p fired p'
  else fired = [] ∧ p' = p

def NoneDue (s : TimerState) : Prop := ∀ t, s.heap.Holds t → s.jiffies < s.timeToExpire t

/-- Every step returns, does to the pending timers what it should, and leaves them in the heap; none is overdue. -/
def TimersFire (s : TimerState) (p : Pending) : List TimerOp → Prop
  | [] => True
  | op :: ops => ∃ s' fired p', s.step op = .ok s' ∧ s'.calls = s.calls ++ fired ∧
      StepSpec s p op fired p' ∧ Represents s' p' ∧ (op = .schedule → NoneDue s') ∧
      TimersFire s' p' ops

/-- The last node is not before the parent of the cancelled timer, or is that timer. -/
def TimerOp.Safe (s : TimerState) : TimerOp → Prop
  | .cancel t => ∀ last ∈ (searchLastNode s.heap.nodes s.heap.fuel s.heap.root).toOption,
      s.heap.nodes.parent t = 0 ∨ last = t ∨ s.timeToExpire (s.heap.nodes.parent t) ≤ s.timeToExpire last
  | _ => True

instance TimerOp.decidableSafe (s : TimerState) : (op : TimerOp) → Decidable (op.Safe s)
  | .cancel t => inferInstanceAs (Decidable (∀ last ∈ (searchLastNode _ _ _).toOption,
      _ = 0 ∨ last = t ∨ s.timeToExpire _ ≤ s.timeToExpire last))
  | .register _ _ _ | .tick _ | .schedule => inferInstanceAs (Decidable True)

def CancelsSafe (s : TimerState) : List TimerOp → Prop
  | [] => True
  | op :: ops => op.Safe s ∧ ∀ s' ∈ (s.step op).toOption, CancelsSafe s' ops

instance decidableCancelsSafe : (ops : List TimerOp) → (s : TimerState) → Decidable (CancelsSafe s ops)
  | [], _ => inferInstanceAs (Decidable True)
  | op :: ops, s =>
    have := decidableCancelsSafe ops
    inferInstanceAs (Decidable (op.Safe s ∧ ∀ s' ∈ (s.step op).toOption, CancelsSafe s' ops))

end ZeldaOS
