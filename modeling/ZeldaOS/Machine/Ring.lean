import Mathlib.Tactic

/-!
# Ring buffers

A queue in an array that keeps one cell free, over elements of any type.

* `Holds.write_all`: what fits is written.
* `Holds.read`: reads take the first bytes.
-/

namespace Machine

open List Function

/-! ## The ring -/

/-- The array with the positions of the first element and behind the last one. -/
structure RingBuffer (α : Type) where
  size : ℕ
  front : ℕ
  rear : ℕ
  buffer : ℕ → α

variable {α : Type}

namespace RingBuffer

def isEmpty (r : RingBuffer α) : Bool := r.front == r.rear

def isFull (r : RingBuffer α) : Bool := (r.rear + 1) % r.size == r.front

def length (r : RingBuffer α) : ℕ := (r.rear + r.size - r.front) % r.size

def toList (r : RingBuffer α) : List α :=
  (List.range r.length).map fun i => r.buffer ((r.front + i) % r.size)

def reset (r : RingBuffer α) : RingBuffer α := { r with front := 0, rear := 0 }

def push (r : RingBuffer α) (x : α) : RingBuffer α :=
  { r with buffer := update r.buffer r.rear x, rear := (r.rear + 1) % r.size }

def pop (r : RingBuffer α) : RingBuffer α := { r with front := (r.front + 1) % r.size }

/-- Write elements until the ring is full: the ring, and how many were written. -/
def write (r : RingBuffer α) : List α → RingBuffer α × ℕ
  | [] => (r, 0)
  | x :: xs =>
    if r.isFull then (r, 0)
    else
      let (r', n) := (r.push x).write xs
      (r', n + 1)

def read (r : RingBuffer α) : ℕ → RingBuffer α × List α
  | 0 => (r, [])
  | left + 1 =>
    if r.isEmpty then (r, [])
    else
      let (r', xs) := r.pop.read left
      (r', r.buffer r.front :: xs)

/-! ## The queue -/

structure Holds (r : RingBuffer α) (xs : List α) : Prop where
  front_lt : r.front < r.size
  length_lt : xs.length < r.size
  rear : r.rear = (r.front + xs.length) % r.size
  cell : ∀ i x, xs[i]? = some x → r.buffer ((r.front + i) % r.size) = x

theorem add_mod_of_lt {a b n : ℕ} (ha : a < n) (hb : b ≤ n) : (a + b) % n = if a + b < n then a + b else a + b - n := by
  split_ifs with h
  · exact Nat.mod_eq_of_lt h
  · rw [Nat.mod_eq_sub_mod (by omega), Nat.mod_eq_of_lt (by omega)]

variable {r : RingBuffer α} {xs : List α}

theorem Holds.nil (hf : r.front < r.size) (hr : r.rear = r.front) : r.Holds [] :=
  ⟨hf, by simpa using Nat.lt_of_le_of_lt (Nat.zero_le _) hf,
    by rw [hr, length_nil, Nat.add_zero, Nat.mod_eq_of_lt hf], fun i x h => by simp at h⟩

theorem holds_reset (h : 0 < r.size) : r.reset.Holds [] := .nil h rfl

theorem Holds.isEmpty_iff (h : r.Holds xs) : r.isEmpty = true ↔ xs = [] := by
  have hf := h.front_lt
  have hl := h.length_lt
  rw [isEmpty, beq_iff_eq, h.rear, add_mod_of_lt hf hl.le, ← length_eq_zero_iff]
  split_ifs <;> omega

theorem Holds.isFull_iff (h : r.Holds xs) : r.isFull = true ↔ xs.length + 1 = r.size := by
  have hf := h.front_lt
  have hl := h.length_lt
  rw [isFull, beq_iff_eq, h.rear, Nat.mod_add_mod, Nat.add_assoc, add_mod_of_lt hf hl]
  split_ifs <;> omega

theorem Holds.length_eq (h : r.Holds xs) : r.length = xs.length := by
  have hf := h.front_lt
  have hl := h.length_lt
  rw [length, h.rear, add_mod_of_lt hf hl.le]
  split_ifs
  · rw [show r.front + xs.length + r.size - r.front = xs.length + r.size by omega, Nat.add_mod_right,
      Nat.mod_eq_of_lt hl]
  · rw [show r.front + xs.length - r.size + r.size - r.front = xs.length by omega, Nat.mod_eq_of_lt hl]

theorem Holds.toList_eq (h : r.Holds xs) : r.toList = xs := by
  refine ext_getElem? fun i => ?_
  rw [toList, h.length_eq, getElem?_map]
  by_cases hi : i < xs.length
  · have hx : xs[i]? = some xs[i] := getElem?_eq_getElem hi
    rw [getElem?_range hi, hx]
    exact congrArg some (h.cell i _ hx)
  · rw [getElem?_eq_none (by simpa using hi), getElem?_eq_none (by simpa using hi)]
    rfl

theorem Holds.cell_ne (h : r.Holds xs) {i : ℕ} (hi : i < xs.length) : (r.front + i) % r.size ≠ r.rear := by
  have hf := h.front_lt
  have hl := h.length_lt
  rw [h.rear, add_mod_of_lt hf (by omega), add_mod_of_lt hf hl.le]
  split_ifs <;> omega

theorem Holds.push (h : r.Holds xs) (hroom : xs.length + 1 < r.size) (x : α) : (r.push x).Holds (xs ++ [x]) := by
  refine ⟨h.front_lt, by rw [length_append]; exact hroom, ?_, fun i y hy => ?_⟩
  · change (r.rear + 1) % r.size = (r.front + (xs ++ [x]).length) % r.size
    rw [h.rear, Nat.mod_add_mod, length_append, length_singleton, Nat.add_assoc]
  change update r.buffer r.rear x ((r.front + i) % r.size) = y
  rw [getElem?_append] at hy
  split_ifs at hy with hi
  · rw [update_of_ne (h.cell_ne hi)]
    exact h.cell i y hy
  obtain ⟨hi', rfl⟩ : i - xs.length = 0 ∧ x = y := by
    rw [getElem?_singleton] at hy
    split_ifs at hy with h0
    exact ⟨h0, Option.some.inj hy⟩
  have : i = xs.length := by omega
  rw [this, ← h.rear, update_self]

theorem Holds.pop {x : α} (h : r.Holds (x :: xs)) : r.buffer r.front = x ∧ r.pop.Holds xs := by
  have hf := h.front_lt
  have hl := h.length_lt
  refine ⟨?_, Nat.mod_lt _ (by omega), Nat.lt_of_succ_lt hl, ?_, fun i y hy => ?_⟩
  · have := h.cell 0 x rfl
    rwa [Nat.add_zero, Nat.mod_eq_of_lt hf] at this
  · change r.rear = ((r.front + 1) % r.size + xs.length) % r.size
    rw [h.rear, Nat.mod_add_mod, length_cons, Nat.add_assoc, Nat.add_comm 1]
  change r.buffer (((r.front + 1) % r.size + i) % r.size) = y
  rw [Nat.mod_add_mod, Nat.add_assoc, Nat.add_comm 1]
  exact h.cell (i + 1) y hy

theorem write_size (r : RingBuffer α) (ys : List α) : (r.write ys).1.size = r.size := by
  induction ys generalizing r with
  | nil => rfl
  | cons y ys ih =>
    rw [write]
    split_ifs
    · rfl
    · exact ih (r.push y)

theorem read_size (r : RingBuffer α) (n : ℕ) : (r.read n).1.size = r.size := by
  induction n generalizing r with
  | zero => rfl
  | succ n ih =>
    rw [read]
    split_ifs
    · rfl
    · exact ih r.pop

theorem Holds.write (h : r.Holds xs) (ys : List α) : (r.write ys).1.Holds (xs ++ ys.take (r.size - 1 - xs.length)) ∧
      (r.write ys).2 = min ys.length (r.size - 1 - xs.length) := by
  induction ys generalizing r xs with
  | nil => simpa [RingBuffer.write] using h
  | cons y ys ih =>
    have hl := h.length_lt
    rw [RingBuffer.write]
    split_ifs with hfull
    · have hroom : r.size - 1 - xs.length = 0 := by
        have := h.isFull_iff.1 hfull
        omega
      rw [hroom]
      simpa using h
    have hroom : xs.length + 1 < r.size := by
      have := mt h.isFull_iff.2 hfull
      omega
    obtain ⟨hh, hn⟩ := ih (h.push hroom y)
    have hsplit : r.size - 1 - xs.length = r.size - 1 - (xs.length + 1) + 1 := by omega
    rw [show (r.push y).size = r.size from rfl, length_append, length_singleton] at hh hn
    rw [hsplit]
    refine ⟨by simpa using hh, ?_⟩
    dsimp only
    rw [hn, length_cons]
    omega

theorem Holds.write_all (h : r.Holds xs) (ys : List α) (hroom : xs.length + ys.length < r.size) :
    (r.write ys).1.Holds (xs ++ ys) ∧ (r.write ys).2 = ys.length := by
  obtain ⟨hh, hn⟩ := h.write ys
  rw [take_of_length_le (by omega)] at hh
  exact ⟨hh, by omega⟩

theorem Holds.read (h : r.Holds xs) (n : ℕ) : (r.read n).2 = xs.take n ∧ (r.read n).1.Holds (xs.drop n) := by
  induction n generalizing r xs with
  | zero => simpa [RingBuffer.read] using h
  | succ n ih =>
    rw [RingBuffer.read]
    cases xs with
    | nil =>
      rw [if_pos (h.isEmpty_iff.2 rfl)]
      simpa using h
    | cons x xs =>
      have hne : ¬r.isEmpty = true := fun he => by simpa using h.isEmpty_iff.1 he
      obtain ⟨hx, hpop⟩ := h.pop
      obtain ⟨htake, hdrop⟩ := ih hpop
      rw [if_neg hne]
      exact ⟨by simp [hx, htake], hdrop⟩

end RingBuffer

end Machine
