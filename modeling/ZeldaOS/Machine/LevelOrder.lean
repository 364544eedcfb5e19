import Mathlib.Tactic

/-!
# Level order

A complete binary tree as a sequence, and the heap order under exchanges of a position with its parent `up i`.

* `OrderedUp.exchange` and `OrderedDown.exchange`: a step of sifting.
* `HeapOrdered.first_le`: the first entry is the least.
-/

namespace Machine

open Function

/-! ## Positions -/

def up (i : ℕ) : ℕ := (i - 1) / 2

theorem up_lt {i : ℕ} (h : 0 < i) : up i < i := by
  unfold up
  omega

theorem up_eq_iff {i p : ℕ} (h : 0 < i) : up i = p ↔ i = 2 * p + 1 ∨ i = 2 * p + 2 := by
  unfold up
  omega

section
variable {α : Type}

def exchange (a : ℕ → α) (i j : ℕ) : ℕ → α := a ∘ Equiv.swap i j

theorem exchange_apply (a : ℕ → α) (i j k : ℕ) :
    exchange a i j k = if k = i then a j else if k = j then a i else a k := by
  rw [exchange, Function.comp_apply, Equiv.swap_apply_def]
  split_ifs <;> rfl

theorem range_exchange (a : ℕ → α) (i j : ℕ) : Set.range (exchange a i j) = Set.range a :=
  (Equiv.swap i j).surjective.range_comp a

def moveLast (a : ℕ → α) (i n : ℕ) (z : α) : ℕ → α := update (update a i (a n)) n z

theorem moveLast_apply (a : ℕ → α) (i n : ℕ) (z : α) (k : ℕ) :
    moveLast a i n z k = if k = n then z else if k = i then a n else a k := by
  simp only [moveLast, update_apply]

/-! ## The heap order -/

def HeapOrdered (le : α → α → Prop) (a : ℕ → α) (n : ℕ) : Prop :=
  ∀ i, 0 < i → i < n → le (a (up i)) (a i)

/-- In order, except that the entry at `c` may be before its parent. -/
structure OrderedUp (le : α → α → Prop) (a : ℕ → α) (n c : ℕ) : Prop where
  off : ∀ i, 0 < i → i < n → i ≠ c → le (a (up i)) (a i)
  grand : 0 < c → ∀ i, 0 < i → i < n → up i = c → le (a (up c)) (a i)

/-- In order, except that the entry at `p` may be behind its children. -/
structure OrderedDown (le : α → α → Prop) (a : ℕ → α) (n p : ℕ) : Prop where
  off : ∀ i, 0 < i → i < n → up i ≠ p → le (a (up i)) (a i)
  grand : 0 < p → ∀ i, 0 < i → i < n → up i = p → le (a (up p)) (a i)

variable {le : α → α → Prop} {a : ℕ → α} {n : ℕ}

theorem OrderedUp.heapOrdered {c : ℕ} (h : OrderedUp le a n c)
    (hc : 0 < c → c < n → le (a (up c)) (a c)) : HeapOrdered le a n := by
  intro i hi hn
  by_cases hic : i = c
  · subst hic
    exact hc hi hn
  · exact h.off i hi hn hic

theorem OrderedDown.heapOrdered {p : ℕ} (h : OrderedDown le a n p)
    (hp : ∀ i, 0 < i → i < n → up i = p → le (a p) (a i)) : HeapOrdered le a n := by
  intro i hi hn
  by_cases hip : up i = p
  · rw [hip]
    exact hp i hi hn hip
  · exact h.off i hi hn hip

theorem OrderedDown.exchange {p c : ℕ} (h : OrderedDown le a n p) (hc : 0 < c) (hn : c < n)
    (hcp : up c = p) (hle : le (a c) (a p)) (hmin : ∀ i, 0 < i → i < n → up i = p → le (a c) (a i)) :
    OrderedDown le (exchange a p c) n c := by
  have hpc : p < c := hcp ▸ up_lt hc
  refine ⟨fun i hi hin hne => ?_, fun _ i hi hin hui => ?_⟩
  · have hui := up_lt hi
    simp only [exchange_apply]
    by_cases hip : i = p
    · subst hip
      have h1 : up i ≠ c := hne
      simpa [hui.ne, h1] using h.grand hi c hc hn hcp
    by_cases h1 : up i = p
    · by_cases hic : i = c
      · simpa [hic, hcp, hpc.ne'] using hle
      · simpa [h1, hip, hic] using hmin i hi hin h1
    · have hic : i ≠ c := fun he => h1 (he ▸ hcp)
      simpa [h1, hne, hip, hic] using h.off i hi hin h1
  · have hci := up_lt hi
    rw [hui] at hci
    have hup : up i ≠ p := hui ▸ hpc.ne'
    have hi1 : i ≠ p := (hpc.trans hci).ne'
    simpa [exchange_apply, hcp, hi1, hci.ne', hui] using h.off i hi hin hup

section
variable (htrans : ∀ x y z, le x y → le y z → le x z)
include htrans

theorem OrderedUp.exchange {c : ℕ} (h : OrderedUp le a n c) (hc : 0 < c) (hn : c < n)
    (hle : le (a c) (a (up c))) : OrderedUp le (exchange a (up c) c) n (up c) := by
  have hup := up_lt hc
  refine ⟨fun i hi hin hne => ?_, fun hp i hi hin hui => ?_⟩
  · have hui := up_lt hi
    simp only [exchange_apply]
    by_cases hic : i = c
    · subst hic
      simpa [hup.ne'] using hle
    by_cases h1 : up i = up c
    · simp only [h1, hne, hic, if_true, if_false]
      exact htrans _ _ _ hle (h1 ▸ h.off i hi hin hic)
    by_cases h2 : up i = c
    · simp only [h2, hne, hic, if_false, if_true, hup.ne']
      exact h.grand hc i hi hin h2
    simp only [h1, h2, hne, hic, if_false]
    exact h.off i hi hin hic
  · have hpp := up_lt hp
    have hpar := h.off (up c) hp (hup.trans hn) hup.ne
    simp only [exchange_apply, hpp.ne, (hpp.trans hup).ne, if_false]
    by_cases hic : i = c
    · subst hic
      simpa [hup.ne'] using hpar
    have hne : i ≠ up c := fun he => absurd (up_lt hi) (by rw [hui, he]; exact lt_irrefl _)
    simp only [hne, hic, if_false]
    exact htrans _ _ _ hpar (hui ▸ h.off i hi hin hic)

theorem orderedDown_moveLast (h : HeapOrdered le a (n + 1)) {i : ℕ} (hi : i < n)
    (hle : 0 < i → le (a (up i)) (a n)) (z : α) : OrderedDown le (moveLast a i n z) n i := by
  refine ⟨fun j hj hjn hne => ?_, fun hi0 j hj hjn huj => ?_⟩
  · have huj := up_lt hj
    simp only [moveLast_apply, hjn.ne, (huj.trans hjn).ne, hne, if_false]
    by_cases hji : j = i
    · simpa [hji] using hle (hji ▸ hj)
    · simpa [hji] using h j hj (by omega)
  · have hui := up_lt hi0
    have hij := huj ▸ up_lt hj
    simp only [moveLast_apply, hjn.ne, (hui.trans hi).ne, hui.ne, hij.ne', if_false]
    exact htrans _ _ _ (h i hi0 (by omega)) (huj ▸ h j hj (by omega))

theorem HeapOrdered.first_le (h : HeapOrdered le a n) (hrefl : ∀ x, le x x) {i : ℕ} (hi : i < n) : le (a 0) (a i) := by
  induction i using Nat.strong_induction_on with
  | _ i ih =>
    rcases Nat.eq_zero_or_pos i with rfl | h0
    · exact hrefl _
    have hup := up_lt h0
    exact htrans _ _ _ (ih (up i) hup (hup.trans hi)) (h i h0 hi)

end

theorem orderedUp_append (h : HeapOrdered le a n) (x : α) : OrderedUp le (update a n x) (n + 1) n := by
  refine ⟨fun i hi hin hne => ?_, fun _ i hi hin hui => ?_⟩
  · have hup := up_lt hi
    rw [update_of_ne hne, update_of_ne (by omega)]
    exact h i hi (by omega)
  · have hup := up_lt hi
    omega

end

end Machine
