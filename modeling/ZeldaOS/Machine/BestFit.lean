import Mathlib.Data.List.Basic
import Mathlib.Order.Nat

/-!
# The best fit in a table

A loop over a table that keeps the index of the best entry so far, and the first fit in a sorted list.

* `bestFit_eq_some`: the entry that is found fits best.
-/

namespace Machine

open List

def betterFit (idx degree : ℕ) : Option (ℕ × ℕ) → ℕ × ℕ
  | none => (idx, degree)
  | some (i, d) => if d < degree then (idx, degree) else (i, d)

def bestFit : (degrees : List (Option ℕ)) → (idx : ℕ) → (best : Option (ℕ × ℕ)) → Option (ℕ × ℕ)
  | [], _, best => best
  | none :: ds, idx, best => bestFit ds (idx + 1) best
  | some d :: ds, idx, best => bestFit ds (idx + 1) (some (betterFit idx d best))

variable {ds : List (Option ℕ)} {i d : ℕ}

section
variable {idx : ℕ} {best : Option (ℕ × ℕ)}

theorem betterFit_cases (idx d : ℕ) (best : Option (ℕ × ℕ)) :
    (betterFit idx d best = (idx, d) ∨ best = some (betterFit idx d best)) ∧ d ≤ (betterFit idx d best).2 ∧
      ∀ b, best = some b → b.2 ≤ (betterFit idx d best).2 := by
  cases best with
  | none => exact ⟨.inl rfl, le_rfl, fun b hb => by cases hb⟩
  | some b =>
    rw [betterFit]
    split_ifs with hlt
    · refine ⟨.inl rfl, le_rfl, fun b hb => ?_⟩
      cases hb
      exact hlt.le
    refine ⟨.inr rfl, not_lt.1 hlt, fun b hb => ?_⟩
    cases hb
    exact le_rfl

theorem bestFit_none (h : bestFit ds idx best = none) : best = none ∧ ∀ d, some d ∉ ds := by
  induction ds generalizing idx best with
  | nil => exact ⟨h, fun d => not_mem_nil⟩
  | cons o ds ih =>
    cases o with
    | none =>
      obtain ⟨hbest, hds⟩ := ih h
      refine ⟨hbest, fun d hd => ?_⟩
      rcases mem_cons.1 hd with hd | hd
      · cases hd
      · exact hds d hd
    | some e => cases (ih h).1

theorem bestFit_some (h : bestFit ds idx best = some (i, d)) :
    (best = some (i, d) ∨ ∃ j, i = idx + j ∧ ds[j]? = some (some d)) ∧ (∀ b, some b ∈ ds → b ≤ d) ∧
      ∀ b, best = some b → b.2 ≤ d := by
  induction ds generalizing idx best with
  | nil =>
    refine ⟨.inl h, fun b hb => absurd hb not_mem_nil, fun b hb => ?_⟩
    cases hb.symm.trans h
    exact le_rfl
  | cons o ds ih =>
    cases o with
    | none =>
      obtain ⟨hfrom, hds, hbest⟩ := ih h
      refine ⟨?_, fun b hb => ?_, hbest⟩
      · rcases hfrom with hfrom | ⟨j, hj, hd⟩
        · exact .inl hfrom
        · exact .inr ⟨j + 1, by omega, hd⟩
      rcases mem_cons.1 hb with hb | hb
      · cases hb
      · exact hds b hb
    | some e =>
      obtain ⟨hfrom, hds, hbest⟩ := ih h
      obtain ⟨hwhich, hle, hold⟩ := betterFit_cases idx e best
      have hnow := hbest _ rfl
      refine ⟨?_, fun b hb => ?_, fun b hb => (hold b hb).trans hnow⟩
      · rcases hfrom with hfrom | ⟨j, hj, hd⟩
        · rcases hwhich with hnew | hsame
          · cases hnew.symm.trans (Option.some.inj hfrom)
            exact .inr ⟨0, rfl, rfl⟩
          · exact .inl (hsame.trans hfrom)
        · exact .inr ⟨j + 1, by omega, hd⟩
      · rcases mem_cons.1 hb with hb | hb
        · cases hb
          exact hle.trans hnow
        · exact hds b hb

end

theorem bestFit_eq_none (h : bestFit ds 0 none = none) : ∀ d, some d ∉ ds :=
  (bestFit_none h).2

/-- **The entry that is found fits best.** -/
theorem bestFit_eq_some (h : bestFit ds 0 none = some (i, d)) : ds[i]? = some (some d) ∧ ∀ b, some b ∈ ds → b ≤ d := by
  obtain ⟨hfrom, hds, -⟩ := bestFit_some h
  rcases hfrom with hnone | ⟨j, hj, hd⟩
  · cases hnone
  rw [Nat.zero_add] at hj
  exact ⟨hj ▸ hd, hds⟩

theorem le_of_find?_sorted {α : Type*} {f : α → ℕ} {p : α → Bool} {l : List α} {x y : α}
    (hsorted : l.Pairwise fun x y => f x ≤ f y) (hfind : l.find? p = some x) (hy : y ∈ l) (hp : p y = true) :
    f x ≤ f y := by
  obtain ⟨-, as, bs, rfl, hnot⟩ := find?_eq_some_iff_append.1 hfind
  rw [pairwise_append, pairwise_cons] at hsorted
  rcases mem_append.1 hy with hbefore | hrest
  · have hpy := hnot y hbefore
    rw [hp] at hpy
    cases hpy
  rcases mem_cons.1 hrest with rfl | hafter
  · exact le_rfl
  · exact hsorted.2.1.1 y hafter

end Machine
