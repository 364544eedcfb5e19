import Mathlib.Tactic

/-!
# Windows between wrapping counters

Two 16-bit counters follow each other over an array of `n` cells, where `n` divides `2 ^ 16`.

* `cellsBetween_push` and `cellsBetween_pop`: a counter moves on.
-/

namespace Machine

open List Function

variable {α : Type} {n : ℕ}

def cellsBetween (ring : ℕ → α) (n : ℕ) (first last : UInt16) : List α :=
  (List.range (last - first).toNat).map fun i => ring ((first.toNat + i) % n)

theorem length_cellsBetween (ring : ℕ → α) (n : ℕ) (first last : UInt16) :
    (cellsBetween ring n first last).length = (last - first).toNat := by
  rw [cellsBetween, length_map, length_range]

theorem cellsBetween_self (ring : ℕ → α) (n : ℕ) (c : UInt16) : cellsBetween ring n c c = [] := by
  rw [cellsBetween, UInt16.sub_self]
  rfl

theorem toNat_add_mod (hn : n ∣ 2 ^ 16) (c : UInt16) (i : ℕ) : (c + .ofNat i).toNat % n = (c.toNat + i) % n := by
  rw [UInt16.toNat_add, Nat.mod_mod_of_dvd _ hn, UInt16.toNat_ofNat', Nat.add_mod,
    Nat.mod_mod_of_dvd _ hn, ← Nat.add_mod]

theorem toNat_sub_add_one {first last : UInt16} (h : (last - first).toNat + 1 < 2 ^ 16) :
    (last + 1 - first).toNat = (last - first).toNat + 1 := by
  rw [UInt16.toNat_sub] at h
  rw [UInt16.toNat_sub, UInt16.toNat_sub, UInt16.toNat_add]
  have h1 : (1 : UInt16).toNat = 1 := rfl
  omega

theorem add_length_cellsBetween (first last : UInt16) : first + .ofNat (last - first).toNat = last := by
  rw [UInt16.ofNat_toNat, UInt16.add_comm, UInt16.sub_add_cancel]

theorem cellsBetween_push (hn : n ∣ 2 ^ 16) (hlt : n < 2 ^ 16) (ring : ℕ → α) {first last : UInt16}
    (hroom : (last - first).toNat < n) (x : α) :
    cellsBetween (update ring (last.toNat % n) x) n first (last + 1) = cellsBetween ring n first last ++ [x] := by
  have hlast : last.toNat % n = (first.toNat + (last - first).toNat) % n := by
    conv_lhs => rw [← add_length_cellsBetween first last]
    exact toNat_add_mod hn first _
  rw [cellsBetween, cellsBetween, toNat_sub_add_one (by omega), range_succ, map_append, map_singleton,
    hlast, update_self]
  congr 1
  refine map_congr_left fun i hi => update_of_ne (fun hc => ?_) _ _
  have hi' : i < (last - first).toNat := mem_range.1 hi
  have hmod : i ≡ (last - first).toNat [MOD n] := Nat.ModEq.add_left_cancel' _ hc
  have := Nat.ModEq.eq_of_lt_of_lt hmod (by omega) hroom
  omega

theorem cellsBetween_pop (hn : n ∣ 2 ^ 16) (ring : ℕ → α) {first last : UInt16} (hne : first ≠ last) :
    cellsBetween ring n first last = ring (first.toNat % n) :: cellsBetween ring n (first + 1) last := by
  have hlen : (last - first).toNat = (last - (first + 1)).toNat + 1 := by
    have hne' : first.toNat ≠ last.toNat := fun hc => hne (UInt16.toNat_inj.1 hc)
    rw [UInt16.toNat_sub, UInt16.toNat_sub, UInt16.toNat_add]
    have hf := first.toNat_lt
    have hl := last.toNat_lt
    have h1 : (1 : UInt16).toNat = 1 := rfl
    omega
  rw [cellsBetween, cellsBetween, hlen, range_succ_eq_map, map_cons, map_map, Nat.add_zero]
  congr 1
  refine map_congr_left fun i _ => ?_
  have hnext := toNat_add_mod hn first 1
  change ring ((first.toNat + (i + 1)) % n) = ring (((first + 1).toNat + i) % n)
  have h1 : first + .ofNat 1 = first + 1 := rfl
  rw [h1] at hnext
  congr 1
  rw [Nat.add_mod (first + 1).toNat, hnext, ← Nat.add_mod, Nat.add_assoc, Nat.add_comm 1 i]

end Machine
