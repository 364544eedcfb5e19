import Mathlib.Data.Nat.Bitwise
import Mathlib.Tactic

/-!
# Bitmaps over bytes

A bitmap stored in bytes, eight bits to a byte and the least significant bit first, read and written
with masks.

* `test_set`: what a store does to each bit.
-/

namespace Machine

def Bitmap := ℕ → UInt8

def bitMask (i : ℕ) : UInt8 := UInt8.ofNat (2 ^ (i % 8))

namespace Bitmap

def test (b : Bitmap) (i : ℕ) : Bool := b (i / 8) &&& bitMask i != 0

def set (b : Bitmap) (i : ℕ) : Bitmap := fun j => if j = i / 8 then b j ||| bitMask i else b j

def clear (b : Bitmap) (i : ℕ) : Bitmap := fun j => if j = i / 8 then b j &&& ~~~bitMask i else b j

end Bitmap

theorem toNat_bitMask (i : ℕ) : (bitMask i).toNat = 2 ^ (i % 8) := by
  have h : 2 ^ (i % 8) < 2 ^ 8 := Nat.pow_lt_pow_right (by omega) (by omega)
  rw [bitMask, UInt8.toNat_ofNat', Nat.mod_eq_of_lt h]

theorem and_bitMask_ne_zero (x : UInt8) (i : ℕ) : (x &&& bitMask i != 0) = x.toNat.testBit (i % 8) := by
  have h : x &&& bitMask i = 0 ↔ x.toNat &&& 2 ^ (i % 8) = 0 := by
    rw [← UInt8.toNat_inj, UInt8.toNat_and, toNat_bitMask]
    rfl
  rw [Nat.and_two_pow] at h
  cases hx : x.toNat.testBit (i % 8) with
  | true => simpa [hx] using h
  | false => simpa [hx] using h

namespace Bitmap

theorem test_eq_testBit (b : Bitmap) (i : ℕ) : b.test i = (b (i / 8)).toNat.testBit (i % 8) :=
  and_bitMask_ne_zero _ i

theorem test_set (b : Bitmap) (i j : ℕ) : (b.set i).test j = if j = i then true else b.test j := by
  rw [test_eq_testBit, test_eq_testBit, set]
  by_cases hbyte : j / 8 = i / 8
  · rw [if_pos hbyte, UInt8.toNat_or, toNat_bitMask, Nat.testBit_or, Nat.testBit_two_pow]
    by_cases hbit : i % 8 = j % 8
    · rw [if_pos (by omega), decide_eq_true hbit, Bool.or_true]
    · rw [if_neg (by omega), decide_eq_false hbit, Bool.or_false]
  · rw [if_neg hbyte, if_neg (by rintro rfl; exact hbyte rfl)]

theorem toNat_not_bitMask (i : ℕ) : (~~~bitMask i).toNat = 2 ^ 8 - (2 ^ (i % 8) + 1) := by
  rw [UInt8.toNat_not, toNat_bitMask]
  show 2 ^ 8 - 1 - _ = _
  omega

theorem test_clear (b : Bitmap) (i j : ℕ) : (b.clear i).test j = if j = i then false else b.test j := by
  have hlt : 2 ^ (i % 8) < 2 ^ 8 := Nat.pow_lt_pow_right (by omega) (by omega)
  rw [test_eq_testBit, test_eq_testBit, clear]
  by_cases hbyte : j / 8 = i / 8
  · have hj : j % 8 < 8 := by omega
    rw [if_pos hbyte, UInt8.toNat_and, toNat_not_bitMask, Nat.testBit_and,
      Nat.testBit_two_pow_sub_succ hlt, Nat.testBit_two_pow, decide_eq_true hj, Bool.true_and]
    by_cases hbit : i % 8 = j % 8
    · rw [if_pos (by omega), decide_eq_true hbit, Bool.not_true, Bool.and_false]
    · rw [if_neg (by omega), decide_eq_false hbit, Bool.not_false, Bool.and_true]
  · rw [if_neg hbyte, if_neg (by rintro rfl; exact hbyte rfl)]

end Bitmap

end Machine
