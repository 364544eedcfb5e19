import Mathlib.Data.Nat.Digits.Lemmas
import ZeldaOS.Vfs.Path

/-!
# Formatted text

`sprintf` and `printk` of `kernel/printk.c` and the two functions they write numbers with.

* `formats_faithfully_iff`: the number formats are faithful for all values but one.
-/

namespace ZeldaOS

open List

def defaultStackSize : ℕ := 64

/-! ## The functions -/

def decimalDigits : (room : ℕ) → (val : Int32) → (stack : List UInt8) → List UInt8
  | 0, _, stack => stack
  | n + 1, val, stack =>
    if val = 0 then stack else decimalDigits n (val / 10) ((val % 10 + 48).toUInt32.toUInt8 :: stack)

def resolveDecimal (val : Int32) : List UInt8 :=
  let sign := if val < 0 then ['-'.toUInt8] else []
  let val := if val < 0 then -val else val
  sign ++ if val = 0 then ['0'.toUInt8] else decimalDigits defaultStackSize val []

def hexDigit (lowcase : Bool) (d : UInt32) : UInt8 :=
  if d < 10 then d.toUInt8 + 48 else if lowcase then d.toUInt8 + 87 else d.toUInt8 + 55

def hexDigits (lowcase : Bool) : (room : ℕ) → (val : UInt32) → (stack : List UInt8) → List UInt8
  | 0, _, stack => stack
  | n + 1, val, stack =>
    if val = 0 then stack else hexDigits lowcase n (val >>> 4) (hexDigit lowcase (val &&& 0xf) :: stack)

def resolveHexdecimal (val : Int32) (lowcase : Bool) : List UInt8 :=
  if val = 0 then ['0'.toUInt8] else hexDigits lowcase defaultStackSize val.toUInt32 []

inductive VaArg where
  | str (s : CString)
  | int (v : Int32)

/-- What the directive writes, and the arguments left; `none` for one that is not there. -/
def directive (d : UInt8) (args : List VaArg) : Option (List UInt8 × List VaArg) :=
  if d = 's'.toUInt8 then
    match args with
    | .str s :: args => some (s.bytes, args)
    | _ => none
  else if d ∈ ['c', 'd', 'h', 'x', 'X'].map Char.toUInt8 then
    match args with
    | .int v :: args =>
      some (if d = 'c'.toUInt8 then [v.toUInt32.toUInt8]
        else if d = 'x'.toUInt8 then resolveHexdecimal v true
        else if d = 'X'.toUInt8 then resolveHexdecimal v false
        else resolveDecimal v, args)
    | _ => none
  else if d = 'l'.toUInt8 then
    match args with
    | .int v :: .int v' :: args => some (resolveHexdecimal v false ++ resolveHexdecimal v' false, args)
    | _ => none
  else some ([], args)

/-- `sprintf`: the bytes stored. A format that ends in `%` is read past its NUL, which is `none`. -/
def sprintf : (format : List UInt8) → List VaArg → Option (List UInt8)
  | [], _ => some [0]
  | [c], _ => if c = '%'.toUInt8 then none else some [c, 0]
  | c :: d :: format, args =>
    if c = '%'.toUInt8 then do
      let (out, args) ← directive d args
      let rest ← sprintf format args
      some (out ++ rest)
    else (sprintf (d :: format) args).map (c :: ·)

/-- `printk`: the bytes given to `vga_enqueue_byte`, in order. -/
def printk : (format : List UInt8) → List VaArg → Option (List UInt8)
  | [], _ => some []
  | [c], _ => if c = '%'.toUInt8 then none else some [c]
  | c :: d :: format, args =>
    if c = '%'.toUInt8 then do
      let (out, args) ← directive d args
      let rest ← printk format args
      some (out ++ rest)
    else (printk (d :: format) args).map (c :: ·)

theorem sprintf_path (a b : CString) :
    sprintf ("%s/%s".toList.map Char.toUInt8) [.str a, .str b] = some (a.bytes ++ slash :: (b.bytes ++ [0])) := by
  rfl

example : sprintf ("%d %x".toList.map Char.toUInt8) [.int (-20), .int (-1)] =
    some ("-20 ffffffff".toList.map Char.toUInt8 ++ [0]) := by decide +kernel

/-! ## Numerals -/

def digitTable (lowcase : Bool) : List UInt8 :=
  (if lowcase then "0123456789abcdef" else "0123456789ABCDEF").toList.map Char.toUInt8

/-- The canonical numeral of a number. -/
def numeral (base : ℕ) (lowcase : Bool) (n : ℕ) : List UInt8 :=
  if n = 0 then ['0'.toUInt8] else (Nat.digits base n).reverse.map fun d => (digitTable lowcase).getD d 0

def decimalNumeral (v : ℤ) : List UInt8 := (if v < 0 then ['-'.toUInt8] else []) ++ numeral 10 true v.natAbs

def parseNumeral (base : ℕ) (lowcase : Bool) (bs : List UInt8) : ℕ :=
  Nat.ofDigits base (bs.reverse.map fun b => (digitTable lowcase).idxOf b)

def parseDecimal (bs : List UInt8) : ℤ :=
  if bs.head? = some '-'.toUInt8 then -parseNumeral 10 true bs.tail else parseNumeral 10 true bs

/-- Both functions write this text, and it fits in the stack of digits. -/
def Writes (d : Char) (v : Int32) (out : List UInt8) : Prop :=
  printk ['%'.toUInt8, d.toUInt8] [.int v] = some out ∧
    sprintf ['%'.toUInt8, d.toUInt8] [.int v] = some (out ++ [0]) ∧ out.length ≤ defaultStackSize

structure FormatsFaithfully (v : Int32) : Prop where
  decimal : Writes 'd' v (decimalNumeral v.toInt) ∧ parseDecimal (decimalNumeral v.toInt) = v.toInt
  hexadecimal : ∀ lowcase, Writes (if lowcase then 'x' else 'X') v (numeral 16 lowcase v.toUInt32.toNat) ∧
    parseNumeral 16 lowcase (numeral 16 lowcase v.toUInt32.toNat) = v.toUInt32.toNat

variable {base n : ℕ}

theorem parseNumeral_numeral (hbase : 1 < base) (hsmall : base ≤ 16) (lowcase : Bool) (n : ℕ) :
    parseNumeral base lowcase (numeral base lowcase n) = n := by
  have hdigit : ∀ low : Bool, ∀ d < 16, (digitTable low).idxOf ((digitTable low).getD d 0) = d := by decide +kernel
  rw [parseNumeral, numeral]
  split_ifs with hn
  · subst hn
    cases lowcase <;> rfl
  rw [← map_reverse, reverse_reverse, map_map, map_congr_left (g := id), map_id, Nat.ofDigits_digits]
  exact fun d hd => hdigit lowcase d ((Nat.digits_lt_base hbase hd).trans_le hsmall)

theorem length_numeral_le (hbase : 1 < base) (lowcase : Bool) {k : ℕ} (hk : 0 < k) (hn : n < base ^ k) :
    (numeral base lowcase n).length ≤ k := by
  rw [numeral]
  split_ifs with h0
  · exact hk
  rw [length_map, length_reverse]
  exact (Nat.digits_length_le_iff hbase n).2 hn

theorem ofNat_eq_zero_iff (hn : n < 2 ^ 31) : Int32.ofNat n = 0 ↔ n = 0 := by
  refine ⟨fun h => ?_, fun h => h ▸ rfl⟩
  have hzero : (n : ℤ) = 0 := (Int32.toInt_ofNat_of_lt hn).symm.trans (congrArg Int32.toInt h)
  omega

theorem decimalDigits_eq (room : ℕ) (stack : List UInt8) (hn : n < 2 ^ 31) (hroom : n < 10 ^ room) :
    decimalDigits room (.ofNat n) stack =
      (Nat.digits 10 n).reverse.map (fun d => (digitTable true).getD d 0) ++ stack := by
  induction room generalizing n stack with
  | zero =>
    obtain rfl : n = 0 := by omega
    rfl
  | succ room ih =>
    rw [decimalDigits, if_congr (ofNat_eq_zero_iff hn) rfl rfl]
    split_ifs with hval
    · subst hval
      rfl
    have hpos := Nat.pos_of_ne_zero hval
    have hdigit : ∀ d < 10, (Int32.ofNat d + 48).toUInt32.toUInt8 = (digitTable true).getD d 0 := by decide +kernel
    change decimalDigits room (.ofNat n / .ofNat 10) ((.ofNat n % .ofNat 10 + 48 : Int32).toUInt32.toUInt8 :: stack) = _
    rw [← Int32.ofNat_div hn (by decide), ← Int32.ofNat_mod hn (by decide), hdigit _ (Nat.mod_lt _ (by decide)),
      ih _ (by omega) (by omega), Nat.digits_def' (by decide) hpos]
    simp

theorem hexDigits_eq (lowcase : Bool) (room : ℕ) (val : UInt32) (stack : List UInt8) (hroom : val.toNat < 16 ^ room) :
    hexDigits lowcase room val stack =
      (Nat.digits 16 val.toNat).reverse.map (fun d => (digitTable lowcase).getD d 0) ++ stack := by
  induction room generalizing val stack with
  | zero =>
    obtain rfl : val = 0 := UInt32.toNat_inj.1 (by simpa using hroom)
    rfl
  | succ room ih =>
    rw [hexDigits]
    split_ifs with hval
    · subst hval
      rfl
    have hpos : 0 < val.toNat := Nat.pos_of_ne_zero fun h0 => hval (UInt32.toNat_inj.1 h0)
    have hdigit : ∀ low : Bool, ∀ d < 16, hexDigit low (UInt32.ofNat d) = (digitTable low).getD d 0 := by
      decide +kernel
    have hshift : (val >>> 4).toNat = val.toNat / 16 := by
      rw [UInt32.toNat_shiftRight]
      exact Nat.shiftRight_eq_div_pow _ 4
    have hmask : val &&& 0xf = UInt32.ofNat (val.toNat % 16) := by
      refine UInt32.toNat_inj.1 ?_
      rw [UInt32.toNat_and, UInt32.toNat_ofNat_of_lt' (by unfold UInt32.size; omega)]
      exact Nat.and_two_pow_sub_one_eq_mod _ 4
    rw [hmask, hdigit _ _ (Nat.mod_lt _ (by decide)), ih _ _ (by omega), hshift, Nat.digits_def' (by decide) hpos]
    simp

theorem writes_of_directive {d : Char} {v : Int32} {out : List UInt8}
    (h : directive d.toUInt8 [.int v] = some (out, [])) (hlen : out.length ≤ defaultStackSize) : Writes d v out := by
  refine ⟨?_, ?_, hlen⟩
  · rw [printk, if_pos rfl, h]
    simp [printk]
  rw [sprintf, if_pos rfl, h]
  rfl

theorem resolveHexdecimal_eq (v : Int32) (lowcase : Bool) :
    resolveHexdecimal v lowcase = numeral 16 lowcase v.toUInt32.toNat := by
  have hzero : v = 0 ↔ v.toUInt32.toNat = 0 :=
    ⟨fun h => h ▸ rfl, fun h => congrArg Int32.ofUInt32 (UInt32.toNat_inj.1 h)⟩
  rw [resolveHexdecimal, numeral]
  split_ifs with h1 h2 h2
  · rfl
  · exact absurd (hzero.1 h1) h2
  · exact absurd (hzero.2 h2) h1
  · rw [hexDigits_eq _ _ _ _ (v.toUInt32.toNat_lt.trans_le (by decide)), append_nil]

theorem resolveDecimal_eq {v : Int32} (h : v ≠ Int32.minValue) :
    resolveDecimal v = decimalNumeral v.toInt ∧ v.toInt.natAbs < 2 ^ 31 := by
  have hlow : -2 ^ 31 ≤ v.toInt := v.minValue_le_toInt
  have hmin : v.toInt ≠ -2 ^ 31 := fun hc => h (Int32.toInt_inj.1 hc)
  have hhigh := v.toInt_lt
  have hn : v.toInt.natAbs < 2 ^ 31 := by omega
  have hsign : v < 0 ↔ v.toInt < 0 := Int32.lt_iff_toInt_lt
  have hval : (if v < 0 then -v else v) = .ofNat v.toInt.natAbs := by
    rw [← Int32.ofInt_eq_ofNat]
    split_ifs with hneg
    · rw [Int.ofNat_natAbs_of_nonpos (hsign.1 hneg).le, Int32.ofInt_neg, Int32.ofInt_toInt]
    · rw [Int.natAbs_of_nonneg (not_lt.1 (mt hsign.2 hneg)), Int32.ofInt_toInt]
  refine ⟨?_, hn⟩
  rw [resolveDecimal, decimalNumeral, numeral, hval, if_congr hsign rfl rfl, if_congr (ofNat_eq_zero_iff hn) rfl rfl,
    decimalDigits_eq _ _ hn (hn.trans (by decide)), append_nil]

theorem parseDecimal_numeral (v : ℤ) : parseDecimal (decimalNumeral v) = v := by
  have hparse := parseNumeral_numeral (by decide : 1 < 10) (by decide) true v.natAbs
  have hsign : '-'.toUInt8 ∉ numeral 10 true v.natAbs := by
    have hdigit : ∀ d < 16, (digitTable true).getD d 0 ≠ '-'.toUInt8 := by decide +kernel
    rw [numeral]
    split_ifs
    · decide
    intro h
    obtain ⟨d, hd, heq⟩ := mem_map.1 h
    exact hdigit d ((Nat.digits_lt_base (by decide) (mem_reverse.1 hd)).trans (by decide)) heq
  rw [parseDecimal, decimalNumeral]
  by_cases hneg : v < 0
  · rw [if_pos hneg]
    refine (if_pos rfl).trans ?_
    change -(parseNumeral 10 true (numeral 10 true v.natAbs) : ℤ) = v
    omega
  · rw [if_neg hneg, nil_append, if_neg fun h => hsign (mem_of_head? h)]
    omega

/-- **The number formats are faithful for every value but the least one.** -/
theorem formats_faithfully_iff (v : Int32) : FormatsFaithfully v ↔ v ≠ Int32.minValue := by
  constructor
  · rintro h rfl
    exact absurd h.decimal.1.1 (by decide +kernel)
  intro h
  obtain ⟨hdecimal, hn⟩ := resolveDecimal_eq h
  refine ⟨⟨writes_of_directive ?_ ?_, parseDecimal_numeral _⟩, fun lowcase => ⟨writes_of_directive ?_ ?_,
    parseNumeral_numeral (by decide) le_rfl ..⟩⟩
  · rw [← hdecimal]
    rfl
  · have := length_numeral_le (by decide : 1 < 10) true (by decide : 0 < 10) (hn.trans (by decide))
    rw [decimalNumeral, length_append, defaultStackSize]
    split_ifs <;> simp only [length_singleton, length_nil] <;> omega
  · rw [← resolveHexdecimal_eq]
    cases lowcase <;> rfl
  · exact (length_numeral_le (by decide) lowcase (by decide : 0 < 8) v.toUInt32.toNat_lt).trans (by decide)

theorem least_value_garbled : ¬FormatsFaithfully Int32.minValue := by
  intro h
  exact absurd h.decimal.1.1 (by decide +kernel)

end ZeldaOS
