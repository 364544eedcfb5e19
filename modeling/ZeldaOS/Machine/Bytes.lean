import Mathlib.Tactic

/-!
# Byte memory

A byte-addressed memory with little-endian reads and writes of any width, and 32-bit wrapping.

* `read_write_self`: a value that fits is read back.
* `read_write_of_disjoint`: elsewhere nothing changes.
-/

namespace Machine

/-! ## Reads and writes -/

def Mem := ℕ → UInt8

namespace Mem

def read (m : Mem) : (a n : ℕ) → ℕ
  | _, 0 => 0
  | a, n + 1 => (m a).toNat + 256 * m.read (a + 1) n

def write (m : Mem) (a n v : ℕ) : Mem := fun x =>
  if a ≤ x ∧ x < a + n then UInt8.ofNat (v / 256 ^ (x - a)) else m x

def fill (m : Mem) (a n : ℕ) (b : UInt8) : Mem := fun x => if a ≤ x ∧ x < a + n then b else m x

variable {m m' : Mem} {a : ℕ}

theorem read_congr {n : ℕ} (h : ∀ x, a ≤ x → x < a + n → m' x = m x) : m'.read a n = m.read a n := by
  induction n generalizing a with
  | zero => rfl
  | succ n ih =>
    rw [read, read, h a le_rfl (by omega), ih fun x h1 h2 => h x (by omega) (by omega)]

variable {v : ℕ}

theorem read_eq_mod {n : ℕ} (h : ∀ i < n, m (a + i) = UInt8.ofNat (v / 256 ^ i)) : m.read a n = v % 256 ^ n := by
  induction n generalizing a v with
  | zero => simp [read, Nat.mod_one]
  | succ n ih =>
    have h0 : m a = UInt8.ofNat v := by simpa using h 0 (Nat.succ_pos n)
    have htail : m.read (a + 1) n = v / 256 % 256 ^ n := by
      refine ih fun i hi => ?_
      rw [add_assoc, add_comm 1 i, h (i + 1) (by omega), pow_succ', Nat.div_div_eq_div_mul]
    rw [read, h0, htail, pow_succ', Nat.mod_mul, UInt8.toNat_ofNat']

theorem read_lt (m : Mem) (a n : ℕ) : m.read a n < 256 ^ n := by
  induction n generalizing a with
  | zero => simp [read]
  | succ n ih =>
    have hb := (m a).toNat_lt
    have hr := ih (a + 1)
    rw [read, pow_succ']
    omega

variable {x : ℕ}

theorem write_apply_of_lt {n : ℕ} (h : x < a ∨ a + n ≤ x) : m.write a n v x = m x := by
  rw [write, if_neg (by omega)]

theorem read_write_mod (m : Mem) (a n v : ℕ) : (m.write a n v).read a n = v % 256 ^ n := by
  refine read_eq_mod fun i hi => ?_
  rw [write, if_pos (by omega), Nat.add_sub_cancel_left]

theorem read_write_self {n : ℕ} (h : v < 256 ^ n) : (m.write a n v).read a n = v := by
  rw [read_write_mod, Nat.mod_eq_of_lt h]

variable {b k : ℕ}

theorem read_write_of_disjoint {n : ℕ} (h : b + k ≤ a ∨ a + n ≤ b) : (m.write a n v).read b k = m.read b k :=
  read_congr fun _ h1 h2 => write_apply_of_lt (by omega)

theorem fill_apply_of_lt {n : ℕ} {b : UInt8} (h : x < a ∨ a + n ≤ x) : m.fill a n b x = m x := by
  rw [fill, if_neg (by omega)]

theorem read_fill_of_disjoint {n : ℕ} {v : UInt8} (h : b + k ≤ a ∨ a + n ≤ b) : (m.fill a n v).read b k = m.read b k :=
  read_congr fun _ h1 h2 => fill_apply_of_lt (by omega)

theorem read_fill_zero {n : ℕ} (h1 : a ≤ b) (h2 : b + k ≤ a + n) : (m.fill a n 0).read b k = 0 := by
  rw [read_eq_mod, Nat.zero_mod]
  intro i hi
  rw [fill, if_pos (by omega), Nat.zero_div]
  rfl

theorem eq_zero_of_read {n : ℕ} (h : m.read a n = 0) (h1 : a ≤ x) (h2 : x < a + n) : m x = 0 := by
  induction n generalizing a with
  | zero => omega
  | succ n ih =>
    rw [read, Nat.add_eq_zero_iff] at h
    rcases Nat.eq_or_lt_of_le h1 with rfl | hlt
    · exact UInt8.toNat_inj.1 h.1
    have htail : m.read (a + 1) n = 0 := by omega
    exact ih htail hlt (by omega)

theorem write_zero {n : ℕ} (h : m.read a n = 0) : m.write a n 0 = m := by
  funext x
  unfold write
  split_ifs with hx
  · rw [Nat.zero_div, eq_zero_of_read h hx.1 hx.2]
    rfl
  · rfl

end Mem

/-! ## Memories that agree -/

/-- The memories differ at most from `lo` to `hi`. -/
def Agree (m m' : Mem) (lo hi : ℕ) : Prop := ∀ x, x < lo ∨ hi ≤ x → m' x = m x

variable {lo hi : ℕ}

theorem Agree.read (h : Agree m m' lo hi) {n : ℕ} (ha : a + n ≤ lo ∨ hi ≤ a) : m'.read a n = m.read a n :=
  Mem.read_congr fun x h1 h2 => h x (by omega)

theorem Agree.refl (m : Mem) (lo hi : ℕ) : Agree m m lo hi := fun _ _ => rfl

theorem Agree.trans {m'' : Mem} (h : Agree m m' lo hi) (h' : Agree m' m'' lo hi) :
    Agree m m'' lo hi := fun x hx => (h' x hx).trans (h x hx)

theorem Agree.mono {lo' hi' : ℕ} (h : Agree m m' lo hi) (h1 : lo' ≤ lo) (h2 : hi ≤ hi') :
    Agree m m' lo' hi' := fun x hx => h x (by omega)

theorem agree_write {n : ℕ} (h1 : lo ≤ a) (h2 : a + n ≤ hi) :
    Agree m (m.write a n v) lo hi := fun _ hx => Mem.write_apply_of_lt (by omega)

/-! ## Words and faults -/

def u32 (z : ℤ) : ℕ := (z % 4294967296).toNat

def i32 (n : ℕ) : ℤ := if n < 2147483648 then n else n - 4294967296

theorem u32_natCast {n : ℕ} (h : n < 4294967296) : u32 n = n := by
  unfold u32
  omega

theorem i32_of_lt {n : ℕ} (h : n < 2147483648) : i32 n = n := if_pos h

/-- A failed `ASSERT`, or a loop that does not end. -/
inductive Fault where
  | assertion | diverge
  deriving DecidableEq, Repr

def ensure (c : Prop) [Decidable c] : Except Fault Unit := if c then .ok () else .error .assertion

@[simp] theorem ensure_of {p : Prop} [Decidable p] (h : p) : ensure p = .ok () := if_pos h

end Machine
