import ZeldaOS.Machine.Bytes

/-!
# Texts and words in memory

* `StrAt.unique`: an address holds one string.
* `read_pushWords`: words on a stack.
-/

namespace Machine

open List Function

/-! ## Texts -/

def TextAt (m : Mem) : ℕ → List UInt8 → Prop
  | _, [] => True
  | p, b :: bs => m p = b ∧ TextAt m (p + 1) bs

def StrAt (m : Mem) (p : ℕ) (s : List UInt8) : Prop := 0 ∉ s ∧ TextAt m p s ∧ m (p + s.length) = 0

def Mem.store (m : Mem) (p : ℕ) (bs : List UInt8) : Mem := fun x =>
  if p ≤ x then (bs[x - p]?).getD (m x) else m x

def Mem.set (m : Mem) (p : ℕ) (b : UInt8) : Mem := update m p b

section
variable {m m' : Mem} {p q lo hi : ℕ} {b : UInt8} {s t : List UInt8}

theorem textAt_append : TextAt m p (s ++ t) ↔ TextAt m p s ∧ TextAt m (p + s.length) t := by
  induction s generalizing p with
  | nil => simp [TextAt]
  | cons b s ih =>
    rw [cons_append, TextAt, TextAt, ih, length_cons, and_assoc, Nat.add_right_comm p 1, Nat.add_assoc p]

theorem TextAt.congr (h : TextAt m p s) (heq : ∀ x, p ≤ x → x < p + s.length → m' x = m x) : TextAt m' p s := by
  induction s generalizing p with
  | nil => trivial
  | cons b s ih =>
    rw [length_cons] at heq
    exact ⟨(heq p le_rfl (by omega)).trans h.1, ih h.2 fun x h1 h2 => heq x (by omega) (by omega)⟩

theorem StrAt.congr (h : StrAt m p s) (heq : ∀ x, p ≤ x → x ≤ p + s.length → m' x = m x) : StrAt m' p s :=
  ⟨h.1, h.2.1.congr fun x h1 h2 => heq x h1 h2.le, (heq _ (by omega) le_rfl).trans h.2.2⟩

theorem Agree.textAt (h : Agree m m' lo hi) (ht : TextAt m p s) (hp : p + s.length ≤ lo ∨ hi ≤ p) :
    TextAt m' p s := ht.congr fun x h1 h2 => h x (by omega)

theorem Agree.strAt (h : Agree m m' lo hi) (ht : StrAt m p s) (hp : p + s.length < lo ∨ hi ≤ p) :
    StrAt m' p s := ht.congr fun x h1 h2 => h x (by omega)

theorem StrAt.cons (h : StrAt m p (b :: s)) : m p = b ∧ b ≠ 0 ∧ StrAt m (p + 1) s := by
  obtain ⟨h0, ⟨hb, hs⟩, hend⟩ := h
  rw [mem_cons, not_or] at h0
  rw [length_cons, ← Nat.add_assoc, Nat.add_right_comm] at hend
  exact ⟨hb, Ne.symm h0.1, h0.2, hs, hend⟩

theorem StrAt.nil (h : StrAt m p []) : m p = 0 := h.2.2

theorem StrAt.unique {t : List UInt8} (hs : StrAt m p s) (ht : StrAt m p t) : s = t := by
  induction s generalizing p t with
  | nil =>
    cases t with
    | nil => rfl
    | cons c t => exact absurd (ht.cons.1.symm.trans hs.nil) ht.cons.2.1
  | cons b s ih =>
    cases t with
    | nil => exact absurd (hs.cons.1.symm.trans ht.nil) hs.cons.2.1
    | cons c t => rw [← hs.cons.1, ← ht.cons.1, ih hs.cons.2.2 ht.cons.2.2]

/-! ## Stores -/

theorem textAt_store (m : Mem) (p : ℕ) (bs : List UInt8) : TextAt (m.store p bs) p bs := by
  suffices h : ∀ pre : List UInt8, TextAt (m.store p (pre ++ bs)) (p + pre.length) bs from h []
  induction bs with
  | nil => exact fun _ => trivial
  | cons b bs ih =>
    intro pre
    refine ⟨?_, ?_⟩
    · rw [Mem.store, if_pos (by omega), Nat.add_sub_cancel_left]
      simp
    have := ih (pre ++ [b])
    rw [append_assoc, singleton_append, length_append, length_singleton] at this
    exact this

theorem agree_store (m : Mem) (p : ℕ) (bs : List UInt8) : Agree m (m.store p bs) p (p + bs.length) := by
  intro x hx
  rw [Mem.store]
  split_ifs with h
  · rw [getElem?_eq_none (by omega)]
    rfl
  · rfl

theorem agree_set (m : Mem) (p : ℕ) (b : UInt8) (h1 : lo ≤ p) (h2 : p < hi) : Agree m (m.set p b) lo hi :=
  fun _ hx => update_of_ne (by omega) ..

theorem set_self (m : Mem) (p : ℕ) (b : UInt8) : m.set p b p = b := update_self ..

end

def pushWords (m : Mem) : ℕ → List ℕ → Mem
  | _, [] => m
  | e, v :: vs => pushWords (m.write e 4 v) (e - 4) vs

theorem pushWords_append (m : Mem) (e : ℕ) (vs ws : List ℕ) :
    pushWords m e (vs ++ ws) = pushWords (pushWords m e vs) (e - 4 * vs.length) ws := by
  induction vs generalizing m e with
  | nil => rfl
  | cons v vs ih =>
    rw [cons_append, pushWords, ih, pushWords, length_cons, Nat.mul_add, Nat.sub_sub, Nat.add_comm 4]

theorem agree_pushWords (m : Mem) (e : ℕ) (vs : List ℕ) (h : 4 * vs.length ≤ e) :
    Agree m (pushWords m e vs) (e + 4 - 4 * vs.length) (e + 4) := by
  induction vs generalizing m e with
  | nil => exact Agree.refl m _ _
  | cons v vs ih =>
    rw [length_cons] at h ⊢
    have hrest := ih (m.write e 4 v) (e - 4) (by omega)
    exact (agree_write (by omega) le_rfl).trans (hrest.mono (by omega) (by omega))

theorem read_pushWords (m : Mem) {e i v : ℕ} {vs : List ℕ} (h : 4 * vs.length ≤ e) (hv : vs[i]? = some v)
    (hlt : v < 2 ^ 32) : (pushWords m e vs).read (e - 4 * i) 4 = v := by
  induction vs generalizing m e i with
  | nil => cases hv
  | cons w vs ih =>
    rw [length_cons] at h
    cases i with
    | zero =>
      obtain rfl : w = v := by simpa using hv
      have hrest := agree_pushWords (m.write e 4 w) (e - 4) vs (by omega)
      rw [pushWords, Nat.mul_zero, Nat.sub_zero, hrest.read (.inr (by omega)), Mem.read_write_self hlt]
    | succ i =>
      have hrest := ih (m.write e 4 w) (e := e - 4) (by omega) (by simpa using hv)
      rw [pushWords, ← hrest]
      congr 1
      omega

end Machine
