import ZeldaOS.Machine.Bytes
import ZeldaOS.Machine.Links

/-!
# Linked lists in byte memory

Doubly linked lists whose cells, a back link and a forward link, lie in a byte memory. The head links back to the last
cell and forward to the first.

* `Mem.listAppend_spec`: appending.
* `listForeach_spec`: traversal.
-/

namespace Machine

open List

/-- The back link and the forward link of a cell. -/
def prevAt (m : Mem) (x : ℕ) : ℕ := m.read x 4
@[inherit_doc prevAt] def nextAt (m : Mem) (x : ℕ) : ℕ := m.read (x + 4) 4

def Mem.listAppend (m : Mem) (head elem : ℕ) : Except Fault Mem := do
  ensure (prevAt m elem = 0)
  ensure (nextAt m elem = 0)
  let m := if nextAt m head = 0 then m.write (head + 4) 4 elem else m
  let m :=
    if prevAt m head ≠ 0 then
      let m := m.write elem 4 (prevAt m head)
      m.write (prevAt m head + 4) 4 elem
    else m
  .ok (m.write head 4 elem)

def listForeach (m : Mem) : (fuel x : ℕ) → Except Fault (List ℕ)
  | 0, _ => .error .diverge
  | n + 1, x => if x = 0 then .ok [] else (listForeach m n (nextAt m x)).map (x :: ·)

def CellsApart (cells : List ℕ) : Prop := cells.Pairwise fun x y => x + 8 ≤ y ∨ y + 8 ≤ x

structure ListAt (m : Mem) (head : ℕ) (es : List ℕ) : Prop where
  first : nextAt m head = es.headD 0
  last : prevAt m head = es.getLastD 0
  seg : Seg (nextAt m) (prevAt m) 0 es 0
  pos : ∀ x ∈ es, x ≠ 0

variable {m m' : Mem} {head e : ℕ} {es : List ℕ}

def SameBytes (m m' : Mem) (cells : List ℕ) : Prop := ∀ x, (∀ c ∈ cells, x < c ∨ c + 8 ≤ x) → m' x = m x

theorem SameBytes.links (h : SameBytes m m' es) (hx : ∀ c ∈ es, head + 8 ≤ c ∨ c + 8 ≤ head) :
    prevAt m' head = prevAt m head ∧ nextAt m' head = nextAt m head := by
  refine ⟨Mem.read_congr fun x h1 h2 => h x fun c hc => ?_, Mem.read_congr fun x h1 h2 => h x fun c hc => ?_⟩
  · have := hx c hc
    omega
  have := hx c hc
  omega

theorem ListAt.same {cs : List ℕ} (h : ListAt m head es) (hsame : SameBytes m m' cs)
    (hapart : ∀ x ∈ head :: es, ∀ c ∈ cs, x + 8 ≤ c ∨ c + 8 ≤ x) : ListAt m' head es := by
  obtain ⟨hhead, hes⟩ := forall_mem_cons.1 hapart
  obtain ⟨hprev, hnext⟩ := hsame.links hhead
  exact ⟨hnext.trans h.first, hprev.trans h.last,
    h.seg.congr (fun x hx => (hsame.links (hes x hx)).2) (fun x hx => (hsame.links (hes x hx)).1), h.pos⟩

theorem SameBytes.trans {m'' : Mem} {cs cs' : List ℕ} (h : SameBytes m m' cs) (h' : SameBytes m' m'' cs')
    (hsub : cs ⊆ cs') : SameBytes m m'' cs' := fun x hx => (h' x hx).trans (h x fun c hc => hx c (hsub hc))

theorem Mem.listAppend_spec (h : ListAt m head es) (hapart : CellsApart (e :: head :: es)) (he : e ≠ 0)
    (hlt : e < 2 ^ 32) (hprev : prevAt m e = 0) (hnext : nextAt m e = 0) :
    ∃ m', m.listAppend head e = .ok m' ∧ ListAt m' head (es ++ [e]) ∧ SameBytes m m' (e :: head :: es) := by
  obtain ⟨hne, hes⟩ := forall_mem_cons.1 (pairwise_cons.1 hapart).1
  obtain ⟨hhead, -⟩ := pairwise_cons.1 (pairwise_cons.1 hapart).2
  have hlt' : e < 256 ^ 4 := hlt
  rcases eq_nil_or_concat es with rfl | ⟨l, q, rfl⟩
  · have hfirst : nextAt m head = 0 := h.first
    have hlast : prevAt m head = 0 := h.last
    have hlast' : prevAt (m.write (head + 4) 4 e) head = 0 := by
      rw [← hlast]
      exact read_write_of_disjoint (by omega)
    refine ⟨(m.write (head + 4) 4 e).write head 4 e, ?_, ⟨?_, ?_, ⟨?_, ?_, trivial⟩, ?_⟩, fun x hx => ?_⟩
    · simp [Mem.listAppend, hprev, hnext, hfirst, hlast', bind, Except.bind]
    · exact (read_write_of_disjoint (by omega)).trans (read_write_self hlt')
    · exact read_write_self hlt'
    · exact ((read_write_of_disjoint (by omega)).trans (read_write_of_disjoint (by omega))).trans hprev
    · exact ((read_write_of_disjoint (by omega)).trans (read_write_of_disjoint (by omega))).trans hnext
    · exact forall_mem_singleton.2 he
    have hc := hx head (by simp)
    rw [write_apply_of_lt (by omega), write_apply_of_lt (by omega)]
  rw [concat_eq_append] at *
  have hq : q ∈ l ++ [q] := by simp
  have hlast : prevAt m head = q := h.last.trans (by simp)
  have hqlt : q < 256 ^ 4 := hlast ▸ read_lt m head 4
  have heq := hes q hq
  have hhq := hhead q hq
  have hfirst : nextAt m head ≠ 0 := by
    rw [h.first]
    cases l with
    | nil => exact h.pos q hq
    | cons x l => exact h.pos x (by simp)
  have hlast' : prevAt (m.write e 4 q) head = q := (read_write_of_disjoint (by omega)).trans hlast
  -- the words that are stored are the back link of `e`, the forward link of `q` and the back link of the head
  obtain ⟨m', hm'⟩ : ∃ m', ((m.write e 4 q).write (q + 4) 4 e).write head 4 e = m' := ⟨_, rfl⟩
  have hkeep : ∀ a, (a + 4 ≤ e ∨ e + 4 ≤ a) → (a + 4 ≤ q + 4 ∨ q + 8 ≤ a) → (a + 4 ≤ head ∨ head + 4 ≤ a) →
      m'.read a 4 = m.read a 4 := fun a h1 h2 h3 => by
    rw [← hm', read_write_of_disjoint h3, read_write_of_disjoint (by omega), read_write_of_disjoint h1]
  have hnextq : nextAt m' q = e := by
    rw [← hm', nextAt, read_write_of_disjoint (by omega), read_write_self hlt']
  have hpreve : prevAt m' e = q := by
    rw [← hm', prevAt, read_write_of_disjoint (by omega), read_write_of_disjoint (by omega), read_write_self hqlt]
  have hlq : ∀ a ∈ l, a + 8 ≤ q ∨ q + 8 ≤ a := fun a ha =>
    (pairwise_append.1 (pairwise_cons.1 (pairwise_cons.1 hapart).2).2).2.2 a ha q (by simp)
  refine ⟨m', ?_, ⟨?_, ?_, seg_concat.2 ⟨h.seg.reend ?_ ?_ ?_, ?_, ?_⟩, ?_⟩, fun x hx => ?_⟩
  · simp [Mem.listAppend, hprev, hnext, hfirst, hlast, h.pos q hq, hlast', hm', bind, Except.bind]
  · have hread : nextAt m' head = nextAt m head := hkeep _ (by omega) (by omega) (by omega)
    rw [hread, h.first]
    cases l <;> rfl
  · rw [getLastD_concat, ← hm']
    exact read_write_self hlt'
  · intro a ha
    rw [dropLast_concat] at ha
    have h1 := hes a (by simp [ha])
    have h2 := hhead a (by simp [ha])
    have h3 := hlq a ha
    exact hkeep _ (by omega) (by omega) (by omega)
  · intro a ha
    rw [getLast?_concat, Option.some.injEq] at ha
    rw [← ha]
    exact hnextq
  · intro a ha
    have h1 := hes a ha
    have h2 := hhead a ha
    refine hkeep _ (by omega) ?_ (by omega)
    rcases mem_append.1 ha with hal | haq
    · have := hlq a hal
      omega
    rw [mem_singleton.1 haq]
    omega
  · rw [hpreve, getLastD_concat]
  · exact (hkeep _ (by omega) (by omega) (by omega)).trans hnext
  · exact forall_mem_append.2 ⟨h.pos, forall_mem_singleton.2 he⟩
  · have h1 := hx e (by simp)
    have h2 := hx head (by simp)
    have h3 := hx q (by simp)
    rw [← hm', write_apply_of_lt (by omega), write_apply_of_lt (by omega), write_apply_of_lt (by omega)]

theorem listForeach_spec {b : ℕ} {fuel : ℕ} (h : Seg (nextAt m) (prevAt m) b es 0) (hpos : ∀ x ∈ es, x ≠ 0)
    (hfuel : es.length < fuel) : listForeach m fuel (es.headD 0) = .ok es := by
  induction es generalizing b fuel with
  | nil =>
    obtain ⟨n, rfl⟩ := Nat.exists_eq_succ_of_ne_zero (Nat.pos_iff_ne_zero.1 hfuel)
    exact if_pos rfl
  | cons x xs ih =>
    obtain ⟨n, rfl⟩ := Nat.exists_eq_succ_of_ne_zero (Nat.pos_iff_ne_zero.1 (Nat.zero_lt_of_lt hfuel))
    obtain ⟨hx, hxs⟩ := forall_mem_cons.1 hpos
    obtain ⟨-, hnext, hseg⟩ := h
    rw [headD_cons, listForeach, if_neg hx, hnext, ih hseg hxs (Nat.lt_of_succ_lt_succ hfuel)]
    rfl

end Machine
