import Mathlib.Tactic

/-!
# Doubly linked segments

Intrusive lists seen through the functions `next` and `prev` that read their link fields.

* `Seg.insert` and `Seg.unlink`: a cell is added or taken out.
-/

namespace Machine

open List

variable {α : Type} {next prev next' prev' : α → α}

/-- The cells `xs` are linked both ways, between `b` and `e`. -/
def Seg (next prev : α → α) : α → List α → α → Prop
  | _, [], _ => True
  | b, x :: xs, e => prev x = b ∧ next x = xs.headD e ∧ Seg next prev x xs e

theorem Seg.congr {b e : α} {xs : List α} (h : Seg next prev b xs e)
    (hn : ∀ a ∈ xs, next' a = next a) (hp : ∀ a ∈ xs, prev' a = prev a) : Seg next' prev' b xs e := by
  induction xs generalizing b with
  | nil => trivial
  | cons x xs ih =>
    obtain ⟨h1, h2, h3⟩ := h
    refine ⟨(hp x mem_cons_self).trans h1, (hn x mem_cons_self).trans h2, ?_⟩
    exact ih h3 (fun a ha => hn a (mem_cons_of_mem _ ha)) (fun a ha => hp a (mem_cons_of_mem _ ha))

theorem headD_append (xs ys : List α) (e : α) : (xs ++ ys).headD e = xs.headD (ys.headD e) := by
  cases xs <;> rfl

theorem seg_append {b e : α} {xs ys : List α} : Seg next prev b (xs ++ ys) e ↔
      Seg next prev b xs (ys.headD e) ∧ Seg next prev (xs.getLastD b) ys e := by
  induction xs generalizing b with
  | nil => simp [Seg]
  | cons x xs ih =>
    rw [cons_append, Seg, Seg, ih, headD_append, getLastD_cons]
    tauto

theorem seg_concat {b e q : α} {xs : List α} :
    Seg next prev b (xs ++ [q]) e ↔ Seg next prev b xs q ∧ prev q = xs.getLastD b ∧ next q = e := by
  rw [seg_append]
  simp [Seg]

theorem Seg.reend {b e e' : α} {xs : List α} (h : Seg next prev b xs e)
    (hn : ∀ a ∈ xs.dropLast, next' a = next a) (hlast : ∀ a, xs.getLast? = some a → next' a = e')
    (hp : ∀ a ∈ xs, prev' a = prev a) : Seg next' prev' b xs e' := by
  induction xs using List.reverseRecOn with
  | nil => trivial
  | append_singleton xs q _ =>
    rw [seg_concat] at h ⊢
    obtain ⟨h1, h2, -⟩ := h
    rw [dropLast_concat] at hn
    refine ⟨h1.congr hn fun a ha => hp a (by simp [ha]), ?_, hlast q (by simp)⟩
    rw [hp q (by simp), h2]

theorem Seg.rebase {b b' e : α} {xs : List α} (h : Seg next prev b xs e)
    (hn : ∀ a ∈ xs, next' a = next a) (hfirst : ∀ a, xs.head? = some a → prev' a = b')
    (hp : ∀ a ∈ xs.tail, prev' a = prev a) : Seg next' prev' b' xs e := by
  cases xs with
  | nil => trivial
  | cons x xs =>
    obtain ⟨-, h2, h3⟩ := h
    refine ⟨hfirst x rfl, (hn x mem_cons_self).trans h2, ?_⟩
    exact h3.congr (fun a ha => hn a (mem_cons_of_mem _ ha)) hp

theorem Seg.unlink {b e q x : α} {l1 l2 : List α} (h : Seg next prev b (l1 ++ q :: x :: l2) e)
    (hn : ∀ a ∈ l1 ++ l2, next' a = next a) (hnq : next' q = l2.headD e)
    (hp : ∀ a ∈ l1 ++ q :: l2.tail, prev' a = prev a) (hpy : ∀ y, l2.head? = some y → prev' y = q) :
    Seg next' prev' b (l1 ++ q :: l2) e := by
  rw [seg_append] at h ⊢
  obtain ⟨h1, h2, h3, -, -, h4⟩ := h
  simp only [mem_append, mem_cons] at hn hp
  refine ⟨h1.congr (fun a ha => hn a (.inl ha)) (fun a ha => hp a (.inl ha)), ?_, hnq, ?_⟩
  · rw [hp q (by simp), h2]
  · exact h4.rebase (fun a ha => hn a (.inr ha)) hpy (fun a ha => hp a (.inr (.inr ha)))

theorem Seg.insert {b e q x : α} {l1 l2 : List α} (h : Seg next prev b (l1 ++ q :: l2) e)
    (hn : ∀ a ∈ l1 ++ l2, next' a = next a) (hnq : next' q = x) (hnx : next' x = l2.headD e)
    (hp : ∀ a ∈ l1 ++ q :: l2.tail, prev' a = prev a) (hpx : prev' x = q) (hpy : ∀ y, l2.head? = some y → prev' y = x) :
    Seg next' prev' b (l1 ++ q :: x :: l2) e := by
  rw [seg_append] at h ⊢
  obtain ⟨h1, h2, -, h4⟩ := h
  simp only [mem_append, mem_cons] at hn hp
  refine ⟨h1.congr (fun a ha => hn a (.inl ha)) (fun a ha => hp a (.inl ha)), ?_, hnq, hpx, hnx, ?_⟩
  · rw [hp q (by simp), h2]
  · exact h4.rebase (fun a ha => hn a (.inr ha)) hpy (fun a ha => hp a (.inr (.inr ha)))

end Machine
