import ZeldaOS.Machine.Nodes
import ZeldaOS.Machine.Forest

/-!
# Forests in memory

A `Forest` laid out in `Nodes`: the left link leads to the level below, the right link to the next sibling, and the
parent link back to where it is linked from.

* `linked_plug`: a forest and its surroundings.
* `Linked.attach`: a node is added.
* `Linked.detach`: a node is taken out.
-/

namespace Machine

open List Function

namespace Nodes

section
variable {N N' N'' : Nodes} {x y : ℕ} (v : ℕ)

theorem EqAt.trans (h : EqAt N N' x) (h' : EqAt N' N'' x) : EqAt N N'' x :=
  ⟨h'.1.trans h.1, h'.2.1.trans h.2.1, h'.2.2.trans h.2.2⟩

theorem eqAt_setParent (h : x ≠ y) : EqAt N (N.setParent y v) x :=
  ⟨update_of_ne h _ _, rfl, rfl⟩

theorem eqAt_setLeft (h : x ≠ y) : EqAt N (N.setLeft y v) x :=
  ⟨rfl, update_of_ne h _ _, rfl⟩

theorem eqAt_setRight (h : x ≠ y) : EqAt N (N.setRight y v) x :=
  ⟨rfl, rfl, update_of_ne h _ _⟩

end

end Nodes

namespace Forest

variable {α : Type} (addr : α → ℕ)

/-! ## Links -/

def root : Forest α → ℕ
  | nil => 0
  | node a _ _ => addr a

def Linked (N : Nodes) : ℕ → Forest α → Prop
  | _, nil => True
  | p, node a child next =>
    N.parent (addr a) = p ∧ N.left (addr a) = child.root addr ∧ N.right (addr a) = next.root addr ∧
      Linked N (addr a) child ∧ Linked N (addr a) next

def Frame.Linked (N : Nodes) (q r : ℕ) : Frame α → Prop
  | .below a next =>
    N.parent (addr a) = q ∧ N.left (addr a) = r ∧ N.right (addr a) = next.root addr ∧ Forest.Linked addr N (addr a) next
  | .beside a child =>
    N.parent (addr a) = q ∧ N.left (addr a) = child.root addr ∧ N.right (addr a) = r ∧
      Forest.Linked addr N (addr a) child

def owner (p : ℕ) : List (Frame α) → ℕ
  | [] => p
  | f :: _ => addr f.label

def LinkedAround (N : Nodes) (p : ℕ) : List (Frame α) → ℕ → Prop
  | [], _ => True
  | f :: k, r => f.Linked addr N (owner addr p k) r ∧ LinkedAround N p k (addr f.label)

def Frame.point (N : Nodes) (r : ℕ) : Frame α → Nodes
  | .below a _ => N.setLeft (addr a) r
  | .beside a _ => N.setRight (addr a) r

variable {addr} {N N' : Nodes} {p q r : ℕ} {t child next : Forest α} {f : Frame α} {k : List (Frame α)} {a b e : α}

theorem root_mem (h : t ≠ nil) : t.root addr ∈ t.toList.map addr := by
  cases t with
  | nil => exact absurd rfl h
  | node a child next => exact mem_cons_self ..

theorem linked_fill :
    Linked addr N q (f.fill t) ↔ f.Linked addr N q (t.root addr) ∧ Linked addr N (addr f.label) t := by
  cases f with
  | below a next => simp only [Frame.fill, Linked, Frame.Linked, Frame.label]; tauto
  | beside a child => simp only [Frame.fill, Linked, Frame.Linked, Frame.label]; tauto

theorem root_fill (f : Frame α) (t : Forest α) : (f.fill t).root addr = addr f.label := by
  cases f <;> rfl

theorem root_plug (t t' : Forest α) : (plug (f :: k) t').root addr = (plug (f :: k) t).root addr := by
  induction k generalizing f t t' with
  | nil => exact (root_fill f t').trans (root_fill f t).symm
  | cons g k ih => exact ih (f.fill t) (f.fill t')

theorem linked_plug : Linked addr N p (plug k t) ↔
    LinkedAround addr N p k (t.root addr) ∧ Linked addr N (owner addr p k) t := by
  induction k generalizing t with
  | nil => simp [plug, LinkedAround, owner]
  | cons f k ih =>
    rw [plug, ih, linked_fill, root_fill, LinkedAround, owner]
    tauto

/-! ## Stores -/

theorem Linked.congr (h : Linked addr N p t) (heq : ∀ a ∈ t.toList, N.EqAt N' (addr a)) : Linked addr N' p t := by
  induction t generalizing p with
  | nil => trivial
  | node a child next ihc ihn =>
    rw [toList, forall_mem_cons, forall_mem_append] at heq
    obtain ⟨⟨hp, hl, hr⟩, hc, hn⟩ := heq
    exact ⟨hp.trans h.1, hl.trans h.2.1, hr.trans h.2.2.1, ihc h.2.2.2.1 hc, ihn h.2.2.2.2 hn⟩

theorem Frame.Linked.congr (h : f.Linked addr N q r) (heq : ∀ a ∈ f.toList, N.EqAt N' (addr a)) :
    f.Linked addr N' q r := by
  cases f with
  | below a next =>
    obtain ⟨⟨hp, hl, hr⟩, hn⟩ := forall_mem_cons.1 heq
    exact ⟨hp.trans h.1, hl.trans h.2.1, hr.trans h.2.2.1, Forest.Linked.congr h.2.2.2 hn⟩
  | beside a child =>
    obtain ⟨⟨hp, hl, hr⟩, hc⟩ := forall_mem_cons.1 heq
    exact ⟨hp.trans h.1, hl.trans h.2.1, hr.trans h.2.2.1, Forest.Linked.congr h.2.2.2 hc⟩

theorem LinkedAround.congr (h : LinkedAround addr N p k r)
    (heq : ∀ a ∈ k.flatMap Frame.toList, N.EqAt N' (addr a)) : LinkedAround addr N' p k r := by
  induction k generalizing r with
  | nil => trivial
  | cons f k ih =>
    rw [flatMap_cons, forall_mem_append] at heq
    exact ⟨h.1.congr heq.1, ih h.2 heq.2⟩

theorem eqAt_point {x : ℕ} (h : x ≠ addr f.label) : N.EqAt (f.point addr N r) x := by
  cases f with
  | below a next => exact Nodes.eqAt_setLeft r h
  | beside a child => exact Nodes.eqAt_setRight r h

theorem nodup_plug : ((plug k t).toList.map addr).Nodup ↔ ((k.flatMap Frame.toList ++ t.toList).map addr).Nodup :=
  ((toList_plug k t).map addr).nodup_iff

theorem mem_plug : a ∈ (plug k t).toList ↔ a ∈ k.flatMap Frame.toList ∨ a ∈ t.toList := by
  rw [(toList_plug k t).mem_iff, mem_append]

theorem Frame.Linked.point (h : f.Linked addr N q r) (hnd : (f.toList.map addr).Nodup) (r' : ℕ) :
    f.Linked addr (f.point addr N r') q r' := by
  cases f with
  | below a next =>
    obtain ⟨hnot, -⟩ := nodup_cons.1 hnd
    refine ⟨h.1, update_self .., h.2.2.1, Forest.Linked.congr h.2.2.2 fun b hb => ?_⟩
    exact Nodes.eqAt_setLeft r' fun he => hnot (he ▸ mem_map_of_mem hb)
  | beside a child =>
    obtain ⟨hnot, -⟩ := nodup_cons.1 hnd
    refine ⟨h.1, h.2.1, update_self .., Forest.Linked.congr h.2.2.2 fun b hb => ?_⟩
    exact Nodes.eqAt_setRight r' fun he => hnot (he ▸ mem_map_of_mem hb)

theorem LinkedAround.point (h : LinkedAround addr N p (f :: k) r)
    (hnd : (((f :: k).flatMap Frame.toList).map addr).Nodup) (r' : ℕ) :
    LinkedAround addr (f.point addr N r') p (f :: k) r' := by
  rw [flatMap_cons, map_append, nodup_append] at hnd
  refine ⟨h.1.point hnd.1 r', h.2.congr fun b hb => eqAt_point fun he => ?_⟩
  exact hnd.2.2 _ (mem_map_of_mem f.label_mem) _ (mem_map_of_mem hb) he.symm

theorem Linked.attach (h : Linked addr N p (plug (f :: k) nil))
    (hnd : ((plug (f :: k) (node e nil nil)).toList.map addr).Nodup)
    (hl : N.left (addr e) = 0) (hr : N.right (addr e) = 0) :
    Linked addr ((f.point addr N (addr e)).setParent (addr e) (addr f.label)) p (plug (f :: k) (node e nil nil)) := by
  rw [linked_plug] at h ⊢
  rw [nodup_plug, map_append, nodup_append] at hnd
  obtain ⟨hk, -, hne⟩ := hnd
  have haway : ∀ a ∈ (f :: k).flatMap Frame.toList, addr a ≠ addr e := fun a ha =>
    hne _ (mem_map_of_mem ha) _ (mem_singleton_self _)
  have hlabel : addr e ≠ addr f.label :=
    (haway f.label (by rw [flatMap_cons]; exact mem_append_left _ f.label_mem)).symm
  refine ⟨(h.1.point hk (addr e)).congr fun a ha => Nodes.eqAt_setParent _ (haway a ha), ?_⟩
  have hpoint := eqAt_point (N := N) (r := addr e) hlabel
  exact ⟨update_self .., hpoint.2.1.trans hl, hpoint.2.2.trans hr, trivial, trivial⟩

theorem Linked.detach (h : Linked addr N p (plug (f :: k) (node e child nil)))
    (hnd : ((plug (f :: k) (node e child nil)).toList.map addr).Nodup) :
    Linked addr (((f.point addr N 0).setRight (addr e) 0).setParent (addr e) 0) p (plug (f :: k) nil) ∧
      Linked addr (((f.point addr N 0).setRight (addr e) 0).setParent (addr e) 0) 0 (node e child nil) := by
  rw [linked_plug] at h
  rw [nodup_plug, map_append, nodup_append] at hnd
  obtain ⟨hk, hin, hne⟩ := hnd
  have haway : ∀ a ∈ (f :: k).flatMap Frame.toList, ∀ b ∈ (node e child nil).toList, addr a ≠ addr b :=
    fun a ha b hb => hne _ (mem_map_of_mem ha) _ (mem_map_of_mem hb)
  have hself : e ∈ (node e child nil).toList := mem_cons_self ..
  have hlabel : f.label ∈ (f :: k).flatMap Frame.toList := by
    exact mem_append_left _ f.label_mem
  have hset : ∀ {M : Nodes} {x : ℕ}, x ≠ addr e → M.EqAt ((M.setRight (addr e) 0).setParent (addr e) 0) x :=
    fun hx => (Nodes.eqAt_setRight 0 hx).trans (Nodes.eqAt_setParent 0 hx)
  refine ⟨linked_plug.2 ⟨(h.1.point hk 0).congr fun a ha => hset (haway a ha e hself), trivial⟩, ?_⟩
  obtain ⟨-, hleft, -, hchild, -⟩ := h.2
  have hpoint : ∀ b ∈ (node e child nil).toList, N.EqAt (f.point addr N 0) (addr b) := fun b hb =>
    eqAt_point (haway f.label hlabel b hb).symm
  rw [toList, map_cons, nodup_cons] at hin
  have hbelow : ∀ b ∈ child.toList, b ∈ (node e child nil).toList ∧ addr b ≠ addr e := fun b hb =>
    ⟨mem_cons_of_mem _ (mem_append_left _ hb), fun he => hin.1 (he ▸ mem_map_of_mem (mem_append_left _ hb))⟩
  refine ⟨update_self .., (hpoint e hself).2.1.trans hleft, update_self .., ?_, trivial⟩
  exact hchild.congr fun b hb => (hpoint b (hbelow b hb).1).trans (hset (hbelow b hb).2)

theorem Linked.parent_root (h : Linked addr N p t) (ht : t ≠ nil) : N.parent (t.root addr) = p := by
  cases t with
  | nil => exact absurd rfl ht
  | node a child next => exact h.1

theorem Linked.node (h : Linked addr N p (plug k (node a child next))) :
    N.parent (addr a) = owner addr p k ∧ N.left (addr a) = child.root addr ∧ N.right (addr a) = next.root addr := by
  obtain ⟨-, hp, hl, hr, -⟩ := linked_plug.1 h
  exact ⟨hp, hl, hr⟩

theorem Linked.frame (h : Linked addr N p (plug (f :: k) t)) :
    (∃ a next, f = .below a next ∧ N.left (addr a) = t.root addr ∧ N.right (addr a) = next.root addr) ∨
      ∃ a child, f = .beside a child ∧ N.right (addr a) = t.root addr := by
  obtain ⟨hf, -⟩ := (linked_plug.1 h).1
  cases f with
  | below a next => exact .inl ⟨a, next, rfl, hf.2.1, hf.2.2.1⟩
  | beside a child => exact .inr ⟨a, child, rfl, hf.2.2.1⟩

end Forest

end Machine
