import ZeldaOS.Hierarchy.Search

/-!
# Deleting files and directories

`hierarchy_delete_file` on the tree of files, with a callback that frees the blocks of a file.

* `hierarchyDeleteFile_spec`: when a deletion leaves a tree.
-/

namespace ZeldaOS

open Machine Machine.Forest Function
open List hiding nil

/-! ## Freeing a file -/

/-- `__delete_file_entry`: the header of the file's blocks and the file are freed. -/
def deleteFileEntry (t : FileTree) (x : ℕ) : FileTree :=
  (if t.priv x ≠ 0 then t.free (t.priv x) else t).free x

section
variable {t : FileTree} {T l child next : Forest Entry} {k K : List (Forest.Frame Entry)} {e a : Entry} {x y n : ℕ}

theorem deleteFileEntry_eq (t : FileTree) (e : Entry) : ∃ live, deleteFileEntry t e.addr = { t with live := live } ∧
      ∀ y ∈ t.live, y ∉ t.blocksOf e → y ∈ live := by
  rw [deleteFileEntry, FileTree.blocksOf]
  by_cases hpriv : t.priv e.addr = 0
  · rw [if_neg (not_not.2 hpriv), if_pos hpriv]
    refine ⟨t.live.erase e.addr, rfl, fun y hy hnot => ?_⟩
    exact (mem_erase_of_ne fun heq => hnot (mem_singleton.2 heq)).2 hy
  rw [if_pos hpriv, if_neg hpriv]
  refine ⟨(t.live.erase (t.priv e.addr)).erase e.addr, rfl, fun y hy hnot => ?_⟩
  rw [mem_cons, mem_singleton, not_or] at hnot
  exact (mem_erase_of_ne hnot.1).2 ((mem_erase_of_ne hnot.2).2 hy)

def enqueued (l : Forest Entry) : List (Forest Entry) := match l with
  | nil => []
  | node a child next => [node a child next]

theorem enqueue_eq {queue : List ℕ} (hz : ∀ e ∈ l.toList, e.addr ≠ 0) :
    (if l.root Entry.addr ≠ 0 then queue ++ [l.root Entry.addr] else queue) =
      queue ++ (enqueued l).map (Forest.root Entry.addr) := by
  cases l with
  | nil => exact (if_neg (not_not.2 rfl)).trans (append_nil queue).symm
  | node a child next => exact if_pos (hz a mem_cons_self)

theorem flatMap_enqueued (l : Forest Entry) : (enqueued l).flatMap Forest.toList = l.toList := by
  cases l with
  | nil => rfl
  | node a child next => exact append_nil _

theorem mem_enqueued {l l' : Forest Entry} (h : l' ∈ enqueued l) : l' = l ∧ l ≠ nil := by
  cases l with
  | nil => cases h
  | node a child next =>
    obtain rfl := mem_singleton.1 h
    exact ⟨rfl, Forest.Frame.fill_ne_nil (.below a next) child⟩

theorem reclaimLoop_spec {Q : List (Forest Entry)} (hlinked : ∀ l ∈ Q, l ≠ nil ∧ ∃ p, l.Linked Entry.addr t.nodes p)
    (hz : ∀ e ∈ Q.flatMap Forest.toList, e.addr ≠ 0) (hn : (Q.flatMap Forest.toList).length ≤ n) :
    ∃ live, reclaimLoop deleteFileEntry n (Q.map (Forest.root Entry.addr)) t = .ok { t with live := live } ∧
      ∀ y ∈ t.live, (∀ e ∈ Q.flatMap Forest.toList, y ∉ t.blocksOf e) → y ∈ live := by
  induction n generalizing Q t with
  | zero =>
    cases Q with
    | nil => exact ⟨t.live, rfl, fun y hy _ => hy⟩
    | cons l Q =>
      cases l with
      | nil => exact absurd rfl (hlinked nil mem_cons_self).1
      | node a child next =>
        rw [flatMap_cons, toList, length_append, length_cons] at hn
        omega
  | succ n ih =>
    cases Q with
    | nil => exact ⟨t.live, rfl, fun y hy _ => hy⟩
    | cons l Q =>
      rw [forall_mem_cons] at hlinked
      obtain ⟨⟨hl, p, hlink⟩, hQ⟩ := hlinked
      cases l with
      | nil => exact absurd rfl hl
      | node a child next =>
        obtain ⟨-, hleft, hright, hchild, hnext⟩ := hlink
        rw [flatMap_cons, toList, cons_append, forall_mem_cons, append_assoc,
          forall_mem_append, forall_mem_append] at hz
        obtain ⟨-, hzc, hzn, hzQ⟩ := hz
        obtain ⟨live, hentry, hkeep⟩ := deleteFileEntry_eq t a
        have hperm : ((Q ++ enqueued child ++ enqueued next).flatMap Forest.toList).Perm
            (child.toList ++ (next.toList ++ Q.flatMap Forest.toList)) := by
          rw [flatMap_append, flatMap_append, flatMap_enqueued, flatMap_enqueued, append_assoc]
          refine perm_append_comm.trans ?_
          rw [append_assoc]
        obtain ⟨live', hrun, hkeep'⟩ := ih (t := { t with live := live }) (fun l' hl' => by
            rcases mem_append.1 hl' with hl' | hl'
            · rcases mem_append.1 hl' with hl' | hl'
              · exact hQ l' hl'
              obtain ⟨rfl, hne⟩ := mem_enqueued hl'
              exact ⟨hne, _, hchild⟩
            · obtain ⟨rfl, hne⟩ := mem_enqueued hl'
              exact ⟨hne, _, hnext⟩)
          (fun e he => by
            rcases mem_append.1 (hperm.subset he) with he | he
            · exact hzc e he
            · exact (mem_append.1 he).elim (hzn e) (hzQ e))
          (by
            rw [hperm.length_eq]
            rw [flatMap_cons, toList, cons_append, length_cons, append_assoc] at hn
            omega)
        refine ⟨live', ?_, fun y hy hnot => hkeep' y (hkeep y hy ?_) fun e he => ?_⟩
        · rw [map_cons, reclaimLoop, Forest.root, hleft, hright, hentry]
          rw [enqueue_eq hzc, enqueue_eq hzn, ← map_append, ← map_append]
          exact hrun
        · exact hnot a (mem_append_left _ mem_cons_self)
        have he' := hperm.subset he
        refine hnot e ?_
        rw [flatMap_cons, toList, cons_append, append_assoc]
        exact mem_cons_of_mem a he'

/-! ## Unlinking it -/

theorem FileTree.Represents.apart {f : Forest.Frame Entry} (h : t.Represents (plug (f :: k) l)) {b : Entry}
    (hb : b ∈ f.toList)
    (he : e ∈ l.toList) : e.addr ≠ b.addr := by
  have hnd := h.addrs_nodup
  rw [nodup_plug, map_append, nodup_append] at hnd
  refine (hnd.2.2 _ (mem_map_of_mem ?_) _ (mem_map_of_mem he)).symm
  exact mem_append_left _ hb

theorem FileTree.Represents.node_apart (h : t.Represents (plug K (node e child next))) :
    (∀ b ∈ child.toList, b.addr ≠ e.addr) ∧ (∀ b ∈ next.toList, b.addr ≠ e.addr) ∧
      ∀ b ∈ child.toList, ∀ c ∈ next.toList, b.addr ≠ c.addr := by
  have hnd := h.addrs_nodup
  rw [nodup_plug, map_append, nodup_append] at hnd
  obtain ⟨-, hnode, -⟩ := hnd
  rw [toList, map_cons, nodup_cons, map_append, nodup_append] at hnode
  obtain ⟨hnot, -, -, hapart⟩ := hnode
  exact ⟨fun b hb hc => hnot (hc ▸ mem_append_left _ (mem_map_of_mem hb)),
    fun b hb hc => hnot (hc ▸ mem_append_right _ (mem_map_of_mem hb)),
    fun b hb c hc => hapart _ (mem_map_of_mem hb) _ (mem_map_of_mem hc)⟩

theorem unlinkNode_beside {ch : Forest Entry} (h : t.Represents (plug (.beside a ch :: k) (node e child next))) :
    t.nodes.parent e.addr = a.addr ∧ a.addr ≠ 0 ∧ t.nodes.left a.addr ≠ e.addr ∧ t.nodes.right a.addr = e.addr := by
  obtain ⟨⟨⟨-, hleft, hright, -⟩, -⟩, hparent, -⟩ := linked_plug.1 h.linked
  have ha : a ∈ (plug (.beside a ch :: k) (node e child next)).toList := by
    refine mem_plug.2 (.inl ?_)
    exact mem_append_left _ mem_cons_self
  refine ⟨hparent, h.addr_ne_zero ha, fun hc => ?_, hright⟩
  rw [hleft] at hc
  cases ch with
  | nil => exact h.addr_ne_zero (mem_plug.2 (.inr mem_cons_self)) hc.symm
  | node b ch' nx =>
    exact h.apart (mem_cons_of_mem _ mem_cons_self) mem_cons_self hc.symm

theorem genericDeleteNode_spec {ch : Forest Entry} (h : t.Represents (plug (.beside a ch :: k) (node e child next))) :
    ∃ N, genericDeleteNode t.nodes e.addr = .ok N ∧ (node e child nil).Linked Entry.addr N 0 ∧
      (next = nil → (plug (.beside a ch :: k) nil).Linked Entry.addr N 0) := by
  obtain ⟨hparent, ha, hleft, hright⟩ := unlinkNode_beside h
  obtain ⟨-, helow, henext⟩ := h.linked.node
  have hpos : t.nodes.parent e.addr ≠ 0 := by rw [hparent]; exact ha
  have hnotleft : t.nodes.left (t.nodes.parent e.addr) ≠ e.addr := by rw [hparent]; exact hleft
  have hisright : t.nodes.right (t.nodes.parent e.addr) = e.addr := by rw [hparent]; exact hright
  by_cases hnil : next = nil
  · subst hnil
    have hzero : ¬t.nodes.right e.addr ≠ 0 := not_not.2 henext
    obtain ⟨hrest, hself⟩ := h.linked.detach h.addrs_nodup
    refine ⟨_, ?_, hself, fun _ => hrest⟩
    simp only [genericDeleteNode, unlinkNode, FsFault.unless_of hpos, if_neg hnotleft, FsFault.unless_of hisright,
      if_neg hzero, bind, Except.bind]
    rw [hparent, henext]
    rfl
  obtain ⟨b, ch', nx, rfl⟩ : ∃ b ch' nx, next = node b ch' nx := by
    cases next with
    | nil => exact absurd rfl hnil
    | node b ch' nx => exact ⟨b, ch', nx, rfl⟩
  obtain ⟨hbelow, hbehind, hapart⟩ := h.node_apart
  have hb : e.addr ≠ b.addr := (hbehind b mem_cons_self).symm
  have hnext : t.nodes.right e.addr ≠ 0 := by
    rw [henext]
    exact h.addr_ne_zero (mem_plug.2 (.inr (mem_cons_of_mem _ (mem_append_right _ mem_cons_self))))
  set N := (((t.nodes.setParent b.addr b.addr).setRight a.addr b.addr).setRight e.addr 0).setParent e.addr 0 with hN
  have hsame : ∀ c ∈ child.toList, t.nodes.EqAt N c.addr := fun c hc =>
    (((Nodes.eqAt_setParent b.addr (hapart c hc b mem_cons_self)).trans
      (Nodes.eqAt_setRight b.addr (h.apart mem_cons_self (mem_cons_of_mem _ (mem_append_left _ hc))))).trans
      (Nodes.eqAt_setRight 0 (hbelow c hc))).trans (Nodes.eqAt_setParent 0 (hbelow c hc))
  obtain ⟨-, -, -, hchild, -⟩ := (linked_plug.1 h.linked).2
  refine ⟨N, ?_, ⟨update_self .., helow, update_self .., hchild.congr hsame, trivial⟩, fun hc => absurd hc hnil⟩
  have hparent' : (t.nodes.setParent (t.nodes.right e.addr) (t.nodes.right e.addr)).parent e.addr = a.addr := by
    rw [henext]
    exact (update_of_ne hb ..).trans hparent
  simp only [genericDeleteNode, unlinkNode, FsFault.unless_of hpos, if_neg hnotleft, FsFault.unless_of hisright,
    if_pos hnext, bind, Except.bind]
  rw [hparent', Nodes.right_setParent, henext, hN]
  rfl

theorem FileTree.Represents.rest (h : t.Represents (plug K l)) {N : Nodes} {live : List ℕ}
    (hlinked : (plug K nil).Linked Entry.addr N 0)
    (hkeep : ∀ y ∈ t.live, (∀ e ∈ l.toList, y ∉ t.blocksOf e) → y ∈ live) :
    FileTree.Represents { t with nodes := N, live := live } (plug K nil) := by
  have hperm := FileTree.blocks_plug t K l
  have hperm' : (t.blocks (plug K nil)).Perm ((K.flatMap Forest.Frame.toList).flatMap t.blocksOf) := by
    have hrest := FileTree.blocks_plug t K nil
    rwa [show t.blocks nil = [] from rfl, append_nil] at hrest
  have hnd := hperm.nodup_iff.1 h.nodup
  rw [nodup_append] at hnd
  have hold : ∀ y ∈ t.blocks (plug K nil), y ∈ t.blocks (plug K l) := fun y hy =>
    hperm.mem_iff.2 (mem_append_left _ (hperm'.subset hy))
  refine ⟨hlinked, fun e he => ?_, hperm'.nodup_iff.2 hnd.1, fun y hy => ?_, fun h0 => h.ne_zero (hold 0 h0)⟩
  · exact h.label e (mem_plug.2 (.inl ((mem_plug.1 he).resolve_right not_mem_nil)))
  refine hkeep y (h.live y (hold y hy)) fun e he hc => ?_
  exact hnd.2.2 y (hperm'.subset hy) y (mem_flatMap.2 ⟨e, he, hc⟩) rfl

theorem Shaped.beside_of_name (hs : Shaped true (plug k (node e child next))) (hname : e.name ≠ .empty) :
    ∃ a ch k', k = .beside a ch :: k' := by
  have hnode := hs.of_plug
  cases k with
  | nil => exact absurd hnode.2.1 hname
  | cons f k =>
    cases f with
    | below a nx => exact absurd hnode.2.1 hname
    | beside a ch => exact ⟨a, ch, k, rfl⟩

/-- **A deletion fails no assertion, and without a next sibling a tree is left.** -/
theorem hierarchyDeleteFile_spec {names : List CString} (h : t.Represents T) (hs : Shaped true T)
    (hempty : CString.empty ∉ names) :
    ∃ t' r, hierarchyDeleteFile deleteFileEntry t (T.root Entry.addr) names = .ok (t', r) ∧
      ((∀ x, hierarchySearchFile t (T.root Entry.addr) names = .ok x → x ≠ 0 → t.nodes.right x = 0) →
        ∃ T', t'.Represents T' ∧ Shaped true T' ∧ T'.root Entry.addr = T.root Entry.addr) := by
  have hsearch := hierarchySearchFile_spec h names
  cases hfind : T.find Entry.name names with
  | none =>
    rw [hfind] at hsearch
    refine ⟨t, -errNotFound, ?_, fun _ => ⟨T, h, hs, rfl⟩⟩
    simp only [hierarchyDeleteFile, hsearch, bind, Except.bind]
    exact if_pos rfl
  | some e =>
    have hname : e.name ≠ .empty := name_ne_empty hfind hempty
    obtain ⟨k, child, next, hplug, -⟩ := find_split (k := []) hfind trivial
    obtain rfl : T = plug k (node e child next) := hplug
    obtain ⟨a, ch, k, rfl⟩ := hs.beside_of_name hname
    rw [hfind] at hsearch
    have hsearch' : hierarchySearchFile t
        ((plug (.beside a ch :: k) (node e child next)).root Entry.addr) names = .ok e.addr := hsearch
    have he : e.addr ≠ 0 := h.addr_ne_zero (mem_of_find hfind)
    obtain ⟨N, hdelete, hself, hrest⟩ := genericDeleteNode_spec h
    have hmem : ∀ b ∈ (node e child nil).toList, b ∈ (node e child next).toList := fun b hb => by
      rcases mem_cons.1 hb with rfl | hb
      · exact mem_cons_self
      rw [toList, append_nil] at hb
      exact mem_cons_of_mem _ (mem_append_left _ hb)
    obtain ⟨live, hreclaim, hkeep⟩ := reclaimLoop_spec (t := { t with nodes := N }) (n := t.fuel)
      (Q := [node e child nil])
      (fun l hl => by
        obtain rfl := mem_singleton.1 hl
        exact ⟨Forest.Frame.fill_ne_nil (.below e nil) child, 0, hself⟩)
      (fun b hb => by
        rw [flatMap_singleton] at hb
        exact h.addr_ne_zero (mem_plug.2 (.inr (hmem b hb))))
      (by
        have hfuel := h.length_lt_fuel
        have hlen := (toList_plug (.beside a ch :: k) (node e child next)).length_eq
        rw [flatMap_singleton]
        simp only [toList, length_append, length_cons, length_nil] at hlen ⊢
        omega)
    refine ⟨{ t with nodes := N, live := live }, 0, ?_, fun hlast => ?_⟩
    · simp only [hierarchyDeleteFile, hsearch', bind, Except.bind, if_neg he, hdelete]
      rw [show [e.addr] = [node e child nil].map (Forest.root Entry.addr) from rfl, hreclaim]
    obtain rfl : next = nil := by
      have hzero := hlast e.addr hsearch' he
      rw [h.linked.node.2.2] at hzero
      by_contra hne
      obtain ⟨b, hb, heq⟩ := mem_map.1 (root_mem hne)
      exact h.addr_ne_zero (mem_plug.2 (.inr (mem_cons_of_mem _ (mem_append_right _ hb)))) (heq.trans hzero)
    refine ⟨plug (.beside a ch :: k) nil, h.rest (hrest rfl) fun y hy hnot => ?_, ?_, root_plug _ _⟩
    · exact hkeep y hy (by rwa [flatMap_singleton])
    · exact hs.replace trivial (fun _ _ _ => rfl) fun _ _ _ heq => by cases heq

end

end ZeldaOS
