import ZeldaOS.Hierarchy.Files

/-!
# Searches in the tree of files

The walks of the hierarchy functions, in a tree that the files lay out.

* `hierarchySearchFile_spec`: a path leads to the file that the tree has there.
-/

namespace ZeldaOS

open Machine Machine.Forest
open List hiding nil

section
variable {t : FileTree} {T l child next : Forest Entry} {k K : List (Forest.Frame Entry)} {a : Entry} {c : CString}
    {n p : ℕ}

theorem FileTree.Represents.of_plug (h : t.Represents (plug K l)) :
    l.Linked Entry.addr t.nodes (owner Entry.addr 0 K) ∧ ∀ e ∈ l.toList, t.name e.addr = e.name ∧ e.addr ≠ 0 :=
  ⟨(linked_plug.1 h.linked).2, fun e he =>
    ⟨(h.label e (mem_plug.2 (.inr he))).1, h.addr_ne_zero (mem_plug.2 (.inr he))⟩⟩

theorem FileTree.Represents.of_plug_append (h : t.Represents (plug (k ++ K) l)) :
    (plug k l).Linked Entry.addr t.nodes (owner Entry.addr 0 K) := by
  have hlinked := h.linked
  rw [plug_append, linked_plug] at hlinked
  exact hlinked.2

theorem FileTree.Represents.spine_lt_fuel (h : t.Represents (plug K l)) : l.spine.length < t.fuel := by
  have hfuel := h.length_lt_fuel
  have hlength := (toList_plug K l).length_eq
  have hspine := (spine_sublist l).length_le
  rw [length_append] at hlength
  omega

theorem FileTree.Represents.left_below (h : t.Represents (plug (.below a next :: K) l)) :
    t.nodes.left a.addr = l.root Entry.addr := by
  rcases h.linked.frame with ⟨b, nx, heq, hleft, -⟩ | ⟨b, ch, heq, -⟩
  · cases heq
    exact hleft
  · cases heq

theorem root_ne_zero (h : t.Represents (plug K l)) (hl : l ≠ nil) : l.root Entry.addr ≠ 0 := by
  cases l with
  | nil => exact absurd rfl hl
  | node a child next => exact (h.of_plug.2 a mem_cons_self).2

theorem FileTree.Represents.root_ne_next (h : t.Represents (plug (.below a next :: K) l)) (hl : l ≠ nil) :
    next.root Entry.addr ≠ l.root Entry.addr := by
  have hnd := h.addrs_nodup
  rw [nodup_plug, map_append, nodup_append] at hnd
  cases next with
  | nil => exact (root_ne_zero h hl).symm
  | node b ch nx =>
    refine hnd.2.2 _ (mem_map_of_mem (f := Entry.addr) ?_) _ (root_mem hl)
    rw [flatMap_cons]
    exact mem_append_left _ (mem_cons_of_mem _ mem_cons_self)

/-! ## Siblings -/

theorem firstSibling_spec (h : t.Represents (plug (k ++ K) l)) (hk : Beside k) (hK : AtLevel Entry.name K)
    (hl : l ≠ nil) (hn : k.length < n) :
    firstSibling t.nodes n (l.root Entry.addr) = .ok ((plug k l).root Entry.addr) := by
  obtain ⟨n, rfl⟩ : ∃ m, n = m + 1 := ⟨n - 1, by omega⟩
  induction k generalizing l n with
  | nil =>
    obtain ⟨a, child, next, rfl⟩ : ∃ a child next, l = node a child next := by
      cases l with
      | nil => exact absurd rfl hl
      | node a child next => exact ⟨a, child, next, rfl⟩
    have hparent : t.nodes.parent a.addr = owner Entry.addr 0 K := h.linked.node.1
    rw [firstSibling, if_neg (root_ne_zero (K := K) h hl)]
    refine if_neg fun hc => ?_
    cases K with
    | nil => exact hc.1 hparent
    | cons f K =>
      cases f with
      | beside b ch => exact hK
      | below b nx =>
        rcases h.linked.frame with ⟨b', nx', heq, -, hright⟩ | ⟨b', ch', heq, -⟩
        · cases heq
          have hback : t.nodes.right (t.nodes.parent a.addr) = a.addr := hc.2
          rw [hparent] at hback
          exact h.root_ne_next hl (hright.symm.trans hback)
        · cases heq
  | cons f k ih =>
    obtain ⟨b, ch, rfl⟩ := hk f mem_cons_self
    rw [length_cons] at hn
    obtain ⟨n, rfl⟩ : ∃ m, n = m + 1 := ⟨n - 1, by omega⟩
    have hparent : t.nodes.parent (l.root Entry.addr) = b.addr := by
      cases l with
      | nil => exact absurd rfl hl
      | node a child next => exact h.linked.node.1
    have hright : t.nodes.right b.addr = l.root Entry.addr := by
      rcases h.linked.frame with ⟨b', nx', heq, -⟩ | ⟨b', ch', heq, hright⟩
      · cases heq
      cases heq
      exact hright
    have hb : b.addr ≠ 0 := root_ne_zero (K := k ++ K) (l := node b ch l) h (Forest.Frame.fill_ne_nil (.beside b ch) l)
    rw [firstSibling, if_neg (root_ne_zero (K := .beside b ch :: (k ++ K)) h hl),
      if_pos (by rw [hparent]; exact ⟨hb, hright⟩), hparent]
    exact ih (l := node b ch l) h (beside_cons.1 hk) (Forest.Frame.fill_ne_nil (.beside b ch) l) n (by omega)

theorem firstSibling_level (h : t.Represents (plug K l)) (hK : AtLevel Entry.name K) :
    firstSibling t.nodes t.fuel (l.root Entry.addr) = .ok (l.root Entry.addr) := by
  by_cases hl : l = nil
  · rw [hl, FileTree.fuel, firstSibling]
    exact if_pos rfl
  · exact firstSibling_spec (k := []) h beside_nil hK hl (Nat.succ_pos _)

theorem siblingsFrom_spec (h : l.Linked Entry.addr t.nodes p) (hz : ∀ e ∈ l.toList, e.addr ≠ 0)
    (hn : l.spine.length < n) : siblingsFrom t.nodes n (l.root Entry.addr) = .ok (l.spine.map Entry.addr) := by
  induction l generalizing n p with
  | nil =>
    obtain ⟨n, rfl⟩ : ∃ m, n = m + 1 := ⟨n - 1, by omega⟩
    exact if_pos rfl
  | node a child next _ ih =>
    obtain ⟨n, rfl⟩ : ∃ m, n = m + 1 := ⟨n - 1, by omega⟩
    obtain ⟨-, -, hright, -, hnext⟩ := h
    rw [toList, forall_mem_cons, forall_mem_append] at hz
    have hlevel := ih (n := n) hnext hz.2.2 (by rw [spine, length_cons] at hn; omega)
    rw [root, siblingsFrom, if_neg hz.1, hright, hlevel]
    rfl

theorem siblings_spec (h : t.Represents (plug K l)) (hK : AtLevel Entry.name K) :
    siblings t (l.root Entry.addr) = .ok (l.spine.map Entry.addr) := by
  rw [siblings, firstSibling_level h hK]
  exact siblingsFrom_spec h.of_plug.1 (fun e he => (h.of_plug.2 e he).2) h.spine_lt_fuel

theorem lastSibling_spec (h : l.Linked Entry.addr t.nodes p) (hz : ∀ e ∈ l.toList, e.addr ≠ 0) (hl : l ≠ nil)
    (hn : l.spine.length < n) : ∃ b ch k, l = plug (.beside b ch :: k) nil ∧ Beside (.beside b ch :: k) ∧
      (∀ f ∈ (.beside b ch :: k : List (Forest.Frame Entry)), f.label ∈ l.spine) ∧
      lastSibling t.nodes n (l.root Entry.addr) = .ok b.addr := by
  induction l generalizing n p with
  | nil => exact absurd rfl hl
  | node a child next _ ih =>
    obtain ⟨n, rfl⟩ : ∃ m, n = m + 1 := ⟨n - 1, by omega⟩
    obtain ⟨-, -, hright, -, hnext⟩ := h
    rw [toList, forall_mem_cons, forall_mem_append] at hz
    rw [root, lastSibling, hright]
    by_cases hnil : next = nil
    · subst hnil
      refine ⟨a, child, [], rfl, beside_cons.2 beside_nil, fun f hf => ?_, if_pos rfl⟩
      rw [mem_singleton.1 hf]
      exact mem_cons_self
    obtain ⟨b, ch, k, hplug, hb, hspine, hlast⟩ := ih (n := n) hnext hz.2.2 hnil
      (by rw [spine, length_cons] at hn; omega)
    have hroot : next.root Entry.addr ≠ 0 := by
      have hmem : next.root Entry.addr ∈ next.toList.map Entry.addr := root_mem hnil
      obtain ⟨e, he, heq⟩ := mem_map.1 hmem
      exact heq ▸ hz.2.2 e he
    refine ⟨b, ch, k ++ [.beside a child], ?_, ?_, fun f hf => ?_, ?_⟩
    · rw [← cons_append, plug_append, ← hplug]
      rfl
    · exact hb.concat a child
    · rw [← cons_append] at hf
      rcases mem_append.1 hf with hf | hf
      · exact mem_cons_of_mem _ (hspine f hf)
      rw [mem_singleton.1 hf]
      exact mem_cons_self
    · rw [if_neg hroot]
      exact hlast

/-! ## Paths -/

theorem searchFrom_spec (h : l.Linked Entry.addr t.nodes p)
    (hlabel : ∀ e ∈ l.toList, t.name e.addr = e.name ∧ e.addr ≠ 0) (hn : l.spine.length < n) :
    searchFrom t c n (l.root Entry.addr) = .ok ((l.lookup Entry.name c).map fun r => r.1.addr) := by
  induction l generalizing n p with
  | nil =>
    obtain ⟨n, rfl⟩ : ∃ m, n = m + 1 := ⟨n - 1, by omega⟩
    exact if_pos rfl
  | node a child next _ ih =>
    obtain ⟨n, rfl⟩ : ∃ m, n = m + 1 := ⟨n - 1, by omega⟩
    obtain ⟨-, -, hright, -, hnext⟩ := h
    rw [toList, forall_mem_cons, forall_mem_append] at hlabel
    rw [root, searchFrom, if_neg hlabel.1.2, hlabel.1.1, Forest.lookup]
    by_cases hname : a.name = c
    · rw [if_pos hname, if_pos (strcmp_eq_zero.2 hname)]
      rfl
    rw [if_neg hname, if_neg fun hc => hname (strcmp_eq_zero.1 hc), hright]
    exact ih hnext hlabel.2.2 (by rw [spine, length_cons] at hn; omega)

theorem searchSibling_spec (h : t.Represents (plug K l)) (hK : AtLevel Entry.name K) (c : CString) :
    searchSibling t (l.root Entry.addr) c = .ok ((l.lookup Entry.name c).map fun r => r.1.addr) := by
  rw [searchSibling, firstSibling_level h hK]
  exact searchFrom_spec h.of_plug.1 h.of_plug.2 h.spine_lt_fuel

theorem level_below (hK : AtLevel Entry.name K) (hlookup : l.lookup Entry.name c = some (a, child)) :
    ∃ k next, l = plug k (node a child next) ∧ Beside k ∧ a.name = c ∧
      plug K l = plug (.below a next :: (k ++ K)) child ∧ AtLevel Entry.name (.below a next :: (k ++ K)) ∧
      path Entry.name (.below a next :: (k ++ K)) = path Entry.name K ++ [c] := by
  obtain ⟨k, next, hl, hk, hname, hat, hpath⟩ := hK.below hlookup
  refine ⟨k, next, hl, hk, hname, ?_, hat, hpath⟩
  rw [plug, plug_append, hl]
  rfl

theorem searchLevels_spec {names : List CString} (hne : names ≠ []) (h : t.Represents (plug K l))
    (hK : AtLevel Entry.name K) (file : ℕ) :
    searchLevels t names (l.root Entry.addr) file = .ok (nodeOf (l.find Entry.name names)) := by
  induction names generalizing K l file with
  | nil => exact absurd rfl hne
  | cons c cs ih =>
    rw [searchLevels, searchSibling_spec h hK c]
    cases hlookup : l.lookup Entry.name c with
    | none =>
      have hnone : l.find Entry.name (c :: cs) = Option.none := by
        by_cases hcs : cs = []
        · rw [hcs, find_singleton, hlookup]
          rfl
        rw [find_cons hcs, hlookup]
        rfl
      rw [hnone]
      rfl
    | some r =>
      obtain ⟨a, child⟩ := r
      obtain ⟨k, next, -, -, -, hplug, hat, -⟩ := level_below hK hlookup
      have hbelow : t.Represents (plug (.below a next :: (k ++ K)) child) := hplug ▸ h
      have hleft : t.nodes.left a.addr = child.root Entry.addr := hbelow.left_below
      change searchLevels t cs (t.nodes.left a.addr) a.addr = _
      by_cases hcs : cs = []
      · rw [hcs, find_singleton, hlookup]
        rfl
      rw [hleft, find_cons hcs, hlookup]
      exact ih hcs hbelow hat a.addr

/-- **A path leads to the file that the tree has there.** -/
theorem hierarchySearchFile_spec (h : t.Represents T) (names : List CString) :
    hierarchySearchFile t (T.root Entry.addr) names = .ok (nodeOf (T.find Entry.name names)) := by
  by_cases hne : names = []
  · rw [hne]
    rfl
  · exact searchLevels_spec (K := []) hne h trivial 0

end

end ZeldaOS
