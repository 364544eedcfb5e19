import ZeldaOS.Hierarchy.Delete
import ZeldaOS.Tmpfs.Tree

/-!
# Links after deletions

Runs of `tmpfs_create_file`, `tmpfs_create_dir` and `tmpfs_delete_file` on any paths and with any `malloc`.

* `links_survive_deletion`: links survive deletions of last siblings.
-/

namespace ZeldaOS

open Machine Machine.Forest

def tmpfsDeleteFile (root : ℕ) (t : FileTree) (path : CString) : Except FsFault (FileTree × ℤ) := do
  checkRoot t root
  hierarchyDeleteFile deleteFileEntry t root (← components path)

/-! ## Runs -/

inductive TreeOp where
  | createFile (path : CString)
  | createDir (path : CString)
  | delete (path : CString)

namespace TreeOp

def step (supply : ℕ → ℕ) (root : ℕ) (t : FileTree) : TreeOp → Except FsFault FileTree
  | createFile path => (tmpfsCreateFile supply root t path).map Prod.fst
  | createDir path => (tmpfsCreateDir supply root t path).map Prod.fst
  | delete path => (tmpfsDeleteFile root t path).map Prod.fst

def deleted : TreeOp → Option CString
  | delete path => some path
  | _ => Option.none

end TreeOp

def fileAt (root : ℕ) (t : FileTree) (path : CString) : Except FsFault ℕ := do
  hierarchySearchFile t root (← components path)

def DeletesLast (root : ℕ) (t : FileTree) (op : TreeOp) : Prop :=
  ∀ path ∈ op.deleted, ∀ x ∈ (fileAt root t path).toOption, x = 0 ∨ t.nodes.right x = 0

instance (root : ℕ) (t : FileTree) (op : TreeOp) : Decidable (DeletesLast root t op) :=
  inferInstanceAs (Decidable (∀ path ∈ op.deleted, _))

inductive Reachable (N : Nodes) (root : ℕ) : ℕ → Prop
  | root : Reachable N root root
  | left {x : ℕ} : Reachable N root x → N.left x ≠ 0 → Reachable N root (N.left x)
  | right {x : ℕ} : Reachable N root x → N.right x ≠ 0 → Reachable N root (N.right x)

/-- Every node but the root hangs in a link of its parent, `parent_of_node` is the directory, and the next deletion
fails no assertion. -/
structure LinksHold (root : ℕ) (t : FileTree) : Prop where
  links : ∀ x, Reachable t.nodes root x → x ≠ root → t.nodes.parent x ≠ 0 ∧ t.nodes.parent x ≠ x ∧
      (t.nodes.left (t.nodes.parent x) = x ∨ t.nodes.right (t.nodes.parent x) = x)
  parents : ∀ names c x, hierarchySearchFile t root (names ++ [c]) = .ok x → x ≠ 0 →
    ∃ d, hierarchySearchFile t root names = .ok d ∧ parentOfNode t x = .ok d
  deletes : ∀ path, (∃ t' r, tmpfsDeleteFile root t path = .ok (t', r)) ∨ tmpfsDeleteFile root t path = .error .overflow

section
variable {supply : ℕ → ℕ} {root x : ℕ} {t : FileTree} {T : Forest Entry}

theorem Reachable.mem (h : t.Represents T) (hT : T ≠ nil) (hx : Reachable t.nodes (T.root Entry.addr) x) :
    ∃ e ∈ T.toList, e.addr = x := by
  induction hx with
  | root => exact List.mem_map.1 (root_mem hT)
  | left _ hne ih =>
    obtain ⟨e, he, rfl⟩ := ih
    obtain ⟨k, child, next, rfl⟩ := exists_plug he
    rw [h.linked.node.2.1] at hne ⊢
    have hchild : child ≠ nil := fun hc => hne (by rw [hc]; rfl)
    obtain ⟨b, hb, heq⟩ := List.mem_map.1 (root_mem hchild)
    exact ⟨b, mem_plug.2 (.inr (List.mem_cons_of_mem _ (List.mem_append_left _ hb))), heq⟩
  | right _ hne ih =>
    obtain ⟨e, he, rfl⟩ := ih
    obtain ⟨k, child, next, rfl⟩ := exists_plug he
    rw [h.linked.node.2.2] at hne ⊢
    have hnext : next ≠ nil := fun hc => hne (by rw [hc]; rfl)
    obtain ⟨b, hb, heq⟩ := List.mem_map.1 (root_mem hnext)
    exact ⟨b, mem_plug.2 (.inr (List.mem_cons_of_mem _ (List.mem_append_right _ hb))), heq⟩

/-! ## Links -/

theorem FileTree.Represents.links (h : t.Represents T) (hT : T ≠ nil)
    (hx : Reachable t.nodes (T.root Entry.addr) x) (hne : x ≠ T.root Entry.addr) :
    t.nodes.parent x ≠ 0 ∧ t.nodes.parent x ≠ x ∧
      (t.nodes.left (t.nodes.parent x) = x ∨ t.nodes.right (t.nodes.parent x) = x) := by
  obtain ⟨e, he, rfl⟩ := hx.mem h hT
  obtain ⟨k, child, next, rfl⟩ := exists_plug he
  cases k with
  | nil => exact absurd rfl hne
  | cons f k =>
    have hparent := h.linked.node.1
    have hlabel : f.label ∈ (plug (f :: k) (node e child next)).toList := by
      refine mem_plug.2 (.inl ?_)
      exact List.mem_append_left _ f.label_mem
    rw [hparent]
    refine ⟨h.addr_ne_zero hlabel, (h.apart f.label_mem List.mem_cons_self).symm, ?_⟩
    rcases h.linked.frame with ⟨a, nx, rfl, hleft, -⟩ | ⟨a, ch, rfl, hright⟩
    · exact .inl hleft
    · exact .inr hright

theorem FileTree.Represents.parents (h : t.Represents T) {names : List CString} {c : CString}
    (hx : hierarchySearchFile t (T.root Entry.addr) (names ++ [c]) = .ok x) (hne : x ≠ 0) :
    ∃ d, hierarchySearchFile t (T.root Entry.addr) names = .ok d ∧ parentOfNode t x = .ok d := by
  rw [hierarchySearchFile_spec h] at hx
  have hnode := Except.ok.inj hx
  obtain ⟨e, he⟩ : ∃ e, T.find Entry.name (names ++ [c]) = some e := by
    rw [← Option.ne_none_iff_exists']
    exact fun hc => hne (hnode.symm.trans ((nodeOf_eq_zero h _).2 hc))
  rw [he] at hnode
  obtain rfl : e.addr = x := hnode
  obtain ⟨k, child, next, hplug, hclear, hpath⟩ := find_split (k := []) he trivial
  obtain rfl : T = plug k (node e child next) := hplug
  obtain ⟨k1, k2, rfl, hb, hat⟩ := hclear.split
  have hnames : path Entry.name k2 = names := by
    rw [path_append_of_beside hb] at hpath
    have hpath' : path Entry.name k2 ++ [e.name] = names ++ [c] := hpath
    exact (List.append_inj' hpath' rfl).1
  refine ⟨_, hierarchySearchFile_spec h names, ?_⟩
  have hfirst := firstSibling_spec (n := t.fuel) h hb hat (Forest.Frame.fill_ne_nil (.below e next) child) (by
    have hfuel := h.length_lt_fuel
    have hlen := (toList_plug (k1 ++ k2) (node e child next)).length_eq
    have hframes := length_le_frames k1
    rw [List.length_append, List.flatMap_append, List.length_append] at hlen
    omega)
  have hfirst' : firstSibling t.nodes t.fuel e.addr = .ok ((plug k1 (node e child next)).root Entry.addr) := hfirst
  rw [parentOfNode, if_neg hne, hfirst']
  refine congrArg Except.ok ?_
  -- the first sibling hangs below the directory, if there is one
  have hlevel : plug k1 (node e child next) ≠ nil := by
    cases k1 with
    | nil => exact Forest.Frame.fill_ne_nil (.below e next) child
    | cons f k1 => exact plug_ne_nil f k1 _
  have hparent := (h.of_plug_append).parent_root hlevel
  rw [hparent, ← hnames]
  cases k2 with
  | nil => rfl
  | cons f k =>
    cases f with
    | beside a ch => exact hat.elim
    | below a nx =>
      have hfound := find_owner hat (plug k1 (node e child next))
      rw [← plug_append] at hfound
      rw [hfound]
      rfl

structure TreeInv (root : ℕ) (t : FileTree) (T : Forest Entry) : Prop where
  represents : t.Represents T
  shaped : Shaped true T
  root : T.root Entry.addr = root
  ne_nil : T ≠ nil

theorem TreeInv.next {t' : FileTree} {T' : Forest Entry} (h : TreeInv root t T) (hrep : t'.Represents T')
    (hs : Shaped true T') (hroot : T'.root Entry.addr = T.root Entry.addr) : TreeInv root t' T' := by
  refine ⟨hrep, hs, hroot.trans h.root, fun hnil => ?_⟩
  rw [hnil] at hroot
  exact root_ne_zero (K := []) h.represents h.ne_nil hroot.symm

theorem TreeInv.checkRoot (h : TreeInv root t T) : ZeldaOS.checkRoot t root = .ok () := by
  rw [← h.root]
  exact checkRoot_of h.represents h.shaped h.ne_nil

theorem TreeInv.tmpfsDeleteFile (h : TreeInv root t T) (path : CString) :
    ZeldaOS.tmpfsDeleteFile root t path = .error .overflow ∨ ∃ t' r, ZeldaOS.tmpfsDeleteFile root t path = .ok (t', r) ∧
        (DeletesLast root t (.delete path) → ∃ T', TreeInv root t' T') := by
  rcases components_cases path with hpath | ⟨names, hpath, hnames⟩
  · refine .inl ?_
    simp only [ZeldaOS.tmpfsDeleteFile, h.checkRoot, hpath, bind, Except.bind]
  obtain ⟨t', r, hdelete, hlast⟩ := hierarchyDeleteFile_spec h.represents h.shaped
    fun hc : CString.empty ∈ names => (hnames _ hc).1 rfl
  rw [h.root] at hdelete hlast
  refine .inr ⟨t', r, ?_, fun hop => ?_⟩
  · simp only [ZeldaOS.tmpfsDeleteFile, h.checkRoot, hpath, hdelete, bind, Except.bind]
  obtain ⟨T', hrep, hs, hroot⟩ := hlast fun x hx hne => by
    refine (hop path rfl x ?_).resolve_left hne
    rw [fileAt, hpath]
    change x ∈ (hierarchySearchFile t root names).toOption
    rw [hx]
    rfl
  exact ⟨T', h.next hrep hs (hroot.trans h.root.symm)⟩

theorem TreeInv.linksHold (h : TreeInv root t T) : LinksHold root t where
  links x hx hne := by
    rw [← h.root] at hx hne
    exact h.represents.links h.ne_nil hx hne
  parents names c x hx hne := by
    rw [← h.root] at hx ⊢
    exact h.represents.parents hx hne
  deletes path := by
    rcases h.tmpfsDeleteFile path with hoverflow | ⟨t', r, hdelete, -⟩
    · exact .inr hoverflow
    · exact .inl ⟨t', r, hdelete⟩

/-- **One call**: a tree is left, or `malloc` failed, or the path does not fit. -/
theorem treeInv_step (h : ∃ T, TreeInv root t T) (op : TreeOp) (hop : DeletesLast root t op) :
    Ends (fun t' => ∃ T', TreeInv root t' T') (fun e => e = .null ∨ e = .overflow) (op.step supply root t) := by
  obtain ⟨T, h⟩ := h
  cases op with
  | createFile path =>
    rcases components_cases path with hpath | ⟨names, hpath, hnames⟩
    · simp only [TreeOp.step, tmpfsCreateFile, h.checkRoot, hpath, bind, Except.bind]
      exact .inr rfl
    have hspec := createFileAt_spec supply hnames h.represents h.shaped h.ne_nil
    rw [h.root] at hspec
    simp only [TreeOp.step, tmpfsCreateFile, h.checkRoot, hpath, bind, Except.bind]
    rcases hspec with ⟨hrun, -⟩ | ⟨t', T', x, hrun, hout⟩
    · rw [hrun]
      exact .inl rfl
    rw [hrun]
    exact ⟨T', h.next hout.represents hout.shaped hout.root⟩
  | createDir path =>
    rcases components_cases path with hpath | ⟨names, hpath, hnames⟩
    · simp only [TreeOp.step, tmpfsCreateDir, h.checkRoot, hpath, bind, Except.bind]
      exact .inr rfl
    obtain ⟨t', T', x, hrun, hout⟩ := createDirAt_spec supply hnames h.represents h.shaped h.ne_nil
    rw [h.root] at hrun
    simp only [TreeOp.step, tmpfsCreateDir, h.checkRoot, hpath, hrun, bind, Except.bind]
    exact ⟨T', h.next hout.represents hout.shaped hout.root⟩
  | delete path =>
    rw [TreeOp.step]
    rcases h.tmpfsDeleteFile path with hoverflow | ⟨t', r, hdelete, hlast⟩
    · rw [hoverflow]
      exact .inr rfl
    rw [hdelete]
    exact hlast hop

end

/-- **Links survive deletions of last siblings.** -/
theorem links_survive_deletion (supply : ℕ → ℕ) (root : ℕ) (hroot : root ≠ 0) (ops : List TreeOp)
    (hlast : Along (TreeOp.step supply root) (DeletesLast root) (tmpfsStart root).tree ops) :
    Ends (LinksHold root) (fun e => e = .null ∨ e = .overflow)
      (runSteps (TreeOp.step supply root) (tmpfsStart root).tree ops) := by
  have hstart : TreeInv root (tmpfsStart root).tree (node ⟨root, .empty, .mark⟩ nil nil) :=
    ⟨represents_start hroot, ⟨rfl, rfl, rfl, trivial⟩, rfl, Forest.Frame.fill_ne_nil (.below _ nil) nil⟩
  refine (ends_run (fun t op h hop => treeInv_step h op hop) ⟨_, hstart⟩ hlast).imp (fun t ht => ?_) fun _ he => he
  obtain ⟨T, h⟩ := ht
  exact h.linksHold

theorem links_survive_deletion_small : (runSteps (TreeOp.step (· + 2) 1) (tmpfsStart 1).tree
        [.createFile (letterPath [0]).path, .createFile (letterPath [1]).path, .delete (letterPath [1]).path]).isOk =
        true ∧ Ends (LinksHold 1) (fun e => e = .null ∨ e = .overflow)
        (runSteps (TreeOp.step (· + 2) 1) (tmpfsStart 1).tree
          [.createFile (letterPath [0]).path, .createFile (letterPath [1]).path, .delete (letterPath [1]).path]) :=
  ⟨by decide +kernel, links_survive_deletion (· + 2) 1 (by decide) _ (by decide +kernel)⟩

/-- **The next sibling of a deleted file becomes its own parent**, and its deletion fails an assertion. -/
theorem sibling_adopts_itself : ∃ t, runSteps (TreeOp.step (· + 2) 1) (tmpfsStart 1).tree
        [.createFile (letterPath [0]).path, .createFile (letterPath [1]).path, .delete (letterPath [0]).path] = .ok t ∧
      Reachable t.nodes 1 4 ∧ t.nodes.parent 4 = 4 ∧ tmpfsDeleteFile 1 t (letterPath [1]).path = .error .assertion := by
  refine ⟨_, rfl, ?_, rfl, rfl⟩
  exact .right .root (by decide +kernel)

end ZeldaOS
