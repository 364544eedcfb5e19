import ZeldaOS.Tmpfs.Namespace
import ZeldaOS.Vfs.Canonical

/-!
# The namespace is a tree

Runs of `tmpfs_create_file` and `tmpfs_create_dir` on canonical paths, when `malloc` does not fail.

* `namespace_is_tree`: the namespace is a finite tree.
-/

namespace ZeldaOS

open Machine Machine.Forest
open List hiding nil

/-! ## Runs -/

inductive TmpfsOp where
  | createFile (p : CanonicalPath)
  | createDir (p : CanonicalPath)

namespace TmpfsOp

def names : TmpfsOp → List CString
  | createFile p => p.names
  | createDir p => p.names

def Fits : TmpfsOp → Prop
  | createFile p => p.Fits
  | createDir p => p.Fits

instance : (op : TmpfsOp) → Decidable op.Fits
  | createFile p => inferInstanceAs (Decidable p.Fits)
  | createDir p => inferInstanceAs (Decidable p.Fits)

def type : TmpfsOp → FileType
  | createFile _ => .regular
  | createDir _ => .dir

def call (supply : ℕ → ℕ) (root : ℕ) (t : FileTree) : TmpfsOp → Except FsFault (FileTree × ℕ)
  | createFile p => tmpfsCreateFile supply root t p.path
  | createDir p => tmpfsCreateDir supply root t p.path

end TmpfsOp

structure TmpfsRun where
  tree : FileTree
  log : List (List CString × FileType)

def TmpfsRun.step (supply : ℕ → ℕ) (root : ℕ) (s : TmpfsRun) (op : TmpfsOp) : Except FsFault TmpfsRun := do
  let (tree, x) ← op.call supply root s.tree
  .ok ⟨tree, if x = 0 then s.log else (op.names, op.type) :: s.log⟩

def tmpfsStart (root : ℕ) : TmpfsRun where
  tree := ⟨⟨fun _ => 0, fun _ => 0, fun _ => 0⟩, fun _ => .empty, fun _ => .mark, fun _ => 0, fun _ => 0, [root], 0⟩
  log := []

/-- The path was created with the type, by a call for it or, as a directory, for a path below it. -/
def PathCreated (log : List (List CString × FileType)) (ps : List CString) (type : FileType) : Prop :=
  ps ≠ [] ∧ ∃ q ∈ log, ps <+: q.1 ∧ type = if ps = q.1 then q.2 else .dir

/-- For the root, below a regular file, or for a path that exists and cannot be returned. -/
def Refused (log : List (List CString × FileType)) (op : TmpfsOp) : Prop :=
  op.names = [] ∨ (∃ ps, ps <+: op.names ∧ ps ≠ op.names ∧ PathCreated log ps .regular) ∨
    ∃ type, PathCreated log op.names type ∧ (op.type = .dir → type = .regular)

def levelOf (root : ℕ) (t : FileTree) (x : ℕ) : Except FsFault (List ℕ) :=
  if x = root then siblings t root else children t x

/-- Every level begins with its only mark and has no name twice, and a path opens what was created. -/
structure NamespaceTree (root : ℕ) (s : TmpfsRun) : Prop where
  levels : ∀ (p : CanonicalPath) (x : ℕ), p.Fits → tmpfsOpenFile root s.tree p.path = .ok x →
    x = root ∨ x ≠ 0 ∧ s.tree.type x = .dir →
    ∃ m rest, levelOf root s.tree x = .ok (m :: rest) ∧ s.tree.type m = .mark ∧
      (∀ y ∈ rest, s.tree.type y ≠ .mark) ∧ ((m :: rest).map s.tree.name).Nodup
  opens : ∀ p : CanonicalPath, p.Fits → ∃ x, tmpfsOpenFile root s.tree p.path = .ok x ∧ (p.names = [] → x = root) ∧
    (p.names ≠ [] → ∀ type, x ≠ 0 ∧ s.tree.type x = type ↔ PathCreated s.log p.names type)

/-- The files lay out `T`, in which each directory has its mark, and whose paths are those of the log. -/
structure TmpfsInv (supply : ℕ → ℕ) (root : ℕ) (s : TmpfsRun) (T : Forest Entry) : Prop where
  represents : s.tree.Represents T
  shaped : Shaped true T
  marked : Marked T
  root : T.root Entry.addr = root
  ne_nil : T ≠ nil
  reliable : Reliable supply s.tree
  created : ∀ ps, CString.empty ∉ ps → ∀ type,
    (∃ e, T.find Entry.name ps = some e ∧ e.type = type) ↔ PathCreated s.log ps type

variable {p : CanonicalPath} {l T' : Forest Entry} {op : TmpfsOp}

section
variable {supply : ℕ → ℕ} {root : ℕ} {s : TmpfsRun} {t : FileTree} {T : Forest Entry}

/-! ## Lookups -/

theorem checkRoot_of (h : t.Represents T) (hs : Shaped true T) (hT : T ≠ nil) :
    checkRoot t (T.root Entry.addr) = .ok () := by
  cases T with
  | nil => exact absurd rfl hT
  | node m child next =>
    have hzero : (node m child next).root Entry.addr ≠ 0 := h.addr_ne_zero mem_cons_self
    have htype := (h.label m mem_cons_self).2.trans hs.1
    rw [checkRoot, FsFault.unless_of hzero]
    exact FsFault.unless_of htype

theorem CanonicalPath.path_ne_root : strcmp p.path slashPath = 0 ↔ p.names = [] := by
  rw [strcmp_eq_zero]
  constructor
  · intro heq
    have hbytes : pathBytes p.names = [slash] := by rw [← p.bytes_eq, heq]; rfl
    cases hnames : p.names with
    | nil => rfl
    | cons c cs =>
      have hc := (p.isName c (hnames ▸ mem_cons_self)).ne_empty
      rw [hnames, pathBytes, map_cons, joinWords, flatMap_cons] at hbytes
      · refine absurd ?_ hc
        simpa using congrArg (take c.bytes.length) (cons.inj hbytes).2
      · exact fun hc => by cases hc
  · intro hnames
    have hbytes : p.path.bytes = [slash] := by rw [p.bytes_eq, hnames]; rfl
    rw [← CString.ofBytes_bytes p.path, hbytes, ← CString.ofBytes_bytes slashPath]
    rfl

theorem tmpfsOpenFile_spec (h : t.Represents T) (hs : Shaped true T) (hT : T ≠ nil) (hp : p.Fits) :
    tmpfsOpenFile (T.root Entry.addr) t p.path =
      .ok (if p.names = [] then T.root Entry.addr else nodeOf (T.find Entry.name p.names)) := by
  rw [tmpfsOpenFile, checkRoot_of h hs hT]
  by_cases hnames : p.names = []
  · rw [if_pos hnames]
    exact if_pos (CanonicalPath.path_ne_root.2 hnames)
  rw [if_neg hnames]
  rw [if_neg fun hc => hnames (CanonicalPath.path_ne_root.1 hc), hp.components_eq]
  exact hierarchySearchFile_spec h p.names

theorem Shaped.spine_spec (h : Shaped false l) :
    (l.spine.map Entry.name).Nodup ∧ ∀ e ∈ l.spine, e.name ≠ .empty ∧ e.type ≠ .mark := by
  induction l with
  | nil => exact ⟨nodup_nil, fun e he => absurd he not_mem_nil⟩
  | node a child next _ ih =>
    obtain ⟨htype, hname, hlookup, -, -, hnext⟩ := h
    obtain ⟨hnd, hall⟩ := ih hnext
    refine ⟨nodup_cons.2 ⟨fun hc => ?_, hnd⟩, forall_mem_cons.2 ⟨⟨hname, fun hm => ?_⟩, hall⟩⟩
    · obtain ⟨b, hb, heq⟩ := mem_map.1 hc
      exact Forest.lookup_eq_none.1 hlookup b hb heq
    rw [hm] at htype
    exact htype.elim (fun hc => by cases hc) fun hc => by cases hc

theorem level_spec {K : List (Forest.Frame Entry)} (h : t.Represents (plug K l)) (hs : Shaped true (plug K l))
    (hK : AtLevel Entry.name K) (hl : l ≠ nil) :
    ∃ m rest, siblings t (l.root Entry.addr) = .ok (m :: rest) ∧ t.type m = .mark ∧
      (∀ y ∈ rest, t.type y ≠ .mark) ∧ ((m :: rest).map t.name).Nodup := by
  have hlevel := hs.of_plug
  rw [isFirst_of_atLevel hK] at hlevel
  have hlabel : ∀ e ∈ l.spine, t.name e.addr = e.name ∧ t.type e.addr = e.type := fun e he =>
    h.label e (mem_plug.2 (.inr ((spine_sublist l).subset he)))
  have hsiblings := siblings_spec h hK
  cases l with
  | nil => exact absurd rfl hl
  | node m child next =>
    obtain ⟨hmark, hempty, -, hnext⟩ := hlevel
    obtain ⟨hnd, hrest⟩ := hnext.spine_spec
    rw [spine, forall_mem_cons] at hlabel
    refine ⟨m.addr, next.spine.map Entry.addr, hsiblings, hlabel.1.2.trans hmark, fun y hy => ?_, ?_⟩
    · obtain ⟨e, he, rfl⟩ := mem_map.1 hy
      rw [(hlabel.2 e he).2]
      exact (hrest e he).2
    have hnames : (next.spine.map Entry.addr).map t.name = next.spine.map Entry.name := by
      rw [map_map]
      exact map_congr_left fun e he => (hlabel.2 e he).1
    rw [map_cons, hnames, hlabel.1.1, hempty]
    refine nodup_cons.2 ⟨fun hc => ?_, hnd⟩
    obtain ⟨e, he, heq⟩ := mem_map.1 hc
    exact (hrest e he).1 heq

theorem TmpfsInv.namespaceTree (h : TmpfsInv supply root s T) : NamespaceTree root s where
  levels p x hp hopen hdir := by
    rw [← h.root] at hopen hdir ⊢
    rw [tmpfsOpenFile_spec h.represents h.shaped h.ne_nil hp] at hopen
    by_cases hx : x = T.root Entry.addr
    · rw [levelOf, if_pos hx]
      exact level_spec (K := []) h.represents h.shaped trivial h.ne_nil
    rw [levelOf, if_neg hx]
    obtain ⟨hx0, htype⟩ := hdir.resolve_left hx
    split_ifs at hopen with hnames
    · exact absurd (Except.ok.inj hopen).symm hx
    have hnode := Except.ok.inj hopen
    obtain ⟨e, he⟩ : ∃ e, T.find Entry.name p.names = some e := by
      rw [← Option.ne_none_iff_exists']
      exact fun hc => hx0 (hnode.symm.trans ((nodeOf_eq_zero h.represents p.names).2 hc))
    rw [he] at hnode
    obtain rfl : e.addr = x := hnode
    obtain ⟨k, child, next, hplug, hclear, -⟩ := find_split (k := []) he trivial
    have hplace : T = plug (.below e next :: k) child := hplug
    have hetype : e.type = .dir := (h.represents.label e (mem_of_find he)).2.symm.trans htype
    have hm := h.marked
    have hrep := h.represents
    have hs := h.shaped
    rw [hplace] at hm hrep hs
    have hchild : child ≠ nil := (Marked.of_plug (k := k) hm).1 hetype
    rw [children, hrep.left_below]
    exact level_spec hrep hs hclear hchild
  opens p hp := by
    have hopen := tmpfsOpenFile_spec h.represents h.shaped h.ne_nil hp
    rw [h.root] at hopen
    refine ⟨_, hopen, fun hnames => if_pos hnames, fun hnames type => ?_⟩
    rw [if_neg hnames, ← h.created p.names p.empty_not_mem type]
    cases hfind : T.find Entry.name p.names with
    | none =>
      refine iff_of_false (fun hc => hc.1 rfl) fun hc => ?_
      obtain ⟨e, he, -⟩ := hc
      cases he
    | some e =>
      have hlabel := (h.represents.label e (mem_of_find hfind)).2
      have hzero := h.represents.addr_ne_zero (mem_of_find hfind)
      constructor
      · rintro ⟨-, htype⟩
        exact ⟨e, rfl, hlabel.symm.trans htype⟩
      rintro ⟨e', he', rfl⟩
      cases he'
      exact ⟨hzero, hlabel⟩

theorem TmpfsInv.root_mark (h : TmpfsInv supply root s T) : s.tree.type root = .mark := by
  have hlabel := h.represents.label
  have hshaped := h.shaped
  have hroot := h.root
  cases T with
  | nil => exact absurd rfl h.ne_nil
  | node m child next => rw [← hroot]; exact (hlabel m mem_cons_self).2.trans hshaped.1

/-! ## Calls -/

theorem TmpfsOp.call_spec (hop : op.Fits) (h : t.Represents T) (hs : Shaped true T) (hT : T ≠ nil)
    (hrel : Reliable supply t) :
    CString.empty ∉ op.names ∧ ∃ t' T' x, op.call supply (T.root Entry.addr) t = .ok (t', x) ∧
      Outcome supply op.type op.names t t' T T' x := by
  cases op with
  | createFile p =>
    refine ⟨p.empty_not_mem, ?_⟩
    have hcall : tmpfsCreateFile supply (T.root Entry.addr) t p.path =
        createFileAt supply (T.root Entry.addr) t p.names := by
      rw [tmpfsCreateFile, checkRoot_of h hs hT, CanonicalPath.Fits.components_eq hop]
      rfl
    rcases createFileAt_spec supply (CanonicalPath.Fits.names_fit hop) h hs hT with ⟨-, hrel'⟩ | ⟨t', T', x, hrun, hout⟩
    · exact absurd hrel hrel'
    · exact ⟨t', T', x, hcall.trans hrun, hout⟩
  | createDir p =>
    refine ⟨p.empty_not_mem, ?_⟩
    have hcall : tmpfsCreateDir supply (T.root Entry.addr) t p.path =
        createDirAt supply (T.root Entry.addr) t p.names := by
      rw [tmpfsCreateDir, checkRoot_of h hs hT, CanonicalPath.Fits.components_eq hop]
      rfl
    obtain ⟨t', T', x, hrun, hout⟩ := createDirAt_spec supply (CanonicalPath.Fits.names_fit hop) h hs hT
    exact ⟨t', T', x, hcall.trans hrun, hout⟩

theorem created_cons {names : List CString} {type : FileType} {log : List (List CString × FileType)}
    (hs : Shaped true T')
    (hlog : ∀ ps, CString.empty ∉ ps → ∀ ty, (∃ e, T.find Entry.name ps = some e ∧ e.type = ty) ↔ PathCreated log ps ty)
    (hmade : Made type names T T') (hfound : ∃ e, T'.find Entry.name names = some e ∧ e.type = type) {ps : List CString}
    (hps : CString.empty ∉ ps) (ty : FileType) :
    (∃ e, T'.find Entry.name ps = some e ∧ e.type = ty) ↔ PathCreated ((names, type) :: log) ps ty := by
  constructor
  · rintro ⟨e, he, rfl⟩
    have hne : ps ≠ [] := fun hnil => by rw [hnil, find_nil] at he; cases he
    cases hold : T.find Entry.name ps with
    | none => exact ⟨hne, _, mem_cons_self, hmade.new ps e hps hold he⟩
    | some e' =>
      have hsame := hmade.keep ps e' hold
      rw [he, Option.some.injEq] at hsame
      subst hsame
      obtain ⟨-, q, hq, hpre, htype⟩ := (hlog ps hps e.type).1 ⟨e, hold, rfl⟩
      exact ⟨hne, q, mem_cons_of_mem _ hq, hpre, htype⟩
  rintro ⟨hne, q, hq, hpre, rfl⟩
  rcases mem_cons.1 hq with rfl | hq
  · obtain ⟨e, he, htype⟩ := hfound
    by_cases heq : ps = names
    · exact ⟨e, heq ▸ he, by rw [if_pos heq]; exact htype⟩
    obtain ⟨rest, hrest⟩ := hpre
    have hrest' : ps ++ rest = names := hrest
    have hsome : T'.find Entry.name (ps ++ rest) ≠ Option.none := by
      rw [hrest', he]
      exact Option.some_ne_none e
    obtain ⟨d, hd⟩ := Option.ne_none_iff_exists'.1 (find_ne_none_of_append hne hsome)
    refine ⟨d, hd, ?_⟩
    rw [if_neg heq]
    exact hs.dir_of_append (fun hnil => heq (by rw [← hrest', hnil, append_nil])) hsome hd
  · obtain ⟨e, he, htype⟩ := (hlog ps hps _).2 ⟨hne, q, hq, hpre, rfl⟩
    exact ⟨e, hmade.keep ps e he, htype⟩

/-- **One call**: what resolved stays, and a call that returns `NULL` had to fail and changed nothing. -/
theorem tmpfsInv_step (h : TmpfsInv supply root s T) (hop : op.Fits) :
    ∃ s' T' x, op.call supply root s.tree = .ok (s'.tree, x) ∧ s.step supply root op = .ok s' ∧
      TmpfsInv supply root s' T' ∧ (∀ ps e, T.find Entry.name ps = some e → T'.find Entry.name ps = some e) ∧
      (x = 0 → s'.tree = s.tree ∧ Refused s.log op) := by
  obtain ⟨hempty, t', T', x, hcall, hout⟩ := TmpfsOp.call_spec hop h.represents h.shaped h.ne_nil h.reliable
  rw [h.root] at hcall
  have hne : T' ≠ nil := fun hnil => by
    have hroot := hout.root
    rw [hnil] at hroot
    exact root_ne_zero (K := []) h.represents h.ne_nil hroot.symm
  refine ⟨⟨t', if x = 0 then s.log else (op.names, op.type) :: s.log⟩, T', x, hcall, ?_,
    ⟨hout.represents, hout.shaped, hout.marked h.reliable h.marked, hout.root.trans h.root, hne,
      hout.reliable h.reliable, fun ps hps ty => ?_⟩, hout.made.keep, fun hx => ?_⟩
  · rw [TmpfsRun.step, hcall]
    rfl
  · by_cases hx : x = 0
    · obtain ⟨-, rfl, -⟩ := hout.failed h.reliable h.marked hx
      rw [if_pos hx]
      exact h.created ps hps ty
    rw [if_neg hx]
    obtain ⟨e, he, -, htype⟩ := hout.found hx
    exact created_cons hout.shaped h.created hout.made ⟨e, he, htype⟩ hps ty
  obtain ⟨rfl, -, hblocked⟩ := hout.failed h.reliable h.marked hx
  refine ⟨rfl, ?_⟩
  rcases hblocked with hnil | ⟨ps, e, -, hpre, hproper, he, htype⟩ | ⟨e, he, htype⟩
  · exact .inl hnil
  · exact .inr (.inl ⟨ps, hpre, hproper, (h.created ps (fun hc => hempty (hpre.subset hc)) .regular).1 ⟨e, he, htype⟩⟩)
  · exact .inr (.inr ⟨e.type, (h.created op.names hempty e.type).1 ⟨e, he, rfl⟩, htype⟩)

theorem TmpfsInv.opens_same {s' : TmpfsRun} (h : TmpfsInv supply root s T) (h' : TmpfsInv supply root s' T')
    (hkeep : ∀ ps e, T.find Entry.name ps = some e → T'.find Entry.name ps = some e) (hp : p.Fits) {x : ℕ}
    (hopen : tmpfsOpenFile root s.tree p.path = .ok x) (hx : x ≠ 0) :
    tmpfsOpenFile root s'.tree p.path = .ok x ∧ s'.tree.type x = s.tree.type x := by
  have hopen' := tmpfsOpenFile_spec h'.represents h'.shaped h'.ne_nil hp
  have hspec := tmpfsOpenFile_spec h.represents h.shaped h.ne_nil hp
  rw [h.root, hopen] at hspec
  rw [h'.root] at hopen'
  rw [hopen']
  have hx' := Except.ok.inj hspec
  by_cases hnames : p.names = []
  · rw [if_pos hnames] at hx' ⊢
    rw [hx']
    exact ⟨rfl, h'.root_mark.trans h.root_mark.symm⟩
  rw [if_neg hnames] at hx' ⊢
  obtain ⟨e, he⟩ : ∃ e, T.find Entry.name p.names = some e := by
    rw [← Option.ne_none_iff_exists']
    exact fun hc => hx (hx'.trans ((nodeOf_eq_zero h.represents p.names).2 hc))
  have he' := hkeep _ e he
  rw [he] at hx'
  rw [he', hx']
  refine ⟨rfl, ?_⟩
  change s'.tree.type e.addr = s.tree.type e.addr
  rw [(h.represents.label e (mem_of_find he)).2, (h'.represents.label e (mem_of_find he')).2]

theorem represents_start (hroot : root ≠ 0) :
    (tmpfsStart root).tree.Represents (node ⟨root, .empty, .mark⟩ nil nil) := by
  refine ⟨⟨rfl, rfl, rfl, trivial, trivial⟩, fun e he => ?_, ?_, ?_, ?_⟩
  · obtain rfl := mem_singleton.1 he
    exact ⟨rfl, rfl⟩
  · exact nodup_singleton root
  · exact fun x hx => hx
  · exact fun hc => hroot (mem_singleton.1 hc).symm

theorem tmpfsInv_start (hroot : root ≠ 0) (hsupply : Function.Injective supply)
    (hfresh : ∀ k, supply k ≠ 0 ∧ supply k ≠ root) :
    TmpfsInv supply root (tmpfsStart root) (node ⟨root, .empty, .mark⟩ nil nil) where
  represents := represents_start hroot
  shaped := ⟨rfl, rfl, rfl, trivial⟩
  marked := ⟨fun hc : FileType.mark = .dir => absurd hc (by decide), trivial, trivial⟩
  root := rfl
  ne_nil := Forest.Frame.fill_ne_nil (.below _ nil) nil
  reliable := ⟨hsupply, fun k _ => ⟨(hfresh k).1, fun hc => (hfresh k).2 (mem_singleton.1 hc)⟩⟩
  created ps hps type := by
    rw [find_mark rfl hps]
    exact iff_of_false (fun ⟨e, he, _⟩ => by cases he) fun ⟨_, q, hq, _⟩ => absurd hq not_mem_nil

end

/-- **The namespace of a tmpfs is a finite tree.** -/
theorem namespace_is_tree (supply : ℕ → ℕ) (root : ℕ) (hroot : root ≠ 0) (hsupply : Function.Injective supply)
    (hfresh : ∀ k, supply k ≠ 0 ∧ supply k ≠ root) (ops : List TmpfsOp) (hfits : ∀ op ∈ ops, op.Fits) :
    ∃ s, runSteps (TmpfsRun.step supply root) (tmpfsStart root) ops = .ok s ∧ NamespaceTree root s ∧ (∀ op, op.Fits →
        ∃ t x, TmpfsOp.call supply root s.tree op = .ok (t, x) ∧ (x = 0 → t = s.tree ∧ Refused s.log op)) ∧
      ∀ more, (∀ op ∈ more, op.Fits) → ∃ s', runSteps (TmpfsRun.step supply root) s more = .ok s' ∧
        ∀ (p : CanonicalPath) (x : ℕ), p.Fits → tmpfsOpenFile root s.tree p.path = .ok x → x ≠ 0 →
          tmpfsOpenFile root s'.tree p.path = .ok x ∧ s'.tree.type x = s.tree.type x := by
  obtain ⟨s, hrun, T, hinv⟩ := inv_run_total (I := fun s => ∃ T, TmpfsInv supply root s T) (fun s op ⟨T, h⟩ hop => by
      obtain ⟨s', T', -, -, hstep, hinv, -⟩ := tmpfsInv_step h hop
      exact ⟨s', hstep, T', hinv⟩)
    ⟨_, tmpfsInv_start hroot hsupply hfresh⟩ (along_of_forall hfits)
  refine ⟨s, hrun, hinv.namespaceTree, fun op hop => ?_, fun more hmore => ?_⟩
  · obtain ⟨s', -, x, hcall, -, -, -, hfail⟩ := tmpfsInv_step hinv hop
    exact ⟨s'.tree, x, hcall, hfail⟩
  -- along the further calls, everything that `T` has stays where it is
  obtain ⟨s', hrun', T', hinv', hkeep⟩ := inv_run_total (I := fun s' => ∃ T', TmpfsInv supply root s' T' ∧
      ∀ ps e, T.find Entry.name ps = some e → T'.find Entry.name ps = some e)
    (fun s1 op ⟨T1, h1, hk1⟩ hop => by
      obtain ⟨s2, T2, -, -, hstep, hinv2, hk2, -⟩ := tmpfsInv_step h1 hop
      exact ⟨s2, hstep, T2, hinv2, fun ps e he => hk2 ps e (hk1 ps e he)⟩)
    ⟨T, hinv, fun _ _ he => he⟩ (along_of_forall hmore)
  exact ⟨s', hrun', fun p x hp => hinv.opens_same hinv' hkeep hp⟩

def letters (n : ℕ) : CString where
  bytes := replicate (n + 1) 97
  nul_free h := absurd (eq_of_mem_replicate h) (by decide)

theorem isName_letters (n : ℕ) : IsName (letters n) := by
  have hne : ∀ b, b ≠ 97 → b ∉ (letters n).bytes := fun b hb h => hb (eq_of_mem_replicate h)
  refine ⟨⟨hne _ (by decide), hne _ (by decide)⟩, cons_ne_nil _ _, fun h => ?_, fun h => ?_⟩
  · exact hne dot (by decide) (h ▸ mem_cons_self)
  · exact hne dot (by decide) (h ▸ mem_cons_self)

theorem isName_of_letters {ns : List ℕ} : ∀ c ∈ ns.map letters, IsName c := fun c hc => by
  obtain ⟨n, -, rfl⟩ := mem_map.1 hc
  exact isName_letters n

def letterPath (ns : List ℕ) : CanonicalPath := .ofNames (ns.map letters) isName_of_letters

theorem namespace_is_tree_small : ∃ s, runSteps (TmpfsRun.step (· + 2) 1) (tmpfsStart 1)
        [.createFile (letterPath [0, 1]), .createDir (letterPath [1])] = .ok s ∧ NamespaceTree 1 s := by
  obtain ⟨s, hrun, htree, -⟩ := namespace_is_tree (· + 2) 1 (by decide) (add_left_injective 2)
    (fun k => ⟨by omega, by omega⟩) [.createFile (letterPath [0, 1]), .createDir (letterPath [1])] (by decide +kernel)
  exact ⟨s, hrun, htree⟩

/-- **Longer paths overrun `c_name`, or are cut.** -/
theorem long_path_overruns :
    runSteps (TmpfsRun.step (· + 2) 1) (tmpfsStart 1) [.createFile (letterPath [253])] = .error .overflow ∧
      ∃ s x, runSteps (TmpfsRun.step (· + 2) 1) (tmpfsStart 1) [.createDir (letterPath [0])] = .ok s ∧
        tmpfsOpenFile 1 s.tree (letterPath [0, 252]).path = .ok x ∧ x ≠ 0 ∧
        ∀ type, ¬PathCreated s.log (letterPath [0, 252]).names type := by
  have hlong : components (letterPath [253]).path = .error .overflow := by decide +kernel
  have hcut : components (letterPath [0, 252]).path = .ok [letters 0] := by decide +kernel
  have hname : strcmp (letterPath [0, 252]).path slashPath ≠ 0 := by decide +kernel
  refine ⟨?_, _, 2, rfl, ?_, by decide, ?_⟩
  · simp only [runSteps, TmpfsRun.step, TmpfsOp.call, tmpfsCreateFile, hlong]
    rfl
  · rw [tmpfsOpenFile, if_neg hname, hcut]
    rfl
  rintro type ⟨-, q, hq, hpre, -⟩
  obtain rfl := mem_singleton.1 hq
  exact absurd hpre.length_le (by decide)

end ZeldaOS
