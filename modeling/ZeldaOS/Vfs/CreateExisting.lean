import ZeldaOS.Vfs.Systems

/-!
# Creating a file that is there

`tmpfs_create_file` on a path that leads to a file, and `call_sys_open` with `O_CREAT` on such a path.

* `create_existing_never`: a file that is there is not opened with `O_CREAT`.
-/

namespace ZeldaOS

open Machine List

variable {supply : ℕ → ℕ} {file root : ℕ} {path : CString}

section
variable {t : FileTree} {c : CString} {names : List CString} {current file0 : ℕ}

/-! ## The tree -/

theorem searchSibling_zero (t : FileTree) (c : CString) : searchSibling t 0 c = .ok none := rfl

theorem searchLevels_cons (h : searchLevels t (c :: names) current file0 = .ok file) (hfile : file ≠ 0) :
    ∃ x, searchSibling t current c = .ok (some x) ∧ searchLevels t names (t.nodes.left x) x = .ok file := by
  obtain ⟨found, hfound, hrest⟩ := bind_eq_ok h
  cases found with
  | none => exact absurd (Except.ok.inj hrest).symm hfile
  | some x => exact ⟨x, hfound, hrest⟩

theorem createLevels_existing (supply : ℕ → ℕ) (h : searchLevels t (names ++ [c]) current file0 = .ok file)
    (hfile : file ≠ 0) : ∃ r, createLevels supply names current t = .ok (t, r) ∧
      createFileLevels supply t (names ++ [c]) current = .ok (t, -errExist) := by
  induction names generalizing current file0 with
  | nil =>
    obtain ⟨x, hx, -⟩ := searchLevels_cons h hfile
    exact ⟨0, rfl, fileEntry_found hx⟩
  | cons d names ih =>
    obtain ⟨x, hx, hrest⟩ := searchLevels_cons h hfile
    obtain ⟨r, hlevels, hentry⟩ := ih hrest
    have hcreate : createFileLevels supply t (d :: names ++ [c]) current = .ok (t, -errExist) := by
      have hne : names ++ [c] ≠ [] := append_ne_nil_of_right_ne_nil names (cons_ne_nil c [])
      rw [cons_append, createFileLevels.eq_3 _ _ _ _ _ hne, hx]
      exact hentry
    -- something is found below the directory
    have hleft : t.nodes.left x ≠ 0 := fun h0 => by
      rw [h0] at hrest
      cases names with
      | nil =>
        obtain ⟨y, hy, -⟩ := searchLevels_cons hrest hfile
        cases hy.symm.trans (searchSibling_zero t c)
      | cons d' names =>
        obtain ⟨y, hy, -⟩ := searchLevels_cons hrest hfile
        cases hy.symm.trans (searchSibling_zero t d')
    have hmark : markChild supply t x = .ok (t, 0) := if_pos hleft
    rw [createLevels, directoryEntry_found supply hx]
    by_cases hdir : t.type x ≠ .dir
    · rw [if_pos hdir]
      exact ⟨_, rfl, hcreate⟩
    rw [if_neg hdir]
    change ∃ r, (markChild supply t x >>= _) = _ ∧ _
    rw [hmark]
    exact ⟨r, hlevels, hcreate⟩

theorem createFileAt_existing (h : hierarchySearchFile t current names = .ok file) (hfile : file ≠ 0) :
    createFileAt supply current t names = .ok (t, 0) := by
  rcases eq_nil_or_concat names with rfl | ⟨ds, c, rfl⟩
  · exact absurd (Except.ok.inj h).symm hfile
  rw [concat_eq_append] at h ⊢
  obtain ⟨r, hlevels, hcreate⟩ := createLevels_existing supply h hfile
  rw [createFileAt, makeParents_concat, hlevels]
  change (if r ≠ 0 then _ else _) = _
  split_ifs
  · rfl
  change (createFileLevels supply t (ds ++ [c]) current >>= _) = _
  rw [hcreate]
  rfl

theorem tmpfsCreateFile_existing (supply : ℕ → ℕ) (h : tmpfsOpenFile root t path = .ok file)
    (hreg : t.type file = .regular) (hfile : file ≠ 0) : tmpfsCreateFile supply root t path = .ok (t, 0) := by
  obtain ⟨u, hroot, h⟩ := bind_eq_ok h
  have hmark : t.type root = .mark := by
    obtain ⟨-, -, hmark⟩ := bind_eq_ok hroot
    exact FsFault.of_unless hmark
  split_ifs at h
  · cases Except.ok.inj h
    cases hmark.symm.trans hreg
  obtain ⟨names, hnames, hsearch⟩ := bind_eq_ok h
  rw [tmpfsCreateFile, hroot, hnames]
  exact createFileAt_existing hsearch hfile

end

namespace Paths

variable {table : FileTable} {cwd user : CString} {fd : ℕ}

section
variable {ρ : Type} (T : ℕ → FileOps ρ) (M : MountTable (FilesystemOperation ρ)) (s : VfsState FileTree ρ)

/-! ## The calls -/

/-- The path leads to the regular file `file`, at `sub` in a `tmpfs`. -/
structure LeadsToRegular (supply : ℕ → ℕ) (fresh : ℕ → ρ → ρ) (root : ℕ) (path sub : CString) (file : ℕ) : Prop where
  mount : ∃ i e, mountOf M path = .ok (some (i, e)) ∧ resolveSubpath path e.mountPoint = .ok sub ∧
    e.fs = tmpfs supply fresh root
  opens : tmpfsOpenFile root s.names sub = .ok file
  regular : s.names.type file = .regular
  ne_null : file ≠ 0

def CreateReturnsFile (supply : ℕ → ℕ) (root : ℕ) (t : FileTree) (sub : CString) (file : ℕ) : Prop :=
  ∃ t', tmpfsCreateFile supply root t sub = .ok (t', file) ∧ t'.name file = t.name file ∧
    t'.type file = t.type file ∧ t'.ops file = t.ops file ∧ t'.priv file = t.priv file

def OpensWithCreate (table : FileTable) (cwd path : CString) : Prop :=
  ∀ flags s' table' r, flags &&& oCreat = 0 → callSysOpen T M s table cwd path flags = .ok (s', table', r) → 0 ≤ r →
    ∃ s' table' r, callSysOpen T M s table cwd path (flags ||| oCreat) = .ok (s', table', r) ∧ 0 ≤ r

variable {T M s} {fresh : ℕ → ρ → ρ} {sub : CString}

section
variable (h : LeadsToRegular M s supply fresh root path sub file)
include h

theorem LeadsToRegular.create_eq :
    doVfsCreate M s path = .ok (s, none) := by
  obtain ⟨i, e, hmount, hsub, hfs⟩ := h.mount
  have hcreate := tmpfsCreateFile_existing supply h.opens h.regular h.ne_null
  have hnew : s.names.live.filter (· ∉ s.names.live) = [] :=
    filter_eq_nil_iff.2 fun x hx hnot => absurd hx (of_decide_eq_true hnot)
  have hcreated : tmpfsCreate supply fresh root s.names s.contents sub = .ok ⟨s.names, s.contents, none, []⟩ := by
    rw [tmpfsCreate, hcreate]
    change Except.ok (Created.mk _ _ _ (s.names.live.filter (· ∉ s.names.live))) = _
    rw [hnew]
    rfl
  rw [doVfsCreate, hmount]
  change (resolveSubpath path e.mountPoint >>= _) = _
  rw [hsub]
  change createIn s e sub = _
  rw [createIn, hfs]
  change (tmpfsCreate supply fresh root s.names s.contents sub >>= _) = _
  rw [hcreated]
  change Except.ok ({ s with referCount := fun f => if f ∈ [] then 0 else s.referCount f }, none) = _
  simp only [not_mem_nil, if_false]

theorem LeadsToRegular.open_fails {flags : UInt32}
    (hpath : composeAbsolutePath cwd user = .ok path) (hfd : searchUnoccupiedFileDescriptor table = some fd)
    (hflags : flags &&& oCreat ≠ 0) : callSysOpen T M s table cwd user flags = .ok (s, table, -errGeneric) := by
  have hfirst : createFirst M s path flags = .ok (s, false) := by
    rw [createFirst, if_pos hflags, h.create_eq]
    rfl
  simp only [callSysOpen, hpath, hfd, hfirst, bind, Except.bind]
  rfl

theorem LeadsToRegular.open_eq :
    ∃ s', doVfsOpen M s path = .ok (s', file) := by
  obtain ⟨i, e, hmount, hsub, hfs⟩ := h.mount
  have hlookup : lookupFile M s.names path = .ok (some ⟨i, e, file⟩) := by
    rw [lookupFile, hmount]
    change (resolveSubpath path e.mountPoint >>= _) = _
    rw [hsub]
    change openIn s.names i e sub = _
    rw [openIn, hfs]
    change (tmpfsOpenFile root s.names sub).map _ = _
    rw [h.opens]
    rfl
  rw [doVfsOpen, hlookup]
  exact ⟨_, if_neg h.ne_null⟩

theorem LeadsToRegular.opened
    (hpath : composeAbsolutePath cwd user = .ok path) (hfd : searchUnoccupiedFileDescriptor table = some fd) :
    ∃ s' table', callSysOpen T M s table cwd user oRdonly = .ok (s', table', fd) := by
  obtain ⟨s', hopen⟩ := h.open_eq
  have hfirst : createFirst M s path oRdonly = .ok (s, true) := rfl
  simp only [callSysOpen, openAt, hpath, hfd, hfirst, hopen, bind, Except.bind, if_true, if_neg h.ne_null]
  exact ⟨_, _, rfl⟩

end

/-- **Creating a file that is there never returns it, and `O_CREAT` never opens it.** -/
theorem create_existing_never (h : LeadsToRegular M s supply fresh root path sub file) {table : FileTable} {fd : ℕ}
    {cwd user : CString} (hpath : composeAbsolutePath cwd user = .ok path)
    (hfd : searchUnoccupiedFileDescriptor table = some fd) :
    ¬CreateReturnsFile supply root s.names sub file ∧ ¬OpensWithCreate T M s table cwd user := by
  constructor
  · rintro ⟨t', hcreate, -⟩
    rw [tmpfsCreateFile_existing supply h.opens h.regular h.ne_null] at hcreate
    exact h.ne_null (Prod.mk.inj (Except.ok.inj hcreate)).2.symm
  intro hall
  obtain ⟨s', table', hopen⟩ := h.opened hpath hfd
  obtain ⟨s2, table2, r, hcreate, hr⟩ := hall oRdonly s' table' fd (by decide) hopen (Int.natCast_nonneg fd)
  rw [h.open_fails hpath hfd (by decide)] at hcreate
  rw [← (Prod.mk.inj (Prod.mk.inj (Except.ok.inj hcreate)).2).2] at hr
  exact absurd hr (by decide)

end

def tmpPoint : CString := .ofBytes [slash, 116]

def tmpfsTable : MountTable (FilesystemOperation Unit) :=
  MountTable.empty.set 0 ⟨tmpPoint, tmpfs (fun k => k + 10) (fun _ c => c) 1, by decide⟩

def filePath : CString := .ofBytes [slash, 97]

def tmpFilePath : CString := .ofBytes [slash, 116, slash, 97]

set_option maxRecDepth 20000 in
theorem filePath_leads :
    LeadsToRegular tmpfsTable smallState (fun k => k + 10) (fun _ c => c) 1 tmpFilePath filePath 2 where
  mount := ⟨0, _, rfl, rfl, rfl⟩
  opens := rfl
  regular := rfl
  ne_null := by decide

theorem create_existing_never_filePath : ¬CreateReturnsFile (fun k => k + 10) 1 smallTree filePath 2 ∧
      ¬OpensWithCreate (fun _ => statOps) tmpfsTable smallState .empty rootPoint tmpFilePath :=
  create_existing_never filePath_leads rfl rfl

theorem filePath_not_created : tmpfsOpenFile 1 smallTree filePath = .ok 2 ∧
    (tmpfsCreateFile (fun k => k + 10) 1 smallTree filePath).map Prod.snd = .ok 0 := ⟨rfl, rfl⟩

end Paths

end ZeldaOS
