import ZeldaOS.Vfs.Listing

/-!
# Path system calls that return

When `call_sys_open`, `call_sys_stat`, `call_sys_getdents` and `call_sys_chdir` return, over the file systems of the
kernel on their trees of files. The conditions are on the arguments and on the state before the calls.

* `lookupSafe_iff`: over these file systems a lookup returns for every path with a canonical name.
* `path_calls_return_iff`: the four calls return exactly if `PathCallsSafe` holds.
-/

namespace ZeldaOS

namespace Paths

open Machine Machine.Forest

variable {ρ : Type}

/-! ## The mount tables of the kernel -/

/-- A file system of the kernel on its tree of files; a `tmpfs` finds memory for new files. -/
inductive KernelFs (t : FileTree) : FilesystemOperation ρ → Prop
  | zeldafs {F : Forest Entry} (h : ListedTree t F) : KernelFs t (zeldafs (F.root Entry.addr))
  | tmpfs {F : Forest Entry} (h : ListedTree t F) (supply : ℕ → ℕ) (fresh : ℕ → ρ → ρ)
      (hsupply : Reliable supply t) : KernelFs t (tmpfs supply fresh (F.root Entry.addr))
  | devfs {F : Forest Entry} (h : ListedTree t F) : KernelFs t (devfs (F.root Entry.addr))
  | dummyfs : KernelFs t dummyfs

/-- It is mounted at a name of 1 to 254 bytes, such as `/` or `/tmp`. -/
structure KernelMount (t : FileTree) (e : MountEntry (FilesystemOperation ρ)) : Prop where
  fs : KernelFs t e.fs
  ne_empty : e.mountPoint.bytes ≠ []
  short : e.mountPoint.bytes.length ≤ 254

/-! ## The conditions -/

section
variable (T : ℕ → FileOps ρ) (M : MountTable (FilesystemOperation ρ)) (s : VfsState FileTree ρ)

/-- The path has a canonical name, and leads to a file if a file system is mounted for it. -/
structure LeadsToFile (path : CString) : Prop where
  resolvable : Resolvable path
  file : ∀ found, lookupFile M s.names path = .ok (some found) → found.file ≠ 0

/-- The path has a canonical name, and a file there has operations, of which `stat` accepts the file. -/
structure StatSafe (path : CString) : Prop where
  resolvable : Resolvable path
  accepts : ∀ found, lookupFile M s.names path = .ok (some found) → found.file ≠ 0 →
    ∃ ops, fileOps T s.names found.file = some ops ∧ ∀ stat ∈ ops.stat, stat.accepts found.file s.contents = true

/-- If there is a free descriptor, the path has a canonical name, and a file there that is not to be created but
truncated has operations. -/
structure OpenSafe (table : FileTable) (cwd path : CString) (flags : UInt32) : Prop where
  composes : Composes cwd path
  resolvable : ∀ p, composeAbsolutePath cwd path = .ok p → searchUnoccupiedFileDescriptor table ≠ none → Resolvable p
  truncates : ∀ p found, composeAbsolutePath cwd path = .ok p → searchUnoccupiedFileDescriptor table ≠ none →
    flags &&& oCreat = 0 → writes flags = true → flags &&& oTrunc ≠ 0 →
    lookupFile M s.names p = .ok (some found) → found.file ≠ 0 → s.names.ops found.file ≠ 0

structure GetdentsSafe (cwd path : CString) : Prop where
  composes : Composes cwd path
  leads : ∀ p, composeAbsolutePath cwd path = .ok p → LeadsToFile M s p

/-- For `call_sys_chdir`, which looks up the empty name when the path is refused. -/
structure ChdirSafe (cwd path : CString) : Prop where
  composes : Composes cwd path
  fits : ∀ p, composeAbsolutePath cwd path = .ok p → NameFits p
  leads : ∀ p, composeAbsolutePath cwd path = .ok p →
    LeadsToFile M s (CString.ofBytes ((canonicalizePathName p).getD []))

structure PathCallsReturn (table : FileTable) (cwd path : CString) (flags : UInt32) (count : ℤ) : Prop where
  opens : Succeeds (callSysOpen T M s table cwd path flags)
  stats : Succeeds (callSysStat T M s path)
  lists : Succeeds (callSysGetdents T M s cwd path count)
  enters : Succeeds (callSysChdir T M s cwd path)

structure PathCallsSafe (table : FileTable) (cwd path : CString) (flags : UInt32) : Prop where
  opens : OpenSafe M s table cwd path flags
  stats : StatSafe T M s path
  lists : GetdentsSafe M s cwd path
  enters : ChdirSafe M s cwd path

end

/-! ## Lookups -/

variable {t : FileTree} {path sub c : CString} {e : MountEntry (FilesystemOperation ρ)} {fs : FilesystemOperation ρ}

theorem nameFits_of_le (h : path.bytes.length ≤ 254) : NameFits path := by
  rw [NameFits]
  cases hcanon : canonicalizePathName path with
  | none => exact Nat.zero_le _
  | some stored => exact (length_stored_le hcanon).trans (Nat.add_le_add_right h 2)

theorem components_of_fits (h : NameFits path) : ∃ names, components path = .ok names ∧
      ∀ c ∈ names, c ≠ .empty ∧ c.bytes.length ≤ maxPath := by
  refine (components_cases path).resolve_left fun herr => ?_
  obtain ⟨names, hsplit, -⟩ := splitBytes_names (le_refl _)
    (CString.ofBytes ((canonicalizePathName path).getD [])).nul_free
  rw [NameFits] at h
  rw [components, FsFault.unless_of h] at herr
  cases hsplit.symm.trans herr

/-- What is left behind a mount point of a canonical name is shorter than the name. -/
theorem length_subpathOf (hc : canonicalName path = .ok c) (hpre : e.mountPoint.bytes <+: c.bytes)
    (hne : e.mountPoint.bytes ≠ []) : (subpathOf c e.mountPoint).bytes.length ≤ 254 := by
  have hfits := canonicalName_fits hc
  have hmax : maxPath = 256 := rfl
  obtain ⟨rest, hrest⟩ := hpre
  have hpos := List.length_pos_iff.2 hne
  have hsize := congrArg List.length hrest
  rw [List.length_append] at hsize
  have hle : ∀ bs : List UInt8, (CString.ofBytes bs).bytes.length ≤ bs.length := fun bs =>
    (List.takeWhile_sublist _).length_le
  rw [subpathOf, ← hrest, dropCommon_append]
  split_ifs
  · exact (hle _).trans (by decide)
  · exact (hle _).trans (by omega)

theorem tmpfsOpenFile_succeeds {F : Forest Entry} (h : ListedTree t F) (hsub : NameFits sub) :
    Succeeds (tmpfsOpenFile (F.root Entry.addr) t sub) := by
  obtain ⟨names, hnames, -⟩ := components_of_fits hsub
  rw [tmpfsOpenFile, checkRoot_of h.represents h.shaped h.ne_nil]
  change Succeeds (if strcmp sub slashPath = 0 then _ else _)
  split_ifs
  · exact succeeds_ok _
  rw [hnames]
  exact ⟨_, hierarchySearchFile_spec h.represents names⟩

theorem KernelFs.opens (h : KernelFs t fs) (hsub : sub.bytes.length ≤ 254) :
    ∃ fsOpen, fs.fsOpen = some fsOpen ∧ Succeeds (fsOpen t sub) := by
  cases h with
  | zeldafs h =>
    refine ⟨_, rfl, ?_⟩
    rw [zeldaFsOpen]
    split_ifs
    · exact succeeds_ok _
    obtain ⟨names, hsplit, -⟩ := splitBytes_names (le_refl _) (strcpySafe sub maxPath).nul_free
    refine succeeds_bind.2 ⟨unless_succeeds.2 (Nat.lt_of_le_of_lt hsub (by decide)), fun _ _ => ?_⟩
    exact ⟨_, bind_of_ok hsplit (hierarchySearchFile_spec h.represents names)⟩
  | tmpfs h => exact ⟨_, rfl, tmpfsOpenFile_succeeds h (nameFits_of_le hsub)⟩
  | devfs h => exact ⟨_, rfl, tmpfsOpenFile_succeeds h (nameFits_of_le hsub)⟩
  | dummyfs => exact ⟨_, rfl, succeeds_ok 0⟩

/-- A file that is opened is in a tree of files. -/
theorem KernelFs.opened (h : KernelFs t fs) {fsOpen : FileTree → CString → Except FsFault ℕ}
    (hfs : fs.fsOpen = some fsOpen) {x : ℕ} (hopen : fsOpen t sub = .ok x) (hx : x ≠ 0) :
    ∃ F, ListedTree t F ∧ OpenedIn F x := by
  cases h with
  | zeldafs h =>
    cases hfs
    exact ⟨_, h, zeldaFsOpen_opened h hopen⟩
  | tmpfs h =>
    cases hfs
    exact ⟨_, h, tmpfsOpenFile_opened h hopen⟩
  | devfs h =>
    cases hfs
    exact ⟨_, h, tmpfsOpenFile_opened h hopen⟩
  | dummyfs =>
    cases hfs
    exact absurd (Except.ok.inj hopen).symm hx

theorem KernelFs.lists (h : KernelFs t fs) : ListsFs t fs := fun fsOpen sub x hfs hopen hx => by
  obtain ⟨F, hF, hopened⟩ := h.opened hfs hopen hx
  exact hF.opened_listed hopened hx

section
variable {M : MountTable (FilesystemOperation ρ)}

theorem lookupSafe_iff (hM : ∀ i e, M.entry i = some e → KernelMount t e) :
    LookupSafe M t path ↔ Resolvable path := by
  refine ⟨LookupSafe.resolvable, fun h => ⟨h, fun c i e hc hmount => ?_⟩⟩
  rcases mountOfName_cases (M := M) hc with ⟨hnone, -⟩ | ⟨i', e', hsome, he, hpre⟩
  · cases hnone.symm.trans hmount
  cases hsome.symm.trans hmount
  exact (hM i e he).fs.opens (length_subpathOf hc hpre (hM i e he).ne_empty)

/-! ## New files -/

variable {s : VfsState FileTree ρ} {supply : ℕ → ℕ}

theorem components_slash : components slashPath = .ok [] := rfl

theorem createFileAt_ops {root x : ℕ} {t' : FileTree} {names : List CString}
    (h : createFileAt supply root t names = .ok (t', x)) (hx : x ≠ 0) : t'.ops x = tmpfsFileOperation := by
  obtain ⟨⟨t1, r1⟩, -, h⟩ := bind_eq_ok h
  dsimp only at h
  split_ifs at h
  · cases h
    exact absurd rfl hx
  obtain ⟨⟨t2, r2⟩, -, h⟩ := bind_eq_ok h
  dsimp only at h
  split_ifs at h
  · cases h
    exact absurd rfl hx
  obtain ⟨file, -, h⟩ := bind_eq_ok h
  obtain ⟨-, -, h⟩ := bind_eq_ok h
  cases h
  exact Function.update_self ..

/-- A file that `tmpfs_create_file` returns is opened under the same path, and has operations. -/
theorem tmpfsCreateFile_returns {F : Forest Entry} (h : ListedTree t F) (hsupply : Reliable supply t)
    (hsub : NameFits sub) : ∃ t' x, tmpfsCreateFile supply (F.root Entry.addr) t sub = .ok (t', x) ∧
      (x ≠ 0 → tmpfsOpenFile (F.root Entry.addr) t' sub = .ok x ∧ t'.ops x ≠ 0 ∧ x ∈ t'.live) := by
  obtain ⟨names, hnames, hfit⟩ := components_of_fits hsub
  have hroot := checkRoot_of h.represents h.shaped h.ne_nil
  rcases createFileAt_spec supply hfit h.represents h.shaped h.ne_nil with ⟨-, hrel⟩ | ⟨t', T', x, hrun, hout⟩
  · exact absurd hsupply hrel
  refine ⟨t', x, ?_, fun hx => ⟨?_, ?_, ?_⟩⟩
  · rw [tmpfsCreateFile, hroot, hnames]
    exact hrun
  · obtain ⟨a, hfind, rfl, -⟩ := hout.found hx
    have hne : T' ≠ nil := by
      rintro rfl
      exact absurd (mem_of_find hfind) List.not_mem_nil
    have hslash : strcmp sub slashPath ≠ 0 := fun heq => by
      rw [strcmp_eq_zero.1 heq, components_slash] at hnames
      cases hnames
      cases hfind
    have hsearch := hierarchySearchFile_spec hout.represents names
    rw [hfind] at hsearch
    rw [← hout.root, tmpfsOpenFile, checkRoot_of hout.represents hout.shaped hne]
    change (if strcmp sub slashPath = 0 then _ else _) = _
    rw [if_neg hslash, hnames]
    exact hsearch
  · rw [createFileAt_ops hrun hx]
    exact Nat.one_ne_zero
  · obtain ⟨a, hfind, rfl, -⟩ := hout.found hx
    exact hout.represents.addr_live (mem_of_find hfind)

theorem KernelFs.creates (h : KernelFs s.names e.fs) (hsub : sub.bytes.length ≤ 254) :
    ∃ s' file, createIn s e sub = .ok (s', file) ∧ (file ≠ none → ∃ fsOpen x, e.fs.fsOpen = some fsOpen ∧
      fsOpen s'.names sub = .ok x ∧ s'.names.ops x ≠ 0 ∧ x ∈ s'.names.live) := by
  obtain ⟨m, fs, hm⟩ := e
  cases h with
  | zeldafs h => exact ⟨s, none, rfl, fun hne => absurd rfl hne⟩
  | devfs h => exact ⟨s, none, rfl, fun hne => absurd rfl hne⟩
  | dummyfs => exact ⟨s, none, rfl, fun hne => absurd rfl hne⟩
  | tmpfs h supply fresh hsupply =>
    obtain ⟨t', x, hcreate, hopens⟩ := tmpfsCreateFile_returns h hsupply (nameFits_of_le hsub)
    refine ⟨_, _, bind_of_ok (bind_of_ok hcreate rfl) rfl, fun hne => ?_⟩
    have hx : x ≠ 0 := fun h0 => hne (if_pos h0)
    exact ⟨_, x, rfl, hopens hx⟩

theorem doVfsCreate_returns (hM : ∀ i e, M.entry i = some e → KernelMount s.names e) (hpath : Resolvable path) :
    ∃ s' file, doVfsCreate M s path = .ok (s', file) ∧ (file ≠ none →
      ∃ found, lookupFile M s'.names path = .ok (some found) ∧ s'.names.ops found.file ≠ 0 ∧
        found.file ∈ s'.names.live) := by
  obtain ⟨c, hc⟩ := canonicalName_succeeds.2 hpath
  rw [doVfsCreate, mountOf_of_name hc]
  rcases mountOfName_cases (M := M) hc with ⟨hnone, -⟩ | ⟨i, e, hsome, he, hpre⟩
  · rw [hnone]
    exact ⟨s, none, rfl, fun hne => absurd rfl hne⟩
  rw [hsome]
  obtain ⟨s', file, hcreate, hopens⟩ := (hM i e he).fs.creates (length_subpathOf hc hpre (hM i e he).ne_empty)
  refine ⟨s', file, bind_of_ok rfl (bind_of_ok (resolveSubpath_of_name hc e.mountPoint) hcreate), fun hne => ?_⟩
  obtain ⟨fsOpen, x, hfs, hopen, hops⟩ := hopens hne
  refine ⟨⟨i, e, x⟩, ?_, hops⟩
  rw [lookupFile_eq, hc]
  change lookupName M s'.names c = _
  rw [lookupName, hsome]
  change openIn s'.names i e _ = _
  rw [openIn, hfs]
  change (fsOpen s'.names _).map _ = _
  rw [hopen]
  rfl

theorem doVfsCreate_resolvable (h : Succeeds (doVfsCreate M s path)) : Resolvable path := by
  rw [doVfsCreate] at h
  rw [← canonicalName_succeeds]
  cases hname : canonicalName path with
  | ok c => exact succeeds_ok c
  | error err =>
    rw [mountOf_of_error hname] at h
    exact absurd h (not_succeeds_error err)

/-! ## The calls -/

variable {T : ℕ → FileOps ρ} {table : FileTable} {cwd : CString} {flags : UInt32} {count : ℤ}

theorem truncateOpened_succeeds {file : ℕ} : Succeeds (truncateOpened T s file flags) ↔
    (writes flags = true → flags &&& oTrunc ≠ 0 → s.names.ops file ≠ 0) := by
  rw [truncateOpened]
  split_ifs with hflag
  · rw [succeeds_map, imp_iff_right hflag.1, imp_iff_right hflag.2, Ne, ← fileOps_eq_none, doVfsTruncate]
    cases fileOps T s.names file with
    | none => exact iff_of_false (not_succeeds_error _) fun h => h rfl
    | some ops =>
      refine iff_of_true ?_ (Option.some_ne_none ops)
      dsimp only
      cases ops.truncate with
      | none => exact succeeds_ok _
      | some truncate => exact succeeds_ok _
  · exact iff_of_true (succeeds_ok _) fun hw ht => absurd ⟨hw, ht⟩ hflag

theorem openAt_succeeds {fd : ℕ} : Succeeds (openAt T M s table fd path flags) ↔
    Succeeds (lookupFile M s.names path) ∧ ∀ found, lookupFile M s.names path = .ok (some found) → found.file ≠ 0 →
      writes flags = true → flags &&& oTrunc ≠ 0 → s.names.ops found.file ≠ 0 := by
  rw [openAt, doVfsOpen, bind_assoc, succeeds_bind]
  refine and_congr_right fun _ => ⟨fun h found hfound hfile => ?_, fun h found hfound => ?_⟩
  · have hrest := h _ hfound
    dsimp only at hrest
    rw [if_neg hfile] at hrest
    change Succeeds (if found.file = 0 then _ else _) at hrest
    rw [if_neg hfile] at hrest
    have htruncate := truncateOpened_succeeds.1 (succeeds_bind.1 hrest).1
    exact htruncate
  · cases found with
    | none => exact succeeds_ok _
    | some found =>
      dsimp only
      by_cases hfile : found.file = 0
      · rw [if_pos hfile]
        exact succeeds_ok _
      rw [if_neg hfile]
      change Succeeds (if found.file = 0 then _ else _)
      rw [if_neg hfile]
      exact succeeds_bind.2 ⟨truncateOpened_succeeds.2 (h found hfound hfile), fun _ _ => succeeds_ok _⟩

section
variable (hM : ∀ i e, M.entry i = some e → KernelMount s.names e)
include hM

theorem lookupFile_succeeds_iff : Succeeds (lookupFile M s.names path) ↔ Resolvable path := by
  rw [lookupFile_succeeds, lookupSafe_iff hM]

theorem callSysStat_succeeds : Succeeds (callSysStat T M s path) ↔ StatSafe T M s path := by
  rw [callSysStat, doVfsStat, succeeds_bind, lookupFile_succeeds_iff hM]
  constructor
  · rintro ⟨hpath, hrest⟩
    refine ⟨hpath, fun found hfound hfile => ?_⟩
    have hstat := hrest _ hfound
    dsimp only at hstat
    rw [if_neg hfile] at hstat
    exact statFile_succeeds.1 hstat
  rintro ⟨hpath, haccepts⟩
  refine ⟨hpath, fun found hfound => ?_⟩
  cases found with
  | none => exact succeeds_ok _
  | some found =>
    dsimp only
    split_ifs with hfile
    · exact succeeds_ok _
    · exact statFile_succeeds.2 (haccepts found hfound hfile)

theorem doVfsGetdents_succeeds : Succeeds (doVfsGetdents T M s path count) ↔ LeadsToFile M s path := by
  rw [doVfsGetdents, succeeds_bind, lookupFile_succeeds_iff hM]
  constructor
  · rintro ⟨hpath, hrest⟩
    exact ⟨hpath, fun found hfound => unless_succeeds.1 (succeeds_bind.1 (hrest _ hfound)).1⟩
  rintro ⟨hpath, hfile⟩
  refine ⟨hpath, fun found hfound => ?_⟩
  cases found with
  | none => exact succeeds_ok _
  | some found =>
    -- the nodes of the listing are those of a tree of files, and the mount points fit
    obtain ⟨fsOpen, sub, he, hfs, hopen⟩ := lookupFile_eq_some hfound
    obtain ⟨xs, hxs⟩ := (hM _ _ he).fs.lists fsOpen sub found.file hfs hopen (hfile found hfound)
    obtain ⟨c', ds, hds, -⟩ := fileEntries_spec (T := T) hxs count.toNat s.contents
    refine succeeds_bind.2 ⟨unless_succeeds.2 (hfile found hfound), fun _ _ => ?_⟩
    refine succeeds_bind.2 ⟨⟨_, hds⟩, fun r _ => succeeds_bind.2 ⟨?_, fun _ _ => succeeds_ok _⟩⟩
    rw [moreEntries]
    split_ifs
    · refine mountEntries_succeeds.2 fun e' hmem => ?_
      obtain ⟨j, -, hj⟩ := List.mem_filterMap.1 (List.mem_of_mem_take hmem)
      exact nameFits_of_le (hM j e' (Option.filter_eq_some_iff.1 hj).1).short
    · exact succeeds_ok _

theorem callSysGetdents_succeeds : Succeeds (callSysGetdents T M s cwd path count) ↔ GetdentsSafe M s cwd path := by
  rw [callSysGetdents, succeeds_bind, composeAbsolutePath_succeeds]
  constructor
  · exact fun h => ⟨h.1, fun p hp => (doVfsGetdents_succeeds hM).1 (h.2 p hp)⟩
  · exact fun h => ⟨h.composes, fun p hp => (doVfsGetdents_succeeds hM).2 (h.leads p hp)⟩

theorem callSysChdir_succeeds : Succeeds (callSysChdir T M s cwd path) ↔ ChdirSafe M s cwd path := by
  rw [callSysChdir, succeeds_bind, composeAbsolutePath_succeeds]
  constructor
  · rintro ⟨hcomposes, hrest⟩
    have hfits : ∀ p, composeAbsolutePath cwd path = .ok p → NameFits p := fun p hp =>
      chdirName_succeeds.1 (succeeds_bind.1 (hrest p hp)).1
    refine ⟨hcomposes, hfits, fun p hp => ?_⟩
    have hlist := (succeeds_bind.1 (hrest p hp)).2 _ (chdirName_eq (hfits p hp))
    exact (doVfsGetdents_succeeds hM).1 (succeeds_bind.1 hlist).1
  · rintro ⟨hcomposes, hfits, hleads⟩
    refine ⟨hcomposes, fun p hp => succeeds_bind.2 ⟨chdirName_succeeds.2 (hfits p hp), fun c hc => ?_⟩⟩
    cases (chdirName_eq (hfits p hp)).symm.trans hc
    refine succeeds_bind.2 ⟨(doVfsGetdents_succeeds hM).2 (hleads p hp), fun r _ => ?_⟩
    dsimp only
    split_ifs <;> exact succeeds_ok _

/-- With `O_CREAT` the file that is opened is a new one, and without it the one that was there. -/
theorem createFirst_succeeds {fd : ℕ} : (Succeeds (createFirst M s path flags) ∧
      ∀ s', createFirst M s path flags = .ok (s', true) → Succeeds (openAt T M s' table fd path flags)) ↔
    Resolvable path ∧ ∀ found, flags &&& oCreat = 0 → writes flags = true → flags &&& oTrunc ≠ 0 →
      lookupFile M s.names path = .ok (some found) → found.file ≠ 0 → s.names.ops found.file ≠ 0 := by
  rw [createFirst]
  by_cases hflag : flags &&& oCreat = 0
  · rw [if_neg (not_not.2 hflag)]
    constructor
    · rintro ⟨-, hopen⟩
      obtain ⟨hlook, htruncate⟩ := openAt_succeeds.1 (hopen s rfl)
      exact ⟨(lookupFile_succeeds_iff hM).1 hlook, fun found _ hw ht hfound hfile =>
        htruncate found hfound hfile hw ht⟩
    rintro ⟨hpath, htruncate⟩
    refine ⟨succeeds_ok _, fun s' hs' => ?_⟩
    cases hs'
    exact openAt_succeeds.2 ⟨(lookupFile_succeeds_iff hM).2 hpath, fun found hfound hfile hw ht =>
      htruncate found hflag hw ht hfound hfile⟩
  rw [if_pos hflag, succeeds_map]
  constructor
  · exact fun h => ⟨doVfsCreate_resolvable h.1, fun _ h0 => absurd h0 hflag⟩
  rintro ⟨hpath, -⟩
  obtain ⟨s1, file, hcreate, hnew⟩ := doVfsCreate_returns hM hpath
  refine ⟨⟨_, hcreate⟩, fun s' hs' => ?_⟩
  rw [hcreate] at hs'
  obtain ⟨rfl, hsome⟩ := Prod.mk.inj (Except.ok.inj hs')
  obtain ⟨found, hfound, hops, -⟩ := hnew fun hnone => by
    rw [hnone] at hsome
    cases hsome
  refine openAt_succeeds.2 ⟨⟨_, hfound⟩, fun found' hfound' _ _ _ => ?_⟩
  cases hfound.symm.trans hfound'
  exact hops

theorem callSysOpen_succeeds :
    Succeeds (callSysOpen T M s table cwd path flags) ↔ OpenSafe M s table cwd path flags := by
  rw [callSysOpen, succeeds_bind, composeAbsolutePath_succeeds]
  cases hfd : searchUnoccupiedFileDescriptor table with
  | none =>
    refine ⟨fun h => ⟨h.1, fun _ _ hc => absurd hfd hc, fun _ _ _ hc => absurd hfd hc⟩, fun h => ⟨h.composes, ?_⟩⟩
    exact fun _ _ => succeeds_ok _
  | some fd =>
    have hfree : searchUnoccupiedFileDescriptor table ≠ none := by
      rw [hfd]
      exact Option.some_ne_none fd
    have hbody : ∀ p, Succeeds (createFirst M s p flags >>= fun r =>
        if r.2 then openAt T M r.1 table fd p flags else .ok (r.1, table, -errGeneric)) ↔
        Resolvable p ∧ ∀ found, flags &&& oCreat = 0 → writes flags = true → flags &&& oTrunc ≠ 0 →
          lookupFile M s.names p = .ok (some found) → found.file ≠ 0 → s.names.ops found.file ≠ 0 := fun p => by
      rw [succeeds_bind]
      refine Iff.trans (and_congr_right fun _ => ⟨fun h s' hs' => h (s', true) hs', fun h r hr => ?_⟩)
        (createFirst_succeeds hM)
      obtain ⟨s', created⟩ := r
      cases created with
      | false => exact succeeds_ok _
      | true => exact h s' hr
    constructor
    · rintro ⟨hcomposes, hrest⟩
      have hparts := fun p hp => (hbody p).1 (hrest p hp)
      exact ⟨hcomposes, fun p hp _ => (hparts p hp).1, fun p found hp _ => (hparts p hp).2 found⟩
    · rintro ⟨hcomposes, hpath, htruncates⟩
      exact ⟨hcomposes, fun p hp => (hbody p).2 ⟨hpath p hp hfree, fun found => htruncates p found hp hfree⟩⟩

end

end

/-- **The path system calls return if and only if the path and the files that it leads to are safe.** -/
theorem path_calls_return_iff {ρ : Type} (T : ℕ → FileOps ρ) (M : MountTable (FilesystemOperation ρ))
    (s : VfsState FileTree ρ) (hM : ∀ i e, M.entry i = some e → KernelMount s.names e) (table : FileTable)
    (cwd path : CString) (flags : UInt32) (count : ℤ) :
    PathCallsReturn T M s table cwd path flags count ↔ PathCallsSafe T M s table cwd path flags := by
  constructor
  · exact fun h => ⟨(callSysOpen_succeeds hM).1 h.opens, (callSysStat_succeeds hM).1 h.stats,
      (callSysGetdents_succeeds hM).1 h.lists, (callSysChdir_succeeds hM).1 h.enters⟩
  exact fun h => ⟨(callSysOpen_succeeds hM).2 h.opens, (callSysStat_succeeds hM).2 h.stats,
    (callSysGetdents_succeeds hM).2 h.lists, (callSysChdir_succeeds hM).2 h.enters⟩

/-- The tree of `smallTree`, and that of a new `tmpfs`. -/
def kernelTree : FileTree :=
  { smallTree with type := fun x => if x = 3 then .mark else smallTree.type x, live := [1, 2, 3] }

def newForest : Forest Entry := node ⟨3, .empty, .mark⟩ nil nil

theorem kernelTree_listed : ListedTree kernelTree smallForest where
  represents := ⟨smallTree_listed.represents.linked, by decide, by decide, by decide, by decide⟩
  shaped := smallTree_listed.shaped
  ne_nil := nofun
  ops := by decide
  fits := by decide

theorem kernelTree_listed_new : ListedTree kernelTree newForest where
  represents := ⟨⟨rfl, rfl, rfl, trivial, trivial⟩, by decide, by decide, by decide, by decide⟩
  shaped := ⟨rfl, rfl, rfl, trivial⟩
  ne_nil := nofun
  ops := by decide
  fits := by decide

/-- `zeldafs` at `/`, and `tmpfs` at `/t`. -/
def kernelTable : MountTable (FilesystemOperation Unit) :=
  smallTable.set 1 ⟨.ofBytes [slash, 116], tmpfs (· + 10) (fun _ c => c) 3, by decide⟩

theorem kernelTable_mounts (i : ℕ) (e : MountEntry (FilesystemOperation Unit)) (he : kernelTable.entry i = some e) :
    KernelMount kernelTree e := by
  have hsupply : Reliable (· + 10) kernelTree := by
    refine ⟨add_left_injective 10, fun k _ => ⟨Nat.succ_ne_zero _, fun hc => ?_⟩⟩
    simp [kernelTree] at hc
  rw [kernelTable, MountTable.entry_set (by rw [MountTable.length_eq]; decide), smallTable,
    MountTable.entry_set (by rw [MountTable.length_eq]; decide), MountTable.entry_empty] at he
  split_ifs at he
  · cases he
    exact ⟨.tmpfs kernelTree_listed_new _ _ hsupply, by decide, by decide⟩
  · cases he
    exact ⟨.zeldafs kernelTree_listed, by decide, by decide⟩

set_option maxRecDepth 20000 in
/-- A task in `/`, and the file `a`. -/
theorem path_calls_return_iff_small : PathCallsReturn (fun _ => statOps) kernelTable
        { smallState with names := kernelTree } .empty rootPoint fileName oRdonly 1 ∧
      PathCallsSafe (fun _ => statOps) kernelTable { smallState with names := kernelTree } .empty rootPoint fileName
        oRdonly := by
  have hreturn : PathCallsReturn (fun _ => statOps) kernelTable { smallState with names := kernelTree } .empty rootPoint
      fileName oRdonly 1 := ⟨⟨_, rfl⟩, ⟨_, rfl⟩, ⟨_, rfl⟩, ⟨_, rfl⟩⟩
  exact ⟨hreturn, (path_calls_return_iff _ kernelTable _ kernelTable_mounts ..).1 hreturn⟩

def blankPath : CString := CString.ofBytes [97, 32, 98]

set_option maxRecDepth 20000 in
/-- In some working directory an open of a path with a blank stops the kernel. -/
theorem blank_path_panics :
    callSysChdir (fun _ => statOps) smallTable smallState rootPoint rootPoint = .ok (smallState, rootPoint, 0) ∧
      blankPath.bytes.length < 128 ∧
      callSysOpen (fun _ => statOps) smallTable smallState .empty rootPoint blankPath oRdonly = .error .assertion ∧
      ¬PathCallsReturn (fun _ => statOps) smallTable smallState .empty rootPoint blankPath oRdonly 1 := by
  have hopen : callSysOpen (fun _ => statOps) smallTable smallState .empty rootPoint blankPath oRdonly =
      .error .assertion := rfl
  refine ⟨rfl, by decide, hopen, fun h => ?_⟩
  obtain ⟨r, hr⟩ := h.opens
  cases hopen.symm.trans hr

end Paths

end ZeldaOS
