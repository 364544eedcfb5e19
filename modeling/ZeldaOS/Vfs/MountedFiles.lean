import ZeldaOS.Vfs.PathReturn

/-!
# Descriptors over a mount table

The calls on descriptors are modelled over any file systems, and the calls on paths over a mount table. The table of
the kernel gives such file systems, and on a path with a canonical name the calls of the two models agree.

* `doVfsCreate_eq`, `doVfsOpen_eq`, `doVfsStat_eq`: the calls of the file interface.
* `callSysOpen_eq`: the system call, from the path that the program passes.
-/

namespace ZeldaOS

namespace Paths

open Machine Machine.Forest

variable {ρ : Type}

/-! ## The file systems behind the table -/

/-- A file is a live block. The trees of the kernel open only live blocks, and give none up for a new file. -/
def mountedFiles (T : ℕ → FileOps ρ) (M : MountTable (FilesystemOperation ρ)) : FileSystems FileTree ρ where
  isFile t f := f ∈ t.live
  type := FileTree.type
  ops := fileOps T
  openFile t path :=
    match lookupFile M t path with
    | .ok (some found) => if found.file ≠ 0 ∧ found.file ∈ t.live then some found.file else none
    | _ => none
  createFile t c path :=
    match doVfsCreate M (.start t c 0) path with
    | .ok (s, file) =>
      if ∀ f ∈ t.live, f ∈ s.names.live then ⟨s.names, s.contents, file, s.names.live.filter (· ∉ t.live)⟩
      else ⟨t, c, none, []⟩
    | .error _ => ⟨t, c, none, []⟩
  open_isFile t path f h := by
    split at h
    · split_ifs at h with hlive
      cases h
      exact hlive.2
    · cases h
  create_isFile t c path f h := by
    split
    · split_ifs with hlive
      · exact hlive f h
      · exact h
    · exact h
  create_fresh t c path f h := by
    split at h
    · split_ifs at h
      · exact of_decide_eq_true (List.mem_filter.1 h).2
      · cases h
    · cases h

variable {T : ℕ → FileOps ρ} {M : MountTable (FilesystemOperation ρ)} {t : FileTree} {s : VfsState FileTree ρ}
  {path sub : CString} {found : Found ρ} {supply : ℕ → ℕ}

/-! ## Files of the kernel are live -/

theorem lookupFile_live (hM : ∀ i e, M.entry i = some e → KernelMount s.names e)
    (h : lookupFile M s.names path = .ok (some found)) (hx : found.file ≠ 0) : found.file ∈ s.names.live := by
  obtain ⟨fsOpen, sub, he, hfs, hopen⟩ := lookupFile_eq_some h
  obtain ⟨F, hF, hopened⟩ := (hM _ _ he).fs.opened hfs hopen hx
  exact hF.opened_live hopened hx

theorem createFileAt_live {root x : ℕ} {t' : FileTree} {names : List CString}
    (h : createFileAt supply root t names = .ok (t', x)) : t.live ⊆ t'.live := by
  obtain ⟨⟨t1, r1⟩, hparents, h⟩ := bind_eq_ok h
  have hlive1 : t.live ⊆ t1.live := by
    rw [makeParents] at hparents
    split_ifs at hparents
    · exact (createLevels_kept hparents (List.Subset.refl _)).live
    · cases hparents
      exact List.Subset.refl _
  dsimp only at h
  split_ifs at h
  · cases h
    exact hlive1
  obtain ⟨⟨t2, r2⟩, hcreate, h⟩ := bind_eq_ok h
  have hlive2 : t.live ⊆ t2.live := List.Subset.trans hlive1 (createFileLevels_kept hcreate (List.Subset.refl _)).live
  dsimp only at h
  split_ifs at h
  · cases h
    exact hlive2
  obtain ⟨file, -, h⟩ := bind_eq_ok h
  obtain ⟨-, -, h⟩ := bind_eq_ok h
  cases h
  exact List.Subset.trans hlive2 (malloc_kept names rfl).1.live

/-- A creation does the same to the trees in all states, and new files are those that become live. -/
theorem doVfsCreate_uniform (hM : ∀ i e, M.entry i = some e → KernelMount t e) (hpath : Resolvable path) (c : ρ) :
    ∃ t' c' file, (∀ f ∈ t.live, f ∈ t'.live) ∧ ∀ s : VfsState FileTree ρ, s.names = t → s.contents = c →
      doVfsCreate M s path = .ok ({ s with
        names := t'
        contents := c'
        referCount := fun f => if f ∈ t'.live.filter (· ∉ t.live) then 0 else s.referCount f }, file) := by
  have hsame : ∀ s : VfsState FileTree ρ, s.names = t → s.contents = c → s = { s with
      names := t
      contents := c
      referCount := fun f => if f ∈ t.live.filter (· ∉ t.live) then 0 else s.referCount f } := by
    rintro s rfl rfl
    simp
  obtain ⟨n, hn⟩ := canonicalName_succeeds.2 hpath
  rcases mountOfName_cases (M := M) hn with ⟨hnone, -⟩ | ⟨i, e, hsome, he, hpre⟩
  · refine ⟨t, c, none, fun f => id, fun s hs hc => ?_⟩
    rw [doVfsCreate, mountOf_of_name hn, hnone, ← hsame s hs hc]
    rfl
  have hcreateIn : ∀ s : VfsState FileTree ρ, doVfsCreate M s path = createIn s e (subpathOf n e.mountPoint) := by
    intro s
    rw [doVfsCreate, mountOf_of_name hn, hsome]
    change (resolveSubpath path e.mountPoint >>= createIn s e) = _
    rw [resolveSubpath_of_name hn]
    rfl
  have hnothing : e.fs.fsCreate = none → ∀ s : VfsState FileTree ρ, s.names = t → s.contents = c →
      doVfsCreate M s path = .ok ({ s with
        names := t
        contents := c
        referCount := fun f => if f ∈ t.live.filter (· ∉ t.live) then 0 else s.referCount f }, none) := by
    intro hfs s hs hc
    rw [hcreateIn, createIn, hfs, ← hsame s hs hc]
  have hfits := length_subpathOf hn hpre (hM i e he).ne_empty
  obtain ⟨m, fs, hm⟩ := e
  cases (hM i _ he).fs with
  | zeldafs h => exact ⟨t, c, none, fun f => id, hnothing rfl⟩
  | devfs h => exact ⟨t, c, none, fun f => id, hnothing rfl⟩
  | dummyfs => exact ⟨t, c, none, fun f => id, hnothing rfl⟩
  | tmpfs h supply fresh hsupply =>
    obtain ⟨t', x, hcreate, -⟩ := tmpfsCreateFile_returns h hsupply (nameFits_of_le hfits)
    have hlive : t.live ⊆ t'.live := by
      obtain ⟨-, -, hcreate⟩ := bind_eq_ok hcreate
      obtain ⟨names, -, hcreate⟩ := bind_eq_ok hcreate
      exact createFileAt_live hcreate
    refine ⟨t', if x = 0 then c else fresh x c, if x = 0 then none else some x, fun f hf => hlive hf, ?_⟩
    rintro s rfl rfl
    rw [hcreateIn]
    exact bind_of_ok (bind_of_ok hcreate rfl) rfl

/-! ## The two models agree -/

theorem doVfsOpen_eq (h : Succeeds (lookupFile M s.names path))
    (hlive : ∀ found, lookupFile M s.names path = .ok (some found) → found.file ≠ 0 → found.file ∈ s.names.live) :
    doVfsOpen M s path = .ok ((ZeldaOS.doVfsOpen (mountedFiles T M) s path).1,
      (ZeldaOS.doVfsOpen (mountedFiles T M) s path).2.getD 0) := by
  obtain ⟨found, hfound⟩ := h
  rw [doVfsOpen, ZeldaOS.doVfsOpen]
  simp only [mountedFiles, hfound]
  cases found with
  | none => rfl
  | some found =>
    by_cases hfile : found.file = 0
    · simp [bind, Except.bind, hfile]
    · simp [bind, Except.bind, hfile, hlive found hfound hfile]

section
variable (hM : ∀ i e, M.entry i = some e → KernelMount s.names e)
include hM

theorem doVfsCreate_eq (hpath : Resolvable path) :
    doVfsCreate M s path = .ok (ZeldaOS.doVfsCreate (mountedFiles T M) s path) := by
  obtain ⟨t', c', file, hlive, hcreate⟩ := doVfsCreate_uniform hM hpath s.contents
  rw [hcreate s rfl rfl, ZeldaOS.doVfsCreate]
  simp only [mountedFiles, hcreate (.start s.names s.contents 0) rfl rfl, if_pos hlive]

theorem doVfsStat_eq (h : lookupFile M s.names path = .ok (some found)) :
    doVfsStat T M s path = ZeldaOS.doVfsStat (mountedFiles T M) s path := by
  rw [doVfsStat, ZeldaOS.doVfsStat]
  simp only [mountedFiles, h]
  by_cases hfile : found.file = 0
  · simp [bind, Except.bind, hfile]
  · simp only [bind, Except.bind, hfile, lookupFile_live hM h hfile, ne_eq, not_false_eq_true, and_self, if_true,
      if_false]
    rfl

end

theorem doVfsOpen_ne_null : (ZeldaOS.doVfsOpen (mountedFiles T M) s path).2 ≠ some 0 := by
  intro h
  rw [ZeldaOS.doVfsOpen] at h
  cases hopen : (mountedFiles T M).openFile s.names path with
  | none =>
    rw [hopen] at h
    cases h
  | some file =>
    rw [hopen] at h
    cases h
    simp only [mountedFiles] at hopen
    split at hopen
    · split_ifs at hopen with hfile
      exact hfile.1 (Option.some.inj hopen)
    · cases hopen

theorem doVfsTruncate_eq (file offset : ℕ) (writable : Bool) : doVfsTruncate T s file offset =
    ZeldaOS.doVfsTruncate (mountedFiles T M) s ⟨some file, 0, true, writable⟩ offset := by
  simp only [doVfsTruncate, ZeldaOS.doVfsTruncate, entryOps, mountedFiles]
  cases fileOps T s.names file <;> rfl

/-- What `call_sys_open` does with a free descriptor once the file is there. -/
theorem openAt_eq (h : Succeeds (lookupFile M s.names path))
    (hlive : ∀ found, lookupFile M s.names path = .ok (some found) → found.file ≠ 0 → found.file ∈ s.names.live)
    (table : FileTable) (fd : ℕ) (flags : UInt32) : openAt T M s table fd path flags =
      match ZeldaOS.doVfsOpen (mountedFiles T M) s path with
      | (s, none) => .ok (s, table, -errGeneric)
      | (s, some file) =>
        if writes flags ∧ flags &&& oTrunc ≠ 0 then do
          let (s, _) ← ZeldaOS.doVfsTruncate (mountedFiles T M) s ⟨some file, 0, true, writes flags⟩ 0
          .ok (s, table.set fd ⟨some file, 0, true, writes flags⟩, fd)
        else .ok (s, table.set fd ⟨some file, 0, true, writes flags⟩, fd) := by
  have hne : (ZeldaOS.doVfsOpen (mountedFiles T M) s path).2 ≠ some 0 := doVfsOpen_ne_null
  rw [openAt, doVfsOpen_eq (T := T) h hlive]
  generalize ZeldaOS.doVfsOpen (mountedFiles T M) s path = opened at hne ⊢
  obtain ⟨s1, file⟩ := opened
  cases file with
  | none => rfl
  | some file =>
    change (if file = 0 then _ else _) = _
    rw [if_neg fun h0 => hne (congrArg some h0)]
    dsimp only [Option.getD_some]
    rw [truncateOpened]
    split_ifs with hflags
    · rw [doVfsTruncate_eq (M := M) file 0 (writes flags)]
      cases ZeldaOS.doVfsTruncate (mountedFiles T M) s1 ⟨some file, 0, true, writes flags⟩ 0 <;> rfl
    · rfl

/-- **`call_sys_open` of the two models agrees on a path with a canonical name.** -/
theorem callSysOpen_eq (hM : ∀ i e, M.entry i = some e → KernelMount s.names e) {cwd user : CString}
    (hpath : composeAbsolutePath cwd user = .ok path) (hname : Resolvable path) (table : FileTable) (flags : UInt32) :
    callSysOpen T M s table cwd user flags = ZeldaOS.callSysOpen (mountedFiles T M) s table path flags := by
  rw [callSysOpen, hpath, ZeldaOS.callSysOpen]
  cases searchUnoccupiedFileDescriptor table with
  | none => rfl
  | some fd =>
    dsimp only [bind, Except.bind]
    by_cases hflags : flags &&& oCreat ≠ 0
    · rw [createFirst, if_pos hflags, if_pos hflags]
      obtain ⟨s1, file, hcreate, hfound⟩ := doVfsCreate_returns hM hname
      rw [hcreate]
      rw [doVfsCreate_eq (T := T) hM hname] at hcreate
      rw [Except.ok.inj hcreate]
      cases file with
      | none => rfl
      | some file =>
        obtain ⟨found, hlook, -, hlive⟩ := hfound (Option.some_ne_none file)
        have hfiles : ∀ found', lookupFile M s1.names path = .ok (some found') → found'.file ≠ 0 →
            found'.file ∈ s1.names.live := by
          intro found' hfound' _
          cases hlook.symm.trans hfound'
          exact hlive
        change openAt T M s1 table fd path flags = _
        rw [openAt_eq (T := T) ⟨_, hlook⟩ hfiles]
        dsimp only
        rcases ZeldaOS.doVfsOpen (mountedFiles T M) s1 path with ⟨s2, _ | opened⟩ <;> rfl
    · rw [createFirst, if_neg hflags, if_neg hflags]
      change openAt T M s table fd path flags = _
      rw [openAt_eq (T := T) ((lookupFile_succeeds_iff hM).2 hname) fun _ => lookupFile_live hM]
      dsimp only
      rcases ZeldaOS.doVfsOpen (mountedFiles T M) s path with ⟨s2, _ | opened⟩ <;> rfl

end Paths

end ZeldaOS
