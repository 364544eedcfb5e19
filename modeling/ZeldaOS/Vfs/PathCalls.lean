import ZeldaOS.Hierarchy.Model
import ZeldaOS.Vfs.Compose
import ZeldaOS.Vfs.Mount

/-!
# System calls on paths

`kernel/task_misc.c` and `filesystem/vfs.c`, from the path that a program passes to the file it names.

* `lookupFile_eq`: a lookup depends on the canonical name.
-/

namespace ZeldaOS

open Machine

/-- `compose_absolute_path` into a buffer of `MAX_PATH` bytes. -/
def composeAbsolutePath (cwd path : CString) : Except FsFault CString :=
  match composedBytes cwd path with
  | none => .error .assertion
  | some bs => do
    FsFault.overflow.unless (bs.length ≤ maxPath)
    .ok (CString.ofBytes bs)

/-! ## Lookups -/

/-- With the file system it is called for; `fs_open` returns `0` for `NULL`. -/
structure FilesystemOperation (ρ : Type) where
  fsOpen : Option (FileTree → CString → Except FsFault ℕ)
  fsCreate : Option (FileTree → ρ → CString → Except FsFault (Created FileTree ρ))

/-- The index of the mount entry, the entry, and the file, which may be `NULL`. -/
structure Found (ρ : Type) where
  index : ℕ
  entry : MountEntry (FilesystemOperation ρ)
  file : ℕ

def oRdonly : UInt32 := 0

structure Dirent where
  size : ℕ
  type : FileType
  name : CString
  deriving DecidableEq

namespace Paths

variable {ρ : Type} (T : ℕ → FileOps ρ) (M : MountTable (FilesystemOperation ρ))

def fileOps (t : FileTree) (file : ℕ) : Option (FileOps ρ) :=
  if t.ops file = 0 then none else some (T (t.ops file))

def mountOf (path : CString) : Except FsFault (Option (ℕ × MountEntry (FilesystemOperation ρ))) :=
  (searchMountEntry M path).map fun found => found.bind fun i => (M.entry i).map fun e => (i, e)

def openIn (t : FileTree) (i : ℕ) (e : MountEntry (FilesystemOperation ρ)) (sub : CString) :
    Except FsFault (Option (Found ρ)) :=
  match e.fs.fsOpen with
  | none => .error .assertion
  | some fsOpen => (fsOpen t sub).map fun file => some ⟨i, e, file⟩

/-- What the three functions begin with; `none` without a mount entry. -/
def lookupFile (t : FileTree) (path : CString) : Except FsFault (Option (Found ρ)) := do
  match ← mountOf M path with
  | none => .ok none
  | some (i, e) => do
    let sub ← resolveSubpath path e.mountPoint
    openIn t i e sub

def doVfsOpen (s : VfsState FileTree ρ) (path : CString) : Except FsFault (VfsState FileTree ρ × ℕ) := do
  match ← lookupFile M s.names path with
  | none => .ok (s, 0)
  | some found =>
    if found.file = 0 then .ok (s, 0)
    else
      .ok ({ s with
        referCount := Function.update s.referCount found.file (s.referCount found.file + 1) }, found.file)

/-- `fs_create`, if the file system has it; a new `struct file` is zeroed. -/
def createIn (s : VfsState FileTree ρ) (e : MountEntry (FilesystemOperation ρ)) (sub : CString) :
    Except FsFault (VfsState FileTree ρ × Option ℕ) :=
  match e.fs.fsCreate with
  | none => .ok (s, none)
  | some fsCreate => do
    let created ← fsCreate s.names s.contents sub
    .ok ({ s with
      names := created.names
      contents := created.contents
      referCount := fun f => if f ∈ created.allocated then 0 else s.referCount f }, created.file)

def doVfsCreate (s : VfsState FileTree ρ) (path : CString) : Except FsFault (VfsState FileTree ρ × Option ℕ) := do
  match ← mountOf M path with
  | none => .ok (s, none)
  | some (_, e) => do
    let sub ← resolveSubpath path e.mountPoint
    createIn s e sub

def doVfsTruncate (s : VfsState FileTree ρ) (file offset : ℕ) : Except FsFault (VfsState FileTree ρ × ℤ) :=
  match fileOps T s.names file with
  | none => .error .assertion
  | some ops =>
    match ops.truncate with
    | none => .ok (s, -errNotSupported)
    | some truncate =>
      let (contents, result) := truncate file offset s.contents
      .ok ({ s with contents }, result)

/-- The end of `do_vfs_stat` and `call_sys_fstat`: the result, and `st_size`. -/
def statFile (s : VfsState FileTree ρ) (file : ℕ) : Except FsFault (VfsState FileTree ρ × ℤ × UInt32) :=
  match fileOps T s.names file with
  | none => .error .null
  | some ops =>
    match ops.stat with
    | none => .ok (s, -errNotSupported, 0)
    | some stat => do
      let (contents, result, size) ← stat.call file s.contents
      .ok ({ s with contents }, result, size)

def doVfsStat (s : VfsState FileTree ρ) (path : CString) : Except FsFault (VfsState FileTree ρ × ℤ × UInt32) := do
  match ← lookupFile M s.names path with
  | none => .ok (s, -errInvalidArg, 0)
  | some found => if found.file = 0 then .ok (s, -errNotFound, 0) else statFile T s found.file

/-! ## Listings -/

def entrySize (ops : FileOps ρ) (file : ℕ) (c : ρ) : ρ × ℕ :=
  match ops.size with
  | none => (c, 0)
  | some size => ((size file c).1, u32 (size file c).2)

def putDirEntry (t : FileTree) (file : ℕ) (c : ρ) : Except FsFault (ρ × Dirent) :=
  let name := strcpySafe (t.name file) 256
  match t.type file with
  | .mark => .ok (c, ⟨0, .mark, name⟩)
  | .dir => .ok (c, ⟨0, .dir, name⟩)
  | .regular =>
    match fileOps T t file with
    | none => .error .assertion
    | some ops => .ok ((entrySize ops file c).1, ⟨(entrySize ops file c).2, .regular, name⟩)
  | .none => .error .assertion

/-- The `FOREACH_SIBLING_NODE` loop of `do_vfs_getdents`, with room for `n` more entries. -/
def putEntries (t : FileTree) : (n x : ℕ) → ρ → Except FsFault (ρ × List Dirent)
  | 0, _, c => .ok (c, [])
  | n + 1, x, c =>
    if x = 0 then .ok (c, [])
    else do
      let (c, d) ← putDirEntry T t x c
      let (c, ds) ← putEntries t n (t.nodes.right x) c
      .ok (c, d :: ds)

def putSiblings (t : FileTree) (n x : ℕ) (c : ρ) : Except FsFault (ρ × List Dirent) := do
  let first ← firstSibling t.nodes t.fuel x
  putEntries T t n first c

def fileEntries (t : FileTree) (n file : ℕ) (c : ρ) : Except FsFault (ρ × List Dirent) :=
  match t.type file with
  | .regular =>
    if 0 < n then (putDirEntry T t file c).map fun r => (r.1, [r.2]) else .ok (c, [])
  | .dir => putSiblings T t n (t.nodes.left file) c
  | .mark => putSiblings T t n file c
  | .none => .ok (c, [])

/-- The other entries whose mount points begin with that of `e`. -/
def otherMounts (i : ℕ) (e : MountEntry (FilesystemOperation ρ)) : List (MountEntry (FilesystemOperation ρ)) :=
  (List.range mountEntrySize).filterMap fun j =>
    (M.entry j).filter fun e' => j ≠ i ∧ startWith e'.mountPoint e.mountPoint = 0

/-- The sub-path of the mount point up to its first slash. -/
def mountEntries (e : MountEntry (FilesystemOperation ρ)) :
    List (MountEntry (FilesystemOperation ρ)) → (n : ℕ) → Except FsFault (List Dirent)
  | [], _ => .ok []
  | e' :: es, n => do
    let sub ← resolveSubpath e'.mountPoint e.mountPoint
    match n with
    | 0 => .ok []
    | n + 1 => do
      let ds ← mountEntries e es n
      .ok (⟨0, .dir, strcpySafe (CString.ofBytes (sub.bytes.takeWhile (· ≠ slash))) 256⟩ :: ds)

def moreEntries (t : FileTree) (found : Found ρ) (n : ℕ) : Except FsFault (List Dirent) :=
  if t.type found.file = .mark then mountEntries found.entry (otherMounts M found.index found.entry) n else .ok []

/-- `do_vfs_getdents` for a file. Its type is read even when it is `NULL`. -/
def foundEntries (s : VfsState FileTree ρ) (found : Found ρ) (n : ℕ) :
    Except FsFault (VfsState FileTree ρ × ℤ × List Dirent) := do
  FsFault.null.unless (found.file ≠ 0)
  let (contents, ds) ← fileEntries T s.names n found.file s.contents
  let more ← moreEntries M s.names found (n - ds.length)
  .ok ({ s with contents }, (ds ++ more).length, ds ++ more)

def doVfsGetdents (s : VfsState FileTree ρ) (path : CString) (count : ℤ) :
    Except FsFault (VfsState FileTree ρ × ℤ × List Dirent) := do
  match ← lookupFile M s.names path with
  | none => .ok (s, -errInvalidArg, [])
  | some found => foundEntries T M s found count.toNat

/-! ## System calls -/

/-- The `O_CREAT` part of `call_sys_open`: whether it goes on. -/
def createFirst (s : VfsState FileTree ρ) (path : CString) (flags : UInt32) :
    Except FsFault (VfsState FileTree ρ × Bool) :=
  if flags &&& oCreat ≠ 0 then (doVfsCreate M s path).map fun r => (r.1, r.2.isSome) else .ok (s, true)

def writes (flags : UInt32) : Bool := flags &&& oWronly ≠ 0 ∨ flags &&& oRdwr ≠ 0

def truncateOpened (s : VfsState FileTree ρ) (file : ℕ) (flags : UInt32) : Except FsFault (VfsState FileTree ρ) :=
  if writes flags = true ∧ flags &&& oTrunc ≠ 0 then (doVfsTruncate T s file 0).map Prod.fst else .ok s

/-- `call_sys_open` with a free descriptor, from `do_vfs_open` on. -/
def openAt (s : VfsState FileTree ρ) (table : FileTable) (fd : ℕ) (path : CString) (flags : UInt32) :
    Except FsFault (VfsState FileTree ρ × FileTable × ℤ) := do
  let (s, file) ← doVfsOpen M s path
  if file = 0 then .ok (s, table, -errGeneric)
  else do
    let s ← truncateOpened T s file flags
    .ok (s, table.set fd ⟨some file, 0, true, writes flags⟩, fd)

def callSysOpen (s : VfsState FileTree ρ) (table : FileTable) (cwd path : CString) (flags : UInt32) :
    Except FsFault (VfsState FileTree ρ × FileTable × ℤ) := do
  let path ← composeAbsolutePath cwd path
  match searchUnoccupiedFileDescriptor table with
  | none => .ok (s, table, -errOutOfResource)
  | some fd => do
    let (s, created) ← createFirst M s path flags
    if created then openAt T M s table fd path flags else .ok (s, table, -errGeneric)

def callSysStat (s : VfsState FileTree ρ) (path : CString) : Except FsFault (VfsState FileTree ρ × ℤ × UInt32) :=
  doVfsStat T M s path

def callSysFstat (s : VfsState FileTree ρ) (table : FileTable) (fd : ℤ) :
    Except FsFault (VfsState FileTree ρ × ℤ × UInt32) :=
  match table.entry fd with
  | none => .ok (s, -errInvalidArg, 0)
  | some entry =>
    match entry.file with
    | none => .error .assertion
    | some file => statFile T s file

def callSysGetdents (s : VfsState FileTree ρ) (cwd path : CString) (count : ℤ) :
    Except FsFault (VfsState FileTree ρ × ℤ × List Dirent) := do
  let path ← composeAbsolutePath cwd path
  doVfsGetdents T M s path count

/-- The result of `canonicalize_path_name` is not looked at. -/
def chdirName (path : CString) : Except FsFault CString := do
  let stored := (canonicalizePathName path).getD []
  FsFault.overflow.unless (stored.length ≤ maxPath)
  .ok (CString.ofBytes stored)

def callSysChdir (s : VfsState FileTree ρ) (cwd path : CString) :
    Except FsFault (VfsState FileTree ρ × CString × ℤ) := do
  let path ← composeAbsolutePath cwd path
  let cName ← chdirName path
  let (s, result, dirents) ← doVfsGetdents T M s cName 1
  if result = 1 ∧ dirents.any (fun d => d.type = .dir ∨ d.type = .mark) then .ok (s, strcpySafe cName maxPath, 0)
  else .ok (s, cwd, -errInvalidArg)

/-- What `resolve_subpath` leaves of a canonical name. -/
def subpathOf (c mountPoint : CString) : CString :=
  CString.ofBytes (if dropCommon c.bytes mountPoint.bytes = [] then [slash] else dropCommon c.bytes mountPoint.bytes)

def mountOfName (c : CString) : Option (ℕ × MountEntry (FilesystemOperation ρ)) :=
  ((bestFit (M.slots.map fun slot => slot.bind (mountDegree c)) 0 none).map Prod.fst).bind fun i =>
    (M.entry i).map fun e => (i, e)

def lookupName (t : FileTree) (c : CString) : Except FsFault (Option (Found ρ)) :=
  match mountOfName M c with
  | none => .ok none
  | some (i, e) => openIn t i e (subpathOf c e.mountPoint)

section
variable {M} {t : FileTree} {path c : CString}

theorem resolveSubpath_of_name (h : canonicalName path = .ok c) (mountPoint : CString) :
    resolveSubpath path mountPoint = .ok (subpathOf c mountPoint) := by
  obtain ⟨stored, hcanon, hfits, rfl⟩ := canonicalName_eq h
  rw [resolveSubpath, hcanon]
  exact bind_of_ok (FsFault.unless_of hfits) rfl

theorem mountOf_of_name (h : canonicalName path = .ok c) : mountOf M path = .ok (mountOfName M c) := by
  rw [mountOf, searchMountEntry, h]
  rfl

theorem mountOf_of_error {e : FsFault} (h : canonicalName path = .error e) : mountOf M path = .error e := by
  rw [mountOf, searchMountEntry, h]
  rfl

theorem mountOfName_cases (h : canonicalName path = .ok c) :
    mountOfName M c = none ∧ (∀ i e, M.entry i = some e → ¬e.mountPoint.bytes <+: c.bytes) ∨
      ∃ i e, mountOfName M c = some (i, e) ∧ M.entry i = some e ∧ e.mountPoint.bytes <+: c.bytes := by
  have hmount := mountOf_of_name (M := M) h
  rw [mountOf] at hmount
  rcases searchMountEntry_cases h with ⟨hnone, hall⟩ | ⟨i, e, hsome, he, hpre, -⟩
  · rw [hnone] at hmount
    exact .inl ⟨(Except.ok.inj hmount).symm, hall⟩
  rw [hsome] at hmount
  refine .inr ⟨i, e, ?_, he, hpre⟩
  rw [← Except.ok.inj hmount]
  change (M.entry i).map _ = _
  rw [he]
  rfl

theorem lookupFile_eq (M : MountTable (FilesystemOperation ρ)) (t : FileTree) (path : CString) :
    lookupFile M t path = canonicalName path >>= lookupName M t := by
  rw [lookupFile]
  cases hname : canonicalName path with
  | error e =>
    rw [mountOf_of_error hname]
    rfl
  | ok c =>
    rw [mountOf_of_name hname]
    change _ = lookupName M t c
    rw [lookupName]
    cases mountOfName M c with
    | none => rfl
    | some r =>
      change (resolveSubpath path r.2.mountPoint >>= openIn t r.1 r.2) = _
      rw [resolveSubpath_of_name hname]
      rfl

end

end Paths

end ZeldaOS
