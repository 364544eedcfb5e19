import ZeldaOS.Machine.Bytes
import ZeldaOS.Posix
import ZeldaOS.Vfs.Path

/-!
# Open files

The file interface of `filesystem/vfs.c` and the system calls of `kernel/task_misc.c` on top of it, over any file
systems. A file is named by its address.

* `FileSystems`: what the calls need of the file systems.
* `callSysOpen` and the other calls.
-/

namespace ZeldaOS

open Machine

inductive FileType where
  | none | mark | regular | dir
  deriving DecidableEq, Repr

/-! ## Operations of a file -/

/-- An operation on the contents `ρ`. It stops the kernel with `fault`, an assertion that fails or an access through
`NULL`, unless it `accepts` its arguments. -/
structure GuardedOp (α ρ β : Type) where
  accepts : α → ρ → Bool
  fault : FsFault
  run : α → ρ → ρ × β

namespace GuardedOp

variable {α ρ β γ : Type}

def call (op : GuardedOp α ρ β) (a : α) (c : ρ) : Except FsFault (ρ × β) :=
  if op.accepts a c then .ok (op.run a c) else .error op.fault

/-- An operation that returns for all arguments. -/
def total (run : α → ρ → ρ × β) : GuardedOp α ρ β := ⟨fun _ _ => true, .assertion, run⟩

def mapResult (g : β → γ) (op : GuardedOp α ρ β) : GuardedOp α ρ γ :=
  ⟨op.accepts, op.fault, fun a c => ((op.run a c).1, g (op.run a c).2)⟩

theorem call_of_accepts {op : GuardedOp α ρ β} {a : α} {c : ρ} (h : op.accepts a c = true) :
    op.call a c = .ok (op.run a c) := if_pos h

@[simp] theorem total_call (run : α → ρ → ρ × β) (a : α) (c : ρ) : (total run).call a c = .ok (run a c) := rfl

end GuardedOp

/-- What a read or a write is asked for. -/
structure Transfer where
  file : ℕ
  offset : ℕ
  size : ℤ

/-- `struct file_operation`, with `none` for `NULL`; `stat` also returns `st_size`. Only `stat`, `read` and `write` can
stop the kernel: the one assertion in the others, that a file of `zeldafs` has its record, holds whenever the file has
this table. -/
structure FileOps (ρ : Type) where
  isatty : Option (ℕ → ρ → ρ × ℤ)
  size : Option (ℕ → ρ → ρ × ℤ)
  stat : Option (GuardedOp ℕ ρ (ℤ × UInt32))
  read : Option (GuardedOp Transfer ρ ℤ)
  write : Option (GuardedOp Transfer ρ ℤ)
  truncate : Option (ℕ → (offset : ℕ) → ρ → ρ × ℤ)
  ioctl : Option (ℕ → (request : UInt32) → ρ → ρ × ℤ)

/-- The file, and every `struct file` that was allocated for it. -/
structure Created (σ ρ : Type) where
  names : σ
  contents : ρ
  file : Option ℕ
  allocated : List ℕ

/-- The fields of the files, and what lookups and then `fs_open` or `fs_create` do with a path. -/
structure FileSystems (σ ρ : Type) where
  isFile : σ → ℕ → Prop
  type : σ → ℕ → FileType
  ops : σ → ℕ → Option (FileOps ρ)
  openFile : σ → CString → Option ℕ
  createFile : σ → ρ → CString → Created σ ρ
  open_isFile : ∀ n path f, openFile n path = some f → isFile n f
  create_isFile : ∀ n c path f, isFile n f → isFile (createFile n c path).names f
  create_fresh : ∀ n c path, ∀ f ∈ (createFile n c path).allocated, ¬isFile n f

/-! ## Descriptors -/

structure FileEntry where
  file : Option ℕ
  offset : ℕ
  valid : Bool
  writable : Bool
  deriving DecidableEq

def FileEntry.closed : FileEntry := ⟨none, 0, false, false⟩

def maxFileDescriptor : ℕ := 256

structure FileTable where
  entries : List FileEntry
  length_eq : entries.length = maxFileDescriptor

def FileTable.set (table : FileTable) (fd : ℕ) (entry : FileEntry) : FileTable :=
  ⟨table.entries.set fd entry, (List.length_set ..).trans table.length_eq⟩

def FileTable.empty : FileTable := ⟨List.replicate maxFileDescriptor .closed, List.length_replicate ..⟩

/-- With the field `refer_count` of all files, and the descriptors of the live tasks. -/
structure VfsState (σ ρ : Type) where
  names : σ
  contents : ρ
  referCount : ℕ → UInt32
  tasks : List FileTable

def oWronly : UInt32 := 0x1
def oRdwr : UInt32 := 0x2
def oCreat : UInt32 := 0x0200
def oTrunc : UInt32 := 0x0400

def seekSet : ℤ := 0
def seekCur : ℤ := 1
def seekEnd : ℤ := 2

section
variable {σ ρ : Type} (F : FileSystems σ ρ)

/-! ## The file interface -/

def doVfsOpen (s : VfsState σ ρ) (path : CString) : VfsState σ ρ × Option ℕ :=
  match F.openFile s.names path with
  | none => (s, none)
  | some file => ({ s with referCount := Function.update s.referCount file (s.referCount file + 1) }, some file)

def doVfsClose (s : VfsState σ ρ) (file : ℕ) : VfsState σ ρ :=
  { s with referCount := Function.update s.referCount file (s.referCount file - 1) }

def doVfsCreate (s : VfsState σ ρ) (path : CString) : VfsState σ ρ × Option ℕ :=
  let created := F.createFile s.names s.contents path
  ({ s with
    names := created.names
    contents := created.contents
    referCount := fun f => if f ∈ created.allocated then 0 else s.referCount f }, created.file)

def entryOps (s : VfsState σ ρ) (entry : FileEntry) (e : FsFault) : Except FsFault (ℕ × FileOps ρ) :=
  match entry.file with
  | none => .error .null
  | some file =>
    match F.ops s.names file with
    | none => .error e
    | some ops => .ok (file, ops)

def FileEntry.advance (entry : FileEntry) (result : ℤ) : FileEntry :=
  if 0 < result then { entry with offset := u32 (entry.offset + result) } else entry

def doVfsRead (s : VfsState σ ρ) (entry : FileEntry) (size : ℤ) :
    Except FsFault (VfsState σ ρ × FileEntry × ℤ) := do
  let (file, ops) ← entryOps F s entry .assertion
  match ops.read with
  | none => .error .assertion
  | some read => do
    let (contents, result) ← read.call ⟨file, entry.offset, size⟩ s.contents
    .ok ({ s with contents }, entry.advance result, result)

def doVfsWrite (s : VfsState σ ρ) (entry : FileEntry) (size : ℤ) :
    Except FsFault (VfsState σ ρ × FileEntry × ℤ) := do
  let (file, ops) ← entryOps F s entry .assertion
  match ops.write with
  | none => .error .assertion
  | some write =>
    if entry.writable then do
      let (contents, result) ← write.call ⟨file, entry.offset, size⟩ s.contents
      .ok ({ s with contents }, entry.advance result, result)
    else .ok (s, entry, -errNotSupported)

/-- `do_vfs_lseek`; any other `whence` leaves the offset as it is. -/
def doVfsLseek (s : VfsState σ ρ) (entry : FileEntry) (offset whence : ℤ) :
    Except FsFault (VfsState σ ρ × FileEntry × ℤ) :=
  if whence = seekSet then .ok (s, { entry with offset := u32 offset }, i32 (u32 offset))
  else if whence = seekCur then
    .ok (s, { entry with offset := u32 (entry.offset + offset) }, i32 (u32 (entry.offset + offset)))
  else if whence = seekEnd then do
    let (file, ops) ← entryOps F s entry .assertion
    match ops.size with
    | none => .error .assertion
    | some size =>
      let (contents, length) := size file s.contents
      .ok ({ s with contents }, { entry with offset := u32 (length + offset) }, i32 (u32 (length + offset)))
  else .ok (s, entry, i32 entry.offset)

def doVfsTruncate (s : VfsState σ ρ) (entry : FileEntry) (offset : ℕ) : Except FsFault (VfsState σ ρ × ℤ) := do
  let (file, ops) ← entryOps F s entry .assertion
  match ops.truncate with
  | none => .ok (s, -errNotSupported)
  | some truncate =>
    let (contents, result) := truncate file offset s.contents
    .ok ({ s with contents }, result)

def doVfsStat (s : VfsState σ ρ) (path : CString) : Except FsFault (VfsState σ ρ × ℤ × UInt32) :=
  match F.openFile s.names path with
  | none => .ok (s, -errNotFound, 0)
  | some file =>
    match F.ops s.names file with
    | none => .error .null
    | some ops =>
      match ops.stat with
      | none => .ok (s, -errNotSupported, 0)
      | some stat => do
        let (contents, result, size) ← stat.call file s.contents
        .ok ({ s with contents }, result, size)

/-! ## System calls -/

def searchUnoccupiedFileDescriptor (table : FileTable) : Option ℕ :=
  table.entries.findIdx? fun entry => !entry.valid

def callSysOpen (s : VfsState σ ρ) (table : FileTable) (path : CString) (flags : UInt32) :
    Except FsFault (VfsState σ ρ × FileTable × ℤ) :=
  match searchUnoccupiedFileDescriptor table with
  | none => .ok (s, table, -errOutOfResource)
  | some fd =>
    let (s, created) := if flags &&& oCreat ≠ 0 then
        let (s, file) := doVfsCreate F s path
        (s, file.isSome)
      else (s, true)
    if created then
      match doVfsOpen F s path with
      | (s, none) => .ok (s, table, -errGeneric)
      | (s, some file) =>
        let writable := decide (flags &&& oWronly ≠ 0 ∨ flags &&& oRdwr ≠ 0)
        let entry : FileEntry := ⟨some file, 0, true, writable⟩
        if writable ∧ flags &&& oTrunc ≠ 0 then do
          let (s, _) ← doVfsTruncate F s entry 0
          .ok (s, table.set fd entry, fd)
        else .ok (s, table.set fd entry, fd)
    else .ok (s, table, -errGeneric)

def FileTable.entry (table : FileTable) (fd : ℤ) : Option FileEntry :=
  if fd < 0 ∨ maxFileDescriptor ≤ fd then none
  else (table.entries[fd.toNat]?).filter FileEntry.valid

def callSysClose (s : VfsState σ ρ) (table : FileTable) (fd : ℤ) :
    Except FsFault (VfsState σ ρ × FileTable × ℤ) :=
  match table.entry fd with
  | none => .ok (s, table, -errInvalidArg)
  | some entry =>
    match entry.file with
    | none => .error .null
    | some file => .ok (doVfsClose s file, table.set fd.toNat .closed, 0)

def onEntry (s : VfsState σ ρ) (table : FileTable) (fd : ℤ)
    (f : FileEntry → Except FsFault (VfsState σ ρ × FileEntry × ℤ)) :
    Except FsFault (VfsState σ ρ × FileTable × ℤ) :=
  match table.entry fd with
  | none => .ok (s, table, -errInvalidArg)
  | some entry => do
    let (s, entry, result) ← f entry
    .ok (s, table.set fd.toNat entry, result)

def callSysRead (s : VfsState σ ρ) (table : FileTable) (fd size : ℤ) :=
  onEntry s table fd fun entry => doVfsRead F s entry size

def callSysWrite (s : VfsState σ ρ) (table : FileTable) (fd size : ℤ) :=
  onEntry s table fd fun entry => doVfsWrite F s entry size

def callSysLseek (s : VfsState σ ρ) (table : FileTable) (fd offset whence : ℤ) :=
  onEntry s table fd fun entry => doVfsLseek F s entry offset whence

/-- The calls that look up an operation in `file->ops`. -/
def onOps (s : VfsState σ ρ) (table : FileTable) (fd invalid missing : ℤ)
    (f : FileOps ρ → Option (GuardedOp ℕ ρ ℤ)) : Except FsFault (VfsState σ ρ × FileTable × ℤ) :=
  match table.entry fd with
  | none => .ok (s, table, invalid)
  | some entry => do
    FsFault.assertion.unless (entry.file.isSome = true)
    let (file, ops) ← entryOps F s entry .null
    match f ops with
    | none => .ok (s, table, missing)
    | some op => do
      let (contents, result) ← op.call file s.contents
      .ok ({ s with contents }, table, result)

def callSysFstat (s : VfsState σ ρ) (table : FileTable) (fd : ℤ) :=
  onOps F s table fd (-errInvalidArg) (-errNotSupported) fun ops =>
    ops.stat.map (GuardedOp.mapResult Prod.fst)

def callSysIsatty (s : VfsState σ ρ) (table : FileTable) (fd : ℤ) :=
  onOps F s table fd 0 0 fun ops => ops.isatty.map GuardedOp.total

def callSysIoctl (s : VfsState σ ρ) (table : FileTable) (fd : ℤ) (request : UInt32) :=
  onOps F s table fd (-errInvalidArg) (-errNotSupported) fun ops =>
    ops.ioctl.map fun ioctl => .total fun file => ioctl file request

def loadLoop : (fuel : ℕ) → VfsState σ ρ → FileEntry → (left : ℕ) → Except FsFault (VfsState σ ρ × ℕ)
  | 0, _, _, _ => .error .diverge
  | fuel + 1, s, entry, left =>
    if left = 0 then .ok (s, 0)
    else do
      let (s, entry, result) ← doVfsRead F s entry left
      if u32 result = 0 then .ok (s, left)
      else loadLoop fuel s entry (u32 (left - result))

/-- Whether there is memory for the file, it is accepted, and `load_static_elf32` succeeds. -/
structure ExecOutcome where
  buffer : Bool
  accepted : Bool
  loaded : Bool

def loadFileIntoMemory (fuel : ℕ) (s : VfsState σ ρ) (path : CString) (buffer : Bool) :
    Except FsFault (VfsState σ ρ × Bool) :=
  match doVfsOpen F s path with
  | (s, none) => .ok (s, false)
  | (s, some file) =>
    if F.type s.names file ≠ .regular then .ok (doVfsClose s file, false)
    else do
      let (s, result, size) ← doVfsStat F s path
      if result ≠ 0 ∨ size = 0 ∨ buffer = false then .ok (doVfsClose s file, false)
      else do
        let (s, left) ← loadLoop F fuel s ⟨some file, 0, false, false⟩ size.toNat
        if 0 < left then .ok (doVfsClose s file, false) else .ok (s, true)

def callSysExecve (fuel : ℕ) (s : VfsState σ ρ) (path : CString) (outcome : ExecOutcome) :
    Except FsFault (VfsState σ ρ × ℤ) := do
  let (s, inMemory) ← loadFileIntoMemory F fuel s path outcome.buffer
  if inMemory ∧ outcome.accepted ∧ outcome.loaded then
    .ok ({ s with tasks := s.tasks ++ [.empty] }, s.tasks.length)
  else .ok (s, -errGeneric)

def reclaimFiles (s : VfsState σ ρ) : List FileEntry → Except FsFault (VfsState σ ρ)
  | [] => .ok s
  | entry :: entries =>
    if entry.valid then
      match entry.file with
      | none => .error .assertion
      | some file => reclaimFiles (doVfsClose s file) entries
    else reclaimFiles s entries

def VfsState.call (s : VfsState σ ρ) (task : ℕ)
    (f : FileTable → Except FsFault (VfsState σ ρ × FileTable × ℤ)) : Except FsFault (VfsState σ ρ × ℤ) :=
  match s.tasks[task]? with
  | none => .ok (s, -errInvalidArg)
  | some table => do
    let (s, table, result) ← f table
    .ok ({ s with tasks := s.tasks.set task table }, result)

/-- `reclaim_task`: the files of a task are closed, and it is not live any more. -/
def VfsState.reclaimTask (s : VfsState σ ρ) (task : ℕ) : Except FsFault (VfsState σ ρ) :=
  match s.tasks[task]? with
  | none => .ok s
  | some table => do
    let s ← reclaimFiles s table.entries
    .ok { s with tasks := s.tasks.eraseIdx task }

def VfsState.start (names : σ) (contents : ρ) (tasks : ℕ) : VfsState σ ρ :=
  ⟨names, contents, fun _ => 0, List.replicate tasks .empty⟩

end

end ZeldaOS
