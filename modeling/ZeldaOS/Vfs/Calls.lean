import ZeldaOS.Tmpfs.Operations
import ZeldaOS.Vfs.References

/-!
# System calls on descriptors

Which calls return, for files of any kind with any of their operations missing.

* `descriptor_calls_return`: which calls return.
-/

namespace ZeldaOS

open Machine List

/-! ## Runs -/

inductive DescriptorOp where
  | openFile (task : ℕ) (path : CString) (flags : UInt32)
  | closeFile (task : ℕ) (fd : ℤ)
  | read (task : ℕ) (fd size : ℤ)
  | write (task : ℕ) (fd size : ℤ)
  | lseek (task : ℕ) (fd offset whence : ℤ)
  | fstat (task : ℕ) (fd : ℤ)
  | isatty (task : ℕ) (fd : ℤ)
  | ioctl (task : ℕ) (fd : ℤ) (request : UInt32)

variable {σ ρ : Type}

section
variable (F : FileSystems σ ρ)

def DescriptorOp.call (s : VfsState σ ρ) : DescriptorOp → Except FsFault (VfsState σ ρ × ℤ)
  | .openFile task path flags => s.call task fun table => callSysOpen F s table path flags
  | .closeFile task fd => s.call task fun table => callSysClose s table fd
  | .read task fd size => s.call task fun table => callSysRead F s table fd size
  | .write task fd size => s.call task fun table => callSysWrite F s table fd size
  | .lseek task fd offset whence => s.call task fun table => callSysLseek F s table fd offset whence
  | .fstat task fd => s.call task fun table => callSysFstat F s table fd
  | .isatty task fd => s.call task fun table => callSysIsatty F s table fd
  | .ioctl task fd request => s.call task fun table => callSysIoctl F s table fd request

def DescriptorOp.step (s : VfsState σ ρ) (op : DescriptorOp) : Except FsFault (VfsState σ ρ) := do
  let (s, _) ← op.call F s
  .ok s

def openingNames (s : VfsState σ ρ) (path : CString) (flags : UInt32) : σ :=
  if flags &&& oCreat ≠ 0 then (F.createFile s.names s.contents path).names else s.names

def HasOps (names : σ) (file : ℕ) (P : FileOps ρ → Prop) : Prop := ∃ ops ∈ F.ops names file, P ops

/-- The file of the descriptor, if in use, has a table of operations with `P`. -/
def VfsState.Offers (s : VfsState σ ρ) (task : ℕ) (fd : ℤ) (P : FileEntry → ℕ → FileOps ρ → Prop) : Prop :=
  ∀ table ∈ s.tasks[task]?, ∀ entry ∈ table.entry fd, ∀ file ∈ entry.file, HasOps F s.names file (P entry file)

/-- The file has a table of operations, with those that the call needs, and they accept its arguments. -/
def DescriptorOp.Supported (s : VfsState σ ρ) : DescriptorOp → Prop
  | .openFile _ path flags => flags &&& oTrunc ≠ 0 →
      ∀ file ∈ F.openFile (openingNames F s path flags) path, HasOps F (openingNames F s path flags) file fun _ => True
  | .closeFile _ _ => True
  | .read task fd size => s.Offers F task fd fun entry file ops =>
      ∃ read ∈ ops.read, read.accepts ⟨file, entry.offset, size⟩ s.contents = true
  | .write task fd size => s.Offers F task fd fun entry file ops =>
      ∃ write ∈ ops.write, entry.writable = true → write.accepts ⟨file, entry.offset, size⟩ s.contents = true
  | .lseek task fd _ whence => whence = seekEnd → s.Offers F task fd fun _ _ ops => ops.size ≠ none
  | .fstat task fd => s.Offers F task fd fun _ file ops => ∀ stat ∈ ops.stat, stat.accepts file s.contents = true
  | .isatty task fd => s.Offers F task fd fun _ _ _ => True
  | .ioctl task fd _ => s.Offers F task fd fun _ _ _ => True

end

/-! ## The calls -/

def FileTable.Filed (table : FileTable) : Prop := ∀ entry ∈ table.entries, entry.valid = true → entry.file ≠ none

variable {fd size : ℤ}

section
variable {F : FileSystems σ ρ} {s : VfsState σ ρ} {table : FileTable}

theorem FileTable.Filed.set (h : table.Filed) {entry : FileEntry}
    (hentry : entry.valid = true → entry.file ≠ none) (fd : ℕ) : (table.set fd entry).Filed := fun e he hv => by
  rcases mem_or_eq_of_mem_set he with he | rfl
  · exact h e he hv
  · exact hentry hv

theorem FileTable.Filed.entry (h : table.Filed) {entry : FileEntry} (he : table.entry fd = some entry) :
    entry.valid = true ∧ ∃ file, entry.file = some file := by
  obtain ⟨hfd, hvalid⟩ := FileTable.entry_eq_some he
  exact ⟨hvalid, Option.ne_none_iff_exists'.1 (h entry (mem_of_getElem? hfd) hvalid)⟩

/-- The call of a task returns, and its descriptors in use still point to files. -/
def Returns (s : VfsState σ ρ) (x : Except FsFault (VfsState σ ρ × FileTable × ℤ)) : Prop :=
  ∃ s' table' result, x = .ok (s', table', result) ∧ s'.tasks = s.tasks ∧ table'.Filed

theorem entryOps_of (entry : FileEntry) {file : ℕ} {P : FileOps ρ → Prop} {e : FsFault}
    (hfile : entry.file = some file) (hops : HasOps F s.names file P) :
    ∃ ops, entryOps F s entry e = .ok (file, ops) ∧ P ops := by
  obtain ⟨ops, ho, hP⟩ := hops
  refine ⟨ops, ?_, hP⟩
  rw [entryOps, hfile]
  dsimp only
  rw [Option.mem_def.1 ho]

theorem FileEntry.advance_file (entry : FileEntry) (result : ℤ) : (entry.advance result).file = entry.file := by
  rw [FileEntry.advance]
  split_ifs <;> rfl

section
variable (htable : table.Filed)
include htable

theorem returns_onEntry {f : FileEntry → Except FsFault (VfsState σ ρ × FileEntry × ℤ)}
    (hf : ∀ entry, table.entry fd = some entry → ∀ file, entry.file = some file →
      ∃ s' entry' result, f entry = .ok (s', entry', result) ∧ s'.tasks = s.tasks ∧ entry'.file = some file) :
    Returns s (onEntry s table fd f) := by
  rw [onEntry]
  cases he : table.entry fd with
  | none => exact ⟨s, table, _, rfl, rfl, htable⟩
  | some entry =>
    obtain ⟨-, file, hfile⟩ := htable.entry he
    obtain ⟨s', entry', result, hcall, htasks, hfile'⟩ := hf entry he file hfile
    refine ⟨s', table.set fd.toNat entry', result, ?_, htasks, htable.set (fun _ => ?_) _⟩
    · change (f entry >>= _) = _
      rw [hcall]
      rfl
    · rw [hfile']
      exact Option.some_ne_none _

theorem returns_onOps {invalid missing : ℤ} {f : FileOps ρ → Option (GuardedOp ℕ ρ ℤ)}
    (hops : ∀ entry ∈ table.entry fd, ∀ file ∈ entry.file, HasOps F s.names file fun ops =>
      ∀ op ∈ f ops, op.accepts file s.contents = true) :
    Returns s (onOps F s table fd invalid missing f) := by
  rw [onOps]
  cases he : table.entry fd with
  | none => exact ⟨s, table, _, rfl, rfl, htable⟩
  | some entry =>
    obtain ⟨-, file, hfile⟩ := htable.entry he
    obtain ⟨ops, heq, haccepts⟩ := entryOps_of entry hfile (hops entry he file hfile)
    have hsome : entry.file.isSome = true := by
      rw [hfile]
      rfl
    change Returns s (FsFault.assertion.unless (entry.file.isSome = true) >>= _)
    rw [FsFault.unless_of hsome]
    rw [heq]
    simp only [bind, Except.bind]
    cases hop : f ops with
    | none => exact ⟨s, table, _, rfl, rfl, htable⟩
    | some op =>
      dsimp only
      rw [op.call_of_accepts (haccepts op hop)]
      exact ⟨_, table, _, rfl, rfl, htable⟩

theorem returns_callSysRead (hops : ∀ entry ∈ table.entry fd, ∀ file ∈ entry.file, HasOps F s.names file fun ops =>
      ∃ read ∈ ops.read, read.accepts ⟨file, entry.offset, size⟩ s.contents = true) :
    Returns s (callSysRead F s table fd size) := by
  refine returns_onEntry htable fun entry he file hfile => ?_
  obtain ⟨ops, heq, read, hread, haccepts⟩ := entryOps_of entry hfile (hops entry he file hfile)
  rw [doVfsRead, heq]
  simp only [bind, Except.bind, Option.mem_def.1 hread, read.call_of_accepts haccepts]
  exact ⟨_, _, _, rfl, rfl, (FileEntry.advance_file entry _).trans hfile⟩

theorem returns_callSysWrite (hops : ∀ entry ∈ table.entry fd, ∀ file ∈ entry.file, HasOps F s.names file fun ops =>
      ∃ write ∈ ops.write, entry.writable = true → write.accepts ⟨file, entry.offset, size⟩ s.contents = true) :
    Returns s (callSysWrite F s table fd size) := by
  refine returns_onEntry htable fun entry he file hfile => ?_
  obtain ⟨ops, heq, write, hwrite, haccepts⟩ := entryOps_of entry hfile (hops entry he file hfile)
  rw [doVfsWrite, heq]
  simp only [bind, Except.bind, Option.mem_def.1 hwrite]
  split_ifs with hwritable
  · rw [write.call_of_accepts (haccepts hwritable)]
    exact ⟨_, _, _, rfl, rfl, (FileEntry.advance_file entry _).trans hfile⟩
  · exact ⟨s, entry, _, rfl, rfl, hfile⟩

theorem returns_callSysLseek {offset whence : ℤ} (hops : whence = seekEnd →
      ∀ entry ∈ table.entry fd, ∀ file ∈ entry.file, HasOps F s.names file fun ops => ops.size ≠ none) :
    Returns s (callSysLseek F s table fd offset whence) := by
  refine returns_onEntry htable fun entry he file hfile => ?_
  rw [doVfsLseek]
  split_ifs with h1 h2 h3
  · exact ⟨s, _, _, rfl, rfl, hfile⟩
  · exact ⟨s, _, _, rfl, rfl, hfile⟩
  · obtain ⟨ops, heq, hsize⟩ := entryOps_of entry hfile (hops h3 entry he file hfile)
    obtain ⟨size, hsize⟩ := Option.ne_none_iff_exists'.1 hsize
    rw [heq]
    simp only [bind, Except.bind, hsize]
    exact ⟨_, _, _, rfl, rfl, hfile⟩
  · exact ⟨s, entry, _, rfl, rfl, hfile⟩

theorem returns_callSysClose (fd : ℤ) : Returns s (callSysClose s table fd) := by
  rw [callSysClose]
  cases he : table.entry fd with
  | none => exact ⟨s, table, _, rfl, rfl, htable⟩
  | some entry =>
    obtain ⟨-, file, hfile⟩ := htable.entry he
    dsimp only
    rw [hfile]
    exact ⟨_, _, _, rfl, rfl, htable.set (fun hv => Bool.noConfusion hv) _⟩

theorem returns_callSysOpen {path : CString} {flags : UInt32}
    (hops : flags &&& oTrunc ≠ 0 → ∀ file ∈ F.openFile (openingNames F s path flags) path,
      HasOps F (openingNames F s path flags) file fun _ => True) : Returns s (callSysOpen F s table path flags) := by
  rw [callSysOpen]
  cases searchUnoccupiedFileDescriptor table with
  | none => exact ⟨s, table, _, rfl, rfl, htable⟩
  | some fd =>
    obtain ⟨⟨s1, created⟩, hs1⟩ : ∃ r, (if flags &&& oCreat ≠ 0 then
        ((doVfsCreate F s path).1, (doVfsCreate F s path).2.isSome) else (s, true)) = r := ⟨_, rfl⟩
    have hfound : s1.tasks = s.tasks ∧ openingNames F s path flags = s1.names := by
      rw [openingNames]
      split_ifs at hs1 ⊢ <;> cases hs1 <;> exact ⟨rfl, rfl⟩
    obtain ⟨htasks, hnames⟩ := hfound
    rw [hnames] at hops
    rw [hs1]
    dsimp only
    cases created with
    | false => exact ⟨s1, table, _, rfl, htasks, htable⟩
    | true =>
      rcases doVfsOpen_cases F s1 path with hopen | ⟨file, hfile, hopen⟩
      · rw [hopen]
        exact ⟨s1, table, _, rfl, htasks, htable⟩
      rw [hopen]
      dsimp only
      have hnew : (table.set fd ⟨some file, 0, true, decide (flags &&& oWronly ≠ 0 ∨ flags &&& oRdwr ≠ 0)⟩).Filed :=
        htable.set (fun _ => Option.some_ne_none _) _
      by_cases htr : decide (flags &&& oWronly ≠ 0 ∨ flags &&& oRdwr ≠ 0) = true ∧ flags &&& oTrunc ≠ 0
      · rw [if_pos htr]
        obtain ⟨ops, heq, -⟩ := entryOps_of
          (s := { s1 with referCount := Function.update s1.referCount file (s1.referCount file + 1) })
          ⟨some file, 0, true, decide (flags &&& oWronly ≠ 0 ∨ flags &&& oRdwr ≠ 0)⟩ rfl
          (hops htr.2 file hfile)
        rw [doVfsTruncate, heq]
        simp only [bind, Except.bind]
        cases ops.truncate with
        | none => exact ⟨_, _, _, rfl, htasks, hnew⟩
        | some truncate => exact ⟨_, _, _, rfl, htasks, hnew⟩
      · rw [if_neg htr]
        exact ⟨_, _, _, rfl, htasks, hnew⟩

end

def VfsState.Filed (s : VfsState σ ρ) : Prop := ∀ table ∈ s.tasks, table.Filed

theorem VfsState.Filed.call (h : s.Filed) {task : ℕ} {f : FileTable → Except FsFault (VfsState σ ρ × FileTable × ℤ)}
    (hf : ∀ table ∈ s.tasks[task]?, table.Filed → Returns s (f table)) :
    ∃ s' result, s.call task f = .ok (s', result) ∧ s'.Filed := by
  rw [VfsState.call]
  cases ht : s.tasks[task]? with
  | none => exact ⟨s, _, rfl, h⟩
  | some table =>
    obtain ⟨s', table', result, hcall, htasks, htable'⟩ := hf table ht (h table (mem_of_getElem? ht))
    refine ⟨{ s' with tasks := s'.tasks.set task table' }, result, ?_, fun t hmem => ?_⟩
    · change (f table >>= _) = _
      rw [hcall]
      rfl
    rw [htasks] at hmem
    rcases mem_or_eq_of_mem_set hmem with hmem | rfl
    · exact h t hmem
    · exact htable'

theorem VfsState.Filed.returns (h : s.Filed) {op : DescriptorOp} (hop : op.Supported F s) :
    ∃ s' result, op.call F s = .ok (s', result) ∧ s'.Filed := by
  cases op with
  | openFile task path flags => exact h.call fun table _ hfiled => returns_callSysOpen hfiled hop
  | closeFile task fd => exact h.call fun table _ hfiled => returns_callSysClose hfiled fd
  | read task fd size => exact h.call fun table ht hfiled => returns_callSysRead hfiled (hop table ht)
  | write task fd size => exact h.call fun table ht hfiled => returns_callSysWrite hfiled (hop table ht)
  | lseek task fd offset whence =>
    exact h.call fun table ht hfiled => returns_callSysLseek hfiled fun hw => hop hw table ht
  | fstat task fd =>
    refine h.call fun table ht hfiled => returns_onOps hfiled fun entry he file hfile => ?_
    obtain ⟨ops, hops, hstat⟩ := hop table ht entry he file hfile
    refine ⟨ops, hops, fun op hmem => ?_⟩
    obtain ⟨stat, hsome, rfl⟩ := Option.map_eq_some_iff.1 hmem
    exact hstat stat hsome
  | isatty task fd =>
    refine h.call fun table ht hfiled => returns_onOps hfiled fun entry he file hfile => ?_
    obtain ⟨ops, hops, -⟩ := hop table ht entry he file hfile
    refine ⟨ops, hops, fun op hmem => ?_⟩
    obtain ⟨isatty, -, rfl⟩ := Option.map_eq_some_iff.1 hmem
    rfl
  | ioctl task fd request =>
    refine h.call fun table ht hfiled => returns_onOps hfiled fun entry he file hfile => ?_
    obtain ⟨ops, hops, -⟩ := hop table ht entry he file hfile
    refine ⟨ops, hops, fun op hmem => ?_⟩
    obtain ⟨ioctl, -, rfl⟩ := Option.map_eq_some_iff.1 hmem
    rfl

end

end ZeldaOS
