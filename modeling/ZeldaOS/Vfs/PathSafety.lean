import ZeldaOS.Vfs.Systems

/-!
# What a lookup and a listing need

When the steps of the system calls on paths return, for any path, any mount table and any state of the files.

* `lookupFile_succeeds`: when a lookup returns.
-/

namespace ZeldaOS

namespace Paths

open Machine

/-- The path is absolute behind its blanks, or fits behind the working directory and a slash. -/
def Composes (cwd path : CString) : Prop :=
  IsAbsolute path ∨ cwd.bytes.length + path.bytes.length + 2 ≤ maxPath

/-- What `canonicalize_path_name` stores for the path fits in a buffer. -/
def NameFits (path : CString) : Prop := ((canonicalizePathName path).getD []).length ≤ maxPath

/-- `canonicalize_path_name` accepts the path, and what it stores fits. -/
structure Resolvable (path : CString) : Prop where
  blank_free : blank ∉ path.bytes.take maxPath
  fits : NameFits path

/-- `put_dir_entry` knows the type, and a regular file has operations. -/
structure Puttable (t : FileTree) (file : ℕ) : Prop where
  type : t.type file ≠ .none
  ops : t.type file = .regular → t.ops file ≠ 0

variable {ρ : Type}

section
variable (M : MountTable (FilesystemOperation ρ))

/-- The path has a canonical name, and the file system there opens it. -/
structure LookupSafe (t : FileTree) (path : CString) : Prop where
  resolvable : Resolvable path
  opens : ∀ c i e, canonicalName path = .ok c → mountOfName M c = some (i, e) →
    ∃ fsOpen, e.fs.fsOpen = some fsOpen ∧ Succeeds (fsOpen t (subpathOf c e.mountPoint))

end

variable {cwd path : CString}

section
variable {mountPoint : CString}

theorem unless_succeeds {e : FsFault} {P : Prop} [Decidable P] : Succeeds (e.unless P) ↔ P := by
  constructor
  · rintro ⟨u, hu⟩
    exact FsFault.of_unless hu
  · exact fun h => ⟨(), FsFault.unless_of h⟩

theorem composeAbsolutePath_succeeds : Succeeds (composeAbsolutePath cwd path) ↔ Composes cwd path := by
  rw [composeAbsolutePath, Composes]
  by_cases habsolute : IsAbsolute path
  · rw [composedBytes_absolute cwd path habsolute]
    refine iff_of_true ?_ (.inl habsolute)
    exact succeeds_bind.2 ⟨unless_succeeds.2 (length_strcpySafeBytes path maxPath), fun _ _ => succeeds_ok _⟩
  rw [composedBytes_relative cwd path habsolute, or_iff_right habsolute, ← length_relative, succeeds_bind,
    unless_succeeds]
  exact and_iff_left_of_imp fun _ _ _ => succeeds_ok _

theorem canonicalName_succeeds : Succeeds (canonicalName path) ↔ Resolvable path := by
  rw [canonicalName]
  cases hcanon : canonicalizePathName path with
  | none => exact iff_of_false (not_succeeds_error _) fun h => h.blank_free (canonicalizePathName_eq_none.1 hcanon)
  | some stored =>
    have hfree : blank ∉ path.bytes.take maxPath := fun hb => by
      rw [canonicalizePathName_eq_none.2 hb] at hcanon
      cases hcanon
    have hfits : NameFits path ↔ stored.length ≤ maxPath := by rw [NameFits, hcanon, Option.getD_some]
    rw [succeeds_bind, unless_succeeds]
    constructor
    · exact fun h => ⟨hfree, hfits.2 h.1⟩
    · exact fun h => ⟨hfits.1 h.fits, fun _ _ => succeeds_ok _⟩

theorem resolveSubpath_succeeds : Succeeds (resolveSubpath path mountPoint) ↔ NameFits path := by
  rw [resolveSubpath]
  rw [succeeds_bind, unless_succeeds]
  exact and_iff_left_of_imp fun _ _ _ => succeeds_ok _

end

variable {e : MountEntry (FilesystemOperation ρ)} {sub : CString} {file n x : ℕ} {c : ρ}

section
variable {T : ℕ → FileOps ρ} {M : MountTable (FilesystemOperation ρ)} {t : FileTree}
variable {s : VfsState FileTree ρ} {table : FileTable} {flags : UInt32} {count : ℤ}

theorem openIn_succeeds {i : ℕ} :
    Succeeds (openIn t i e sub) ↔ ∃ fsOpen, e.fs.fsOpen = some fsOpen ∧ Succeeds (fsOpen t sub) := by
  rw [openIn]
  cases hopen : e.fs.fsOpen with
  | none =>
    refine iff_of_false (not_succeeds_error _) ?_
    rintro ⟨f, hf, -⟩
    cases hf
  | some fsOpen =>
    rw [succeeds_map]
    constructor
    · exact fun h => ⟨fsOpen, rfl, h⟩
    rintro ⟨f, hf, h⟩
    exact Option.some.inj hf ▸ h

/-- **A lookup returns exactly if the path has a canonical name and `fs_open` returns.** -/
theorem lookupFile_succeeds : Succeeds (lookupFile M t path) ↔ LookupSafe M t path := by
  rw [lookupFile_eq, succeeds_bind, canonicalName_succeeds]
  constructor
  · rintro ⟨hpath, hname⟩
    refine ⟨hpath, fun c i e hc hmount => ?_⟩
    have hlook := hname c hc
    rw [lookupName, hmount] at hlook
    exact openIn_succeeds.1 hlook
  rintro ⟨hpath, hopens⟩
  refine ⟨hpath, fun c hc => ?_⟩
  rw [lookupName]
  cases hmount : mountOfName M c with
  | none => exact succeeds_ok none
  | some r => exact openIn_succeeds.2 (hopens c r.1 r.2 hc hmount)

theorem fileOps_eq_none : fileOps T t file = none ↔ t.ops file = 0 := by
  rw [fileOps]
  by_cases hops : t.ops file = 0
  · rw [if_pos hops]
    exact iff_of_true rfl hops
  rw [if_neg hops]
  exact iff_of_false (Option.some_ne_none _) hops

theorem call_succeeds {α β : Type} {op : GuardedOp α ρ β} {a : α} :
    Succeeds (op.call a c) ↔ op.accepts a c = true := by
  rw [GuardedOp.call]
  split_ifs with haccepts
  · exact iff_of_true (succeeds_ok _) haccepts
  · exact iff_of_false (not_succeeds_error _) haccepts

theorem statFile_succeeds : Succeeds (statFile T s file) ↔ ∃ ops, fileOps T s.names file = some ops ∧
      ∀ stat ∈ ops.stat, stat.accepts file s.contents = true := by
  rw [statFile]
  cases fileOps T s.names file with
  | none =>
    refine iff_of_false (not_succeeds_error _) ?_
    rintro ⟨ops, hops, -⟩
    cases hops
  | some ops =>
    simp only [Option.some.injEq, exists_eq_left']
    cases ops.stat with
    | none => exact iff_of_true (succeeds_ok _) nofun
    | some stat =>
      simp only [Option.mem_def, Option.some.injEq, forall_eq']
      rw [← call_succeeds, succeeds_bind]
      exact and_iff_left_of_imp fun _ _ _ => succeeds_ok _

theorem putDirEntry_succeeds : Succeeds (putDirEntry T t file c) ↔ Puttable t file := by
  rw [putDirEntry]
  cases htype : t.type file with
  | none => exact iff_of_false (not_succeeds_error _) fun h => h.type htype
  | mark =>
    refine iff_of_true (succeeds_ok _) ⟨fun h => ?_, fun h => ?_⟩ <;> cases htype.symm.trans h
  | dir =>
    refine iff_of_true (succeeds_ok _) ⟨fun h => ?_, fun h => ?_⟩ <;> cases htype.symm.trans h
  | regular =>
    cases hops : fileOps T t file with
    | none => exact iff_of_false (not_succeeds_error _) fun h => h.ops htype (fileOps_eq_none.1 hops)
    | some ops =>
      refine iff_of_true (succeeds_ok _) ⟨fun h => ?_, fun _ h0 => ?_⟩
      · cases htype.symm.trans h
      · cases hops.symm.trans (fileOps_eq_none.2 h0)

theorem mountEntries_succeeds {es : List (MountEntry (FilesystemOperation ρ))} :
    Succeeds (mountEntries e es n) ↔ ∀ e' ∈ es.take (n + 1), NameFits e'.mountPoint := by
  induction es generalizing n with
  | nil => exact iff_of_true (succeeds_ok _) fun e' he' => absurd he' List.not_mem_nil
  | cons e' es ih =>
    rw [mountEntries, succeeds_bind, resolveSubpath_succeeds, List.take_succ_cons, List.forall_mem_cons]
    refine and_congr_right fun hfits => ?_
    obtain ⟨sub, hsub⟩ := resolveSubpath_succeeds.2 hfits
    cases n with
    | zero => exact iff_of_true (fun _ _ => succeeds_ok _) fun e' he' => absurd he' List.not_mem_nil
    | succ n =>
      rw [← ih]
      constructor
      · exact fun h => (succeeds_bind.1 (h sub hsub)).1
      · exact fun h _ _ => succeeds_bind.2 ⟨h, fun _ _ => succeeds_ok _⟩

theorem chdirName_eq (h : NameFits path) :
    chdirName path = .ok (CString.ofBytes ((canonicalizePathName path).getD [])) :=
  bind_of_ok (FsFault.unless_of h) rfl

theorem chdirName_succeeds : Succeeds (chdirName path) ↔ NameFits path := by
  rw [chdirName, succeeds_bind, unless_succeeds]
  exact and_iff_left_of_imp fun _ _ _ => succeeds_ok _

end

end Paths

end ZeldaOS
