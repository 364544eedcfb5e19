import ZeldaOS.Machine.Runs
import ZeldaOS.Vfs.Descriptors

/-!
# Reference counts

The field `refer_count` of a file against the descriptors that point to it.

* `refer_counts_match`: a count is the number of descriptors.
-/

namespace ZeldaOS

open Machine List Function

/-! ## Counts -/

def FileEntry.pointsTo (file : ℕ) (entry : FileEntry) : Bool := entry.valid && decide (entry.file = some file)

def FileTable.opens (table : FileTable) (file : ℕ) : ℕ := table.entries.countP (FileEntry.pointsTo file)

variable {σ ρ α : Type} {s s' : VfsState σ ρ} {l : List α} {i fd file task fuel : ℕ} {a : α} {names : σ}
  {entry : FileEntry} {result : ℤ} {path : CString}

section
variable {F : FileSystems σ ρ} {table table' : FileTable}

def VfsState.opens (s : VfsState σ ρ) (file : ℕ) : ℕ := (s.tasks.map fun table => table.opens file).sum

def FileTable.Holds (F : FileSystems σ ρ) (names : σ) (table : FileTable) : Prop :=
  ∀ entry ∈ table.entries, entry.valid = true → ∃ file, entry.file = some file ∧ F.isFile names file

/-- Counts are numbers of descriptors, and these point to files. -/
structure Counted (F : FileSystems σ ρ) (s : VfsState σ ρ) : Prop where
  count : ∀ file, s.referCount file = .ofNat (s.opens file)
  holds : ∀ table ∈ s.tasks, table.Holds F s.names

theorem sum_map_set (g : α → ℕ) {b : α} (h : l[i]? = some a) : ((l.set i b).map g).sum + g a = (l.map g).sum + g b := by
  induction l generalizing i with
  | nil => cases h
  | cons c l ih =>
    cases i with
    | zero =>
      obtain rfl : c = a := Option.some.inj h
      simp only [set_cons_zero, map_cons, sum_cons]
      omega
    | succ i =>
      have := ih h
      simp only [set_cons_succ, map_cons, sum_cons]
      omega

theorem sum_map_eraseIdx (g : α → ℕ) (h : l[i]? = some a) : ((l.eraseIdx i).map g).sum + g a = (l.map g).sum := by
  induction l generalizing i with
  | nil => cases h
  | cons c l ih =>
    cases i with
    | zero =>
      obtain rfl : c = a := Option.some.inj h
      simp only [eraseIdx_cons_zero, map_cons, sum_cons]
      omega
    | succ i =>
      have := ih h
      simp only [eraseIdx_cons_succ, map_cons, sum_cons]
      omega

theorem FileTable.opens_set {old : FileEntry} (h : table.entries[fd]? = some old) (entry : FileEntry) (file : ℕ) :
    (table.set fd entry).opens file + (if old.pointsTo file then 1 else 0) =
      table.opens file + if entry.pointsTo file then 1 else 0 := by
  obtain ⟨hlt, rfl⟩ := List.getElem?_eq_some_iff.1 h
  change (table.entries.set fd entry).countP _ + _ = table.entries.countP _ + _
  rw [countP_set hlt]
  have hpos : table.entries[fd].pointsTo file = true → 0 < table.entries.countP (FileEntry.pointsTo file) :=
    fun hp => countP_pos_iff.2 ⟨_, getElem_mem hlt, hp⟩
  split_ifs with h1
  all_goals
    try have := hpos h1
    omega

theorem FileTable.Holds.set (h : table.Holds F names)
    (hentry : entry.valid = true → ∃ file, entry.file = some file ∧ F.isFile names file) :
    (table.set fd entry).Holds F names := fun e he hv => by
  rcases mem_or_eq_of_mem_set he with he | rfl
  · exact h e he hv
  · exact hentry hv

theorem FileTable.Holds.opens_eq_zero (h : table.Holds F names) (hf : ¬F.isFile names file) : table.opens file = 0 := by
  refine countP_eq_zero.2 fun entry he hp => ?_
  rw [FileEntry.pointsTo, Bool.and_eq_true, decide_eq_true_iff] at hp
  obtain ⟨f, hfile, hf'⟩ := h entry he hp.1
  rw [hp.2] at hfile
  cases hfile
  exact hf hf'

theorem Counted.referCount_eq_zero (h : Counted F s) (hf : ¬F.isFile s.names file) : s.referCount file = 0 := by
  have hzero : s.opens file = 0 := by
    rw [VfsState.opens, sum_eq_zero_iff]
    intro n hn
    obtain ⟨table, ht, rfl⟩ := mem_map.1 hn
    exact (h.holds table ht).opens_eq_zero hf
  rw [h.count, hzero]
  rfl

/-! ## The calls -/

/-- A call on one table keeps the counts right. -/
structure Moves (F : FileSystems σ ρ) (s s' : VfsState σ ρ) (table table' : FileTable) : Prop where
  tasks : s'.tasks = s.tasks
  names : ∀ file, F.isFile s.names file → F.isFile s'.names file
  count : ∀ file, s'.referCount file + .ofNat (table.opens file) = s.referCount file + .ofNat (table'.opens file)
  holds : table'.Holds F s'.names

theorem Moves.refl (h : table.Holds F s.names) : Moves F s s table table :=
  ⟨rfl, fun _ => id, fun _ => rfl, h⟩

theorem FileTable.Holds.mono {names' : σ} (h : table.Holds F names)
    (hn : ∀ file, F.isFile names file → F.isFile names' file) : table.Holds F names' := fun e he hv => by
  obtain ⟨file, hfile, hf⟩ := h e he hv
  exact ⟨file, hfile, hn file hf⟩

theorem Counted.set (h : Counted F s) (ht : s.tasks[task]? = some table) (hm : Moves F s s' table table') :
    Counted F { s' with tasks := s'.tasks.set task table' } := by
  refine ⟨fun file => ?_, fun t hmem => ?_⟩
  · have hsum := sum_map_set (fun t : FileTable => t.opens file) (b := table') ht
    have hcount := hm.count file
    have hold := h.count file
    have hcast := congrArg UInt32.ofNat hsum
    rw [UInt32.ofNat_add, UInt32.ofNat_add] at hcast
    rw [VfsState.opens] at hold ⊢
    rw [hm.tasks]
    grind
  · rw [hm.tasks] at hmem
    rcases mem_or_eq_of_mem_set hmem with hmem | rfl
    · exact (h.holds t hmem).mono hm.names
    · exact hm.holds

theorem Moves.open (hfd : table.entries[fd]? = some entry) (hfree : entry.valid = false) (hs : s'.tasks = s.tasks)
    (hnames : ∀ f, F.isFile s.names f → F.isFile s'.names f) (htable : table.Holds F s.names)
    (hcount : ∀ f, s'.referCount f = s.referCount f + if f = file then 1 else 0) (hfile : F.isFile s'.names file)
    (writable : Bool) : Moves F s s' table (table.set fd ⟨some file, 0, true, writable⟩) := by
  refine ⟨hs, hnames, fun f => ?_, (htable.mono hnames).set fun _ => ⟨file, rfl, hfile⟩⟩
  have hset := table.opens_set hfd ⟨some file, 0, true, writable⟩ f
  have hold : entry.pointsTo f = false := by rw [FileEntry.pointsTo, hfree]; rfl
  have hnew : FileEntry.pointsTo f ⟨some file, 0, true, writable⟩ = decide (f = file) := by
    exact decide_eq_decide.2 (by rw [Option.some.injEq]; exact eq_comm)
  rw [hold, hnew, if_neg Bool.false_ne_true, Nat.add_zero] at hset
  rw [hset, hcount f, UInt32.ofNat_add]
  by_cases hf : f = file
  · rw [if_pos hf, if_pos (decide_eq_true hf)]
    grind
  rw [if_neg hf, if_neg (by simpa using hf)]
  grind

theorem Moves.close (hfd : table.entries[fd]? = some entry) (hvalid : entry.valid = true)
    (hfile : entry.file = some file) (htable : table.Holds F s.names) :
    Moves F s (doVfsClose s file) table (table.set fd .closed) := by
  refine ⟨rfl, fun _ => id, fun f => ?_, htable.set fun hv => Bool.noConfusion hv⟩
  have hset := table.opens_set hfd .closed f
  have hold : entry.pointsTo f = decide (f = file) := by
    rw [FileEntry.pointsTo, hvalid, hfile, Bool.true_and]
    exact decide_eq_decide.2 (by rw [Option.some.injEq]; exact eq_comm)
  have hclosed : FileEntry.closed.pointsTo f = false := rfl
  have hcast := congrArg UInt32.ofNat hset
  rw [hold, hclosed, if_neg Bool.false_ne_true, Nat.add_zero, UInt32.ofNat_add] at hcast
  rw [doVfsClose]
  by_cases hf : f = file
  · subst hf
    dsimp only
    grind
  · dsimp only
    grind

theorem doVfsOpen_cases (F : FileSystems σ ρ) (s : VfsState σ ρ) (path : CString) : doVfsOpen F s path = (s, none) ∨
      ∃ file, F.openFile s.names path = some file ∧ doVfsOpen F s path =
          ({ s with referCount := update s.referCount file (s.referCount file + 1) }, some file) := by
  rw [doVfsOpen]
  cases h : F.openFile s.names path with
  | none => exact .inl rfl
  | some file => exact .inr ⟨file, rfl, rfl⟩

theorem Counted.create (h : Counted F s) (path : CString) (file : ℕ) :
    (doVfsCreate F s path).1.referCount file = s.referCount file := by
  rw [doVfsCreate]
  dsimp only
  split_ifs with hf
  · exact (h.referCount_eq_zero (F.create_fresh _ _ _ file hf)).symm
  · rfl

theorem doVfsTruncate_eq {offset : ℕ} (h : doVfsTruncate F s entry offset = .ok (s', result)) :
    s'.names = s.names ∧ s'.tasks = s.tasks ∧ s'.referCount = s.referCount := by
  obtain ⟨⟨file, ops⟩, -, h⟩ := bind_eq_ok h
  dsimp only at h
  cases htr : ops.truncate with
  | none =>
    rw [htr] at h
    cases h
    exact ⟨rfl, rfl, rfl⟩
  | some truncate =>
    rw [htr] at h
    cases h
    exact ⟨rfl, rfl, rfl⟩

theorem Counted.callSysOpen (h : Counted F s) {flags : UInt32} (htable : table.Holds F s.names)
    (hcall : ZeldaOS.callSysOpen F s table path flags = .ok (s', table', result)) : Moves F s s' table table' := by
  rw [ZeldaOS.callSysOpen] at hcall
  cases hfd : searchUnoccupiedFileDescriptor table with
  | none =>
    rw [hfd] at hcall
    cases hcall
    exact .refl htable
  | some fd =>
    rw [hfd] at hcall
    obtain ⟨hlt, hfree, -⟩ := findIdx?_eq_some_iff_getElem.1 hfd
    rw [Bool.not_eq_true'] at hfree
    -- the state after the file was created, if it was to be
    obtain ⟨⟨s1, created⟩, hs1⟩ : ∃ r, (if flags &&& oCreat ≠ 0 then
        ((doVfsCreate F s path).1, (doVfsCreate F s path).2.isSome) else (s, true)) = r := ⟨_, rfl⟩
    rw [hs1] at hcall
    dsimp only at hcall
    have hcreated : s1.tasks = s.tasks ∧ (∀ f, F.isFile s.names f → F.isFile s1.names f) ∧
        ∀ f, s1.referCount f = s.referCount f := by
      split_ifs at hs1
      · cases hs1
        exact ⟨rfl, fun f => F.create_isFile _ _ _ f, h.create path⟩
      cases hs1
      exact ⟨rfl, fun _ => id, fun _ => rfl⟩
    obtain ⟨htasks, hnames, hcount⟩ := hcreated
    have hkept : Moves F s s1 table table :=
      ⟨htasks, hnames, fun f => by rw [hcount f], htable.mono hnames⟩
    cases created with
    | false =>
      cases hcall
      exact hkept
    | true =>
      rw [if_pos rfl] at hcall
      rcases doVfsOpen_cases F s1 path with hopen | ⟨file, hfile, hopen⟩
      · rw [hopen] at hcall
        cases hcall
        exact hkept
      rw [hopen] at hcall
      have hup : ∀ f, update s1.referCount file (s1.referCount file + 1) f =
          s.referCount f + if f = file then 1 else 0 := fun f => by
        by_cases hf : f = file
        · rw [hf, update_self, if_pos rfl, hcount]
        · grind
      have hisFile := F.open_isFile _ _ _ hfile
      split_ifs at hcall
      · obtain ⟨⟨s2, rc⟩, htr, hcall⟩ := bind_eq_ok hcall
        obtain ⟨hn2, ht2, hr2⟩ := doVfsTruncate_eq htr
        cases hcall
        refine Moves.open (getElem?_eq_getElem hlt) hfree (ht2.trans htasks) ?_ htable ?_ ?_ _
        · rw [hn2]
          exact hnames
        · rw [hr2]
          exact hup
        rw [hn2]
        exact hisFile
      · cases hcall
        refine Moves.open (getElem?_eq_getElem hlt) hfree ?_ ?_ htable ?_ ?_ _
        · exact htasks
        · exact hnames
        · exact hup
        · exact hisFile

theorem FileTable.entry_eq_some {fd : ℤ} (h : table.entry fd = some entry) :
    table.entries[fd.toNat]? = some entry ∧ entry.valid = true := by
  rw [FileTable.entry] at h
  split_ifs at h
  exact Option.filter_eq_some_iff.1 h

theorem moves_callSysClose {fd : ℤ} (htable : table.Holds F s.names)
    (hcall : callSysClose s table fd = .ok (s', table', result)) : Moves F s s' table table' := by
  rw [callSysClose] at hcall
  cases hentry : table.entry fd with
  | none =>
    rw [hentry] at hcall
    cases hcall
    exact .refl htable
  | some entry =>
    obtain ⟨hfd, hvalid⟩ := FileTable.entry_eq_some hentry
    rw [hentry] at hcall
    dsimp only at hcall
    cases hfile : entry.file with
    | none =>
      rw [hfile] at hcall
      cases hcall
    | some file =>
      rw [hfile] at hcall
      cases hcall
      exact Moves.close hfd hvalid hfile htable

def Loadable (F : FileSystems σ ρ) (s : VfsState σ ρ) (path : CString) : Prop :=
  ∃ file, F.openFile s.names path = some file ∧ F.type s.names file = .regular ∧
    ∃ r, doVfsStat F s path = .ok r ∧ r.2.1 = 0 ∧ r.2.2 ≠ 0

theorem doVfsClose_open (s : VfsState σ ρ) (contents : ρ) (file : ℕ) :
    doVfsClose { s with contents, referCount := update s.referCount file (s.referCount file + 1) } file =
      { s with contents } := by
  rw [doVfsClose]
  congr 1
  funext f
  dsimp only
  rw [update_idem, update_self, UInt32.add_sub_cancel]
  by_cases hf : f = file
  · rw [hf, update_self]
  · rw [update_of_ne hf]

theorem doVfsStat_eq (F : FileSystems σ ρ) (s : VfsState σ ρ) (path : CString) (referCount : ℕ → UInt32) :
    doVfsStat F { s with referCount } path = (doVfsStat F s path).map fun r => ({ r.1 with referCount }, r.2) := by
  rw [doVfsStat, doVfsStat]
  cases F.openFile s.names path with
  | none => rfl
  | some file =>
    dsimp only
    cases F.ops s.names file with
    | none => rfl
    | some ops =>
      dsimp only
      cases ops.stat with
      | none => rfl
      | some stat =>
        dsimp only
        cases stat.call file s.contents <;> rfl

theorem doVfsStat_contents {r : VfsState σ ρ × ℤ × UInt32} (h : doVfsStat F s path = .ok r) :
    r.1 = { s with contents := r.1.contents } := by
  rw [doVfsStat] at h
  cases ho : F.openFile s.names path with
  | none =>
    rw [ho] at h
    cases h
    rfl
  | some file =>
    rw [ho] at h
    dsimp only at h
    cases hops : F.ops s.names file with
    | none =>
      rw [hops] at h
      cases h
    | some ops =>
      rw [hops] at h
      dsimp only at h
      cases hstat : ops.stat with
      | none =>
        rw [hstat] at h
        cases h
        rfl
      | some stat =>
        rw [hstat] at h
        obtain ⟨r', -, h⟩ := bind_eq_ok h
        cases h
        rfl

theorem loadFileIntoMemory_closed {buffer inMemory : Bool} (hclosed : buffer = false ∨ ¬Loadable F s path)
    (h : loadFileIntoMemory F fuel s path buffer = .ok (s', inMemory)) :
    inMemory = false ∧ s' = { s with contents := s'.contents } := by
  rw [loadFileIntoMemory] at h
  rcases doVfsOpen_cases F s path with hopen | ⟨file, hfile, hopen⟩
  · rw [hopen] at h
    cases h
    exact ⟨rfl, rfl⟩
  rw [hopen] at h
  dsimp only at h
  by_cases htype : F.type s.names file ≠ .regular
  · rw [if_pos htype] at h
    cases h
    have hclose := doVfsClose_open s s.contents file
    exact ⟨rfl, hclose⟩
  rw [if_neg htype] at h
  rw [not_not] at htype
  obtain ⟨⟨s1, rc, size⟩, hstat, h⟩ := bind_eq_ok h
  rw [doVfsStat_eq] at hstat
  cases hr : doVfsStat F s path with
  | error e =>
    rw [hr] at hstat
    cases hstat
  | ok r =>
    obtain ⟨s2, rc2, size2⟩ := r
    rw [hr] at hstat
    cases hstat
    have hcontents := doVfsStat_contents hr
    have hstop : rc ≠ 0 ∨ size = 0 ∨ buffer = false := by
      rcases hclosed with hb | hnot
      · exact .inr (.inr hb)
      by_contra hc
      rw [not_or, not_or, not_not] at hc
      exact hnot ⟨file, hfile, htype, _, hr, hc.1, hc.2.1⟩
    rw [if_pos hstop] at h
    cases h
    refine ⟨rfl, ?_⟩
    rw [hcontents]
    exact doVfsClose_open s s2.contents file

theorem reclaimFiles_count {entries : List FileEntry} (h : reclaimFiles s entries = .ok s') :
    s'.names = s.names ∧ s'.tasks = s.tasks ∧
      ∀ f, s'.referCount f + .ofNat (entries.countP (FileEntry.pointsTo f)) = s.referCount f := by
  induction entries generalizing s with
  | nil =>
    cases h
    exact ⟨rfl, rfl, fun f => by simp⟩
  | cons entry entries ih =>
    rw [reclaimFiles] at h
    cases hvalid : entry.valid with
    | false =>
      rw [hvalid, if_neg Bool.false_ne_true] at h
      obtain ⟨hn, ht, hcount⟩ := ih h
      refine ⟨hn, ht, fun f => ?_⟩
      rw [countP_cons_of_neg (by rw [FileEntry.pointsTo, hvalid]; exact Bool.false_ne_true)]
      exact hcount f
    | true =>
      rw [hvalid, if_pos rfl] at h
      cases hfile : entry.file with
      | none =>
        rw [hfile] at h
        cases h
      | some file =>
        rw [hfile] at h
        obtain ⟨hn, ht, hcount⟩ := ih h
        refine ⟨hn, ht, fun f => ?_⟩
        have hf := hcount f
        rw [doVfsClose] at hf
        dsimp only at hf
        by_cases heq : f = file
        · subst heq
          rw [countP_cons_of_pos (by simp [FileEntry.pointsTo, hvalid, hfile]), UInt32.ofNat_add]
          grind
        rw [update_of_ne heq] at hf
        rw [countP_cons_of_neg (by simp [FileEntry.pointsTo, hvalid, hfile, Ne.symm heq])]
        exact hf

theorem Counted.reclaimTask (h : Counted F s) (hcall : s.reclaimTask task = .ok s') : Counted F s' := by
  rw [VfsState.reclaimTask] at hcall
  cases ht : s.tasks[task]? with
  | none =>
    rw [ht] at hcall
    cases hcall
    exact h
  | some table =>
    rw [ht] at hcall
    obtain ⟨s1, hclosed, hcall⟩ := bind_eq_ok hcall
    obtain ⟨hnames, htasks, hcount⟩ := reclaimFiles_count hclosed
    cases hcall
    refine ⟨fun f => ?_, fun t hmem => ?_⟩
    · have hsum := sum_map_eraseIdx (fun t : FileTable => t.opens f) ht
      have hold := h.count f
      rw [VfsState.opens, ← hsum, UInt32.ofNat_add] at hold
      rw [VfsState.opens]
      rw [FileTable.opens] at hold
      grind
    · rw [htasks] at hmem
      rw [hnames]
      exact h.holds t (mem_of_mem_eraseIdx hmem)

end

/-! ## Runs -/

/-- The calls of the task at a position, `execve`, and the exit of a task. -/
inductive ReferenceOp where
  | openFile (task : ℕ) (path : CString) (flags : UInt32)
  | closeFile (task : ℕ) (fd : ℤ)
  | execve (path : CString) (outcome : ExecOutcome)
  | reclaim (task : ℕ)

section
variable (F : FileSystems σ ρ)

def ReferenceOp.step (fuel : ℕ) (s : VfsState σ ρ) : ReferenceOp → Except FsFault (VfsState σ ρ)
  | .openFile task path flags => do
    let (s, _) ← s.call task fun table => callSysOpen F s table path flags
    .ok s
  | .closeFile task fd => do
    let (s, _) ← s.call task fun table => callSysClose s table fd
    .ok s
  | .execve path outcome => do
    let (s, _) ← callSysExecve F fuel s path outcome
    .ok s
  | .reclaim task => s.reclaimTask task

/-- No memory for the file, or no regular file of positive size. -/
def ReferenceOp.Closes (s : VfsState σ ρ) : ReferenceOp → Prop
  | .execve path outcome => outcome.buffer = false ∨ ¬Loadable F s path
  | _ => True

variable {F}

theorem Counted.call (h : Counted F s) {f : FileTable → Except FsFault (VfsState σ ρ × FileTable × ℤ)}
    (hf : ∀ table s' table' result, table.Holds F s.names → f table = .ok (s', table', result) →
      Moves F s s' table table')
    (hcall : s.call task f = .ok (s', result)) : Counted F s' := by
  rw [VfsState.call] at hcall
  cases ht : s.tasks[task]? with
  | none =>
    rw [ht] at hcall
    cases hcall
    exact h
  | some table =>
    rw [ht] at hcall
    obtain ⟨⟨s1, table', r⟩, hft, hcall⟩ := bind_eq_ok hcall
    cases hcall
    exact h.set ht (hf table s1 table' result (h.holds table (mem_of_getElem? ht)) hft)

theorem Counted.step {op : ReferenceOp} (h : Counted F s) (hop : op.Closes F s) (hstep : op.step F fuel s = .ok s') :
    Counted F s' := by
  cases op with
  | openFile task path flags =>
    obtain ⟨⟨s1, r⟩, hcall, hstep⟩ := bind_eq_ok hstep
    cases hstep
    exact h.call (fun _ _ _ _ htable hf => h.callSysOpen htable hf) hcall
  | closeFile task fd =>
    obtain ⟨⟨s1, r⟩, hcall, hstep⟩ := bind_eq_ok hstep
    cases hstep
    exact h.call (fun _ _ _ _ htable hf => moves_callSysClose htable hf) hcall
  | execve path outcome =>
    obtain ⟨⟨s1, r⟩, hcall, hstep⟩ := bind_eq_ok hstep
    cases hstep
    obtain ⟨⟨s2, inMemory⟩, hload, hcall⟩ := bind_eq_ok hcall
    obtain ⟨rfl, hsame⟩ := loadFileIntoMemory_closed hop hload
    cases hcall
    rw [hsame]
    exact ⟨h.count, h.holds⟩
  | reclaim task => exact h.reclaimTask hstep

theorem counted_start (F : FileSystems σ ρ) (names : σ) (contents : ρ) (tasks : ℕ) :
    Counted F (.start names contents tasks) := by
  have hclosed : ∀ entry ∈ FileTable.empty.entries, entry = FileEntry.closed := fun entry he =>
    eq_of_mem_replicate he
  refine ⟨fun f => ?_, fun table ht entry he hv => ?_⟩
  · have hzero : (VfsState.start names contents tasks).opens f = 0 := by
      rw [VfsState.opens, sum_eq_zero_iff]
      intro n hn
      obtain ⟨table, ht, rfl⟩ := mem_map.1 hn
      obtain rfl := eq_of_mem_replicate ht
      refine countP_eq_zero.2 fun entry he hp => ?_
      rw [hclosed entry he] at hp
      cases hp
    rw [hzero]
    rfl
  · obtain rfl := eq_of_mem_replicate ht
    rw [hclosed entry he] at hv
    cases hv

end

/-- **Reference counts are numbers of descriptors.** -/
theorem refer_counts_match {σ ρ : Type} (F : FileSystems σ ρ) (names : σ) (contents : ρ) (tasks fuel : ℕ)
    (ops : List ReferenceOp)
      (hcloses : Along (ReferenceOp.step F fuel) (ReferenceOp.Closes F) (.start names contents tasks) ops)
    (s : VfsState σ ρ) (hrun : runSteps (ReferenceOp.step F fuel) (.start names contents tasks) ops = .ok s)
    (file : ℕ) : s.referCount file = .ofNat (s.opens file) := by
  have hends : Ends (Counted F) (fun _ => True)
      (runSteps (ReferenceOp.step F fuel) (.start names contents tasks) ops) := by
    refine ends_run (fun s op hs hop => ?_) (counted_start F names contents tasks) hcloses
    cases hstep : op.step F fuel s with
    | error e => trivial
    | ok s' => exact hs.step hop hstep
  rw [hrun] at hends
  exact Counted.count hends file

def byteFileOps : FileOps Unit where
  isatty := none
  size := some fun _ _ => ((), 1)
  stat := some (.total fun _ _ => ((), 0, 1))
  read := some (.total fun r _ => ((), if r.offset = 0 ∧ 0 < r.size then 1 else 0))
  write := some (.total fun _ _ => ((), -errNotSupported))
  truncate := none
  ioctl := none

def consoleDevOps : FileOps Unit where
  isatty := none
  size := none
  stat := none
  read := none
  write := some (.total fun r _ => ((), r.size))
  truncate := none
  ioctl := none

def rootPath : CString := ⟨[47], by decide⟩

def programPath : CString := ⟨[47, 97], by decide⟩

def consolePath : CString := ⟨[47, 99], by decide⟩

def smallFiles : FileSystems Unit Unit where
  isFile _ _ := True
  type _ file := if file = 0 then .mark else .regular
  ops _ file := if file = 0 then none else if file = 1 then some byteFileOps else some consoleDevOps
  openFile _ path :=
    if path = rootPath then some 0 else if path = programPath then some 1
    else if path = consolePath then some 2 else none
  createFile _ _ _ := ⟨(), (), none, []⟩
  open_isFile _ _ _ _ := trivial
  create_isFile _ _ _ _ _ := trivial
  create_fresh _ _ _ _ hf := absurd hf not_mem_nil

def rejected : ExecOutcome := ⟨true, false, false⟩

theorem root_not_loadable (s : VfsState Unit Unit) : ¬Loadable smallFiles s rootPath := by
  rintro ⟨file, hfile, htype, -⟩
  obtain rfl : 0 = file := Option.some.inj hfile
  cases htype

/-- Two tasks open the file, one closes it, and an `execve` fails in between. -/
def openTwice : List ReferenceOp :=
  [.openFile 0 programPath 0, .openFile 1 programPath 0, .execve rootPath rejected, .closeFile 0 0]

theorem refer_counts_match_small : ∃ s, runSteps (ReferenceOp.step smallFiles 10) (.start () () 2) openTwice = .ok s ∧
      s.opens 1 = 1 ∧ s.referCount 1 = .ofNat (s.opens 1) := by
  obtain ⟨s, hrun, hopens⟩ : ∃ s, runSteps (ReferenceOp.step smallFiles 10) (.start () () 2) openTwice = .ok s ∧
      s.opens 1 = 1 := ⟨_, rfl, by decide +kernel⟩
  have hcloses : Along (ReferenceOp.step smallFiles 10) (ReferenceOp.Closes smallFiles) (.start () () 2) openTwice :=
    ⟨trivial, trivial, .inr (root_not_loadable _), trivial, trivial⟩
  exact ⟨s, hrun, hopens, refer_counts_match smallFiles () () 2 10 openTwice hcloses s hrun 1⟩

/-- **An `execve` that reads its file keeps it open.** -/
theorem reference_leaked :
    ∃ s, runSteps (ReferenceOp.step smallFiles 10) (.start () () 1) [.execve programPath rejected] = .ok s ∧
      s.referCount 1 = 1 ∧ s.opens 1 = 0 :=
  ⟨_, rfl, by decide, by decide +kernel⟩

end ZeldaOS
