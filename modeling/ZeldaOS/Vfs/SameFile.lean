import ZeldaOS.Vfs.Systems

/-!
# The file that `stat` and `open` name

`call_sys_open` puts the working directory in front of a relative path; `call_sys_stat` does not.

* `stat_open_iff`: when `stat` and `open` name the same file.
-/

namespace ZeldaOS

open List

variable {table : FileTable} {n : ℕ}

theorem FileTable.entry_set_self {entry : FileEntry} (hn : searchUnoccupiedFileDescriptor table = some n)
    (hvalid : entry.valid = true) : (table.set n entry).entry n = some entry := by
  obtain ⟨hlt, -, -⟩ := findIdx?_eq_some_iff_getElem.1 hn
  have hmax : n < maxFileDescriptor := table.length_eq ▸ hlt
  have hrange : ¬((n : ℤ) < 0 ∨ (maxFileDescriptor : ℤ) ≤ n) := by omega
  rw [FileTable.entry, if_neg hrange, Int.toNat_natCast, FileTable.set, getElem?_set_self hlt, Option.filter_some,
    if_pos hvalid]

namespace Paths

open Machine

variable {ρ : Type}

section
variable (T : ℕ → FileOps ρ) (M : MountTable (FilesystemOperation ρ)) (s : VfsState FileTree ρ)

/-! ## The calls -/

/-- `call_sys_stat` succeeds with this `st_size`, and leaves the contents. -/
def StatGives (path : CString) (size : UInt32) (contents : ρ) : Prop :=
  ∃ s', callSysStat T M s path = .ok (s', 0, size) ∧ s'.contents = contents

/-- `call_sys_open` and then `call_sys_fstat` succeed with this `st_size`, and leave the contents. -/
def FstatGives (table : FileTable) (cwd path : CString) (size : UInt32) (contents : ρ) : Prop :=
  ∃ s₁ table₁ fd s₂, callSysOpen T M s table cwd path oRdonly = .ok (s₁, table₁, fd) ∧ 0 ≤ fd ∧
    callSysFstat T s₁ table₁ fd = .ok (s₂, 0, size) ∧ s₂.contents = contents

def SameFile (table : FileTable) (cwd path : CString) : Prop :=
  ∀ size contents, StatGives T M s path size contents ↔ FstatGives T M s table cwd path size contents

def NameGives (c : CString) (size : UInt32) (contents : ρ) : Prop :=
  ∃ found ops stat, lookupName M s.names c = .ok (some found) ∧ found.file ≠ 0 ∧
    fileOps T s.names found.file = some ops ∧ ops.stat = some stat ∧
    stat.call found.file s.contents = .ok (contents, 0, size)

end

def statName (path : CString) : Option CString := (canonicalName path).toOption

/-- The name that `call_sys_open` looks up, if there is a free descriptor. -/
def openName (table : FileTable) (cwd path : CString) : Option CString :=
  if searchUnoccupiedFileDescriptor table = none then none
  else (composeAbsolutePath cwd path >>= canonicalName).toOption

variable {cwd path c : CString}

section
variable {T : ℕ → FileOps ρ} {M : MountTable (FilesystemOperation ρ)} {s : VfsState FileTree ρ}
variable {size : UInt32} {contents : ρ}

theorem statFile_gives {file : ℕ} : (∃ s', statFile T s file = .ok (s', 0, size) ∧ s'.contents = contents) ↔
      ∃ ops stat, fileOps T s.names file = some ops ∧ ops.stat = some stat ∧
        stat.call file s.contents = .ok (contents, 0, size) := by
  rw [statFile]
  constructor
  · rintro ⟨s', hstat, rfl⟩
    cases hops : fileOps T s.names file with
    | none =>
      rw [hops] at hstat
      cases hstat
    | some ops =>
      rw [hops] at hstat
      dsimp only at hstat
      cases hfun : ops.stat with
      | none =>
        rw [hfun] at hstat
        obtain ⟨-, hcode⟩ := Prod.mk.inj (Except.ok.inj hstat)
        exact absurd (Prod.mk.inj hcode).1 (by decide)
      | some stat =>
        rw [hfun] at hstat
        obtain ⟨⟨c', r, n⟩, hcall, hret⟩ := bind_eq_ok hstat
        obtain ⟨rfl, hcode⟩ := Prod.mk.inj (Except.ok.inj hret)
        obtain ⟨hres, hsize⟩ := Prod.mk.inj hcode
        exact ⟨ops, stat, rfl, hfun, by rw [hcall, ← hres, ← hsize]⟩
  · rintro ⟨ops, stat, hops, hfun, hstat⟩
    refine ⟨{ s with contents }, ?_, rfl⟩
    rw [hops]
    dsimp only
    rw [hfun]
    exact bind_of_ok hstat rfl

theorem statGives_iff : StatGives T M s path size contents ↔
    ∃ c, statName path = some c ∧ NameGives T M s c size contents := by
  constructor
  · rintro ⟨s', hcall, hcontents⟩
    obtain ⟨found, hfound, hret⟩ := bind_eq_ok hcall
    rw [lookupFile_eq] at hfound
    obtain ⟨c, hname, hlook⟩ := bind_eq_ok hfound
    cases found with
    | none =>
      obtain ⟨-, hcode⟩ := Prod.mk.inj (Except.ok.inj hret)
      exact absurd (Prod.mk.inj hcode).1 (by decide)
    | some found =>
      dsimp only at hret
      split_ifs at hret with hfile
      · obtain ⟨-, hcode⟩ := Prod.mk.inj (Except.ok.inj hret)
        exact absurd (Prod.mk.inj hcode).1 (by decide)
      obtain ⟨ops, stat, hstat⟩ := statFile_gives.1 ⟨s', hret, hcontents⟩
      exact ⟨c, toOption_eq_some.2 hname, found, ops, stat, hlook, hfile, hstat⟩
  · rintro ⟨c, hname, found, ops, stat, hlook, hfile, hstat⟩
    obtain ⟨s', hret, hcontents⟩ := statFile_gives.2 ⟨ops, stat, hstat⟩
    refine ⟨s', ?_, hcontents⟩
    have hfound : lookupFile M s.names path = .ok (some found) := by
      rw [lookupFile_eq]
      exact bind_of_ok (toOption_eq_some.1 hname) hlook
    exact bind_of_ok hfound ((if_neg hfile).trans hret)

theorem callSysOpen_rdonly {p : CString} (hp : composeAbsolutePath cwd path = .ok p)
    (hn : searchUnoccupiedFileDescriptor table = some n) :
    callSysOpen T M s table cwd path oRdonly = doVfsOpen M s p >>= fun r =>
      if r.2 = 0 then .ok (r.1, table, -errGeneric)
      else .ok (r.1, table.set n ⟨some r.2, 0, true, false⟩, (n : ℤ)) := by
  rw [callSysOpen, hp, hn]
  rfl

theorem callSysOpen_of_name {found : Found ρ} (hname : openName table cwd path = some c)
    (hlook : lookupName M s.names c = .ok (some found)) (hfile : found.file ≠ 0) :
    ∃ s1 n, callSysOpen T M s table cwd path oRdonly =
        .ok (s1, table.set n ⟨some found.file, 0, true, false⟩, (n : ℤ)) ∧
      searchUnoccupiedFileDescriptor table = some n ∧ s1.names = s.names ∧ s1.contents = s.contents := by
  unfold openName at hname
  split_ifs at hname with hnone
  obtain ⟨n, hn⟩ := Option.ne_none_iff_exists'.1 hnone
  obtain ⟨p, hp, hcanon⟩ := bind_eq_ok (toOption_eq_some.1 hname)
  have hfound : lookupFile M s.names p = .ok (some found) := by
    rw [lookupFile_eq]
    exact bind_of_ok hcanon hlook
  refine ⟨{ s with referCount := Function.update s.referCount found.file (s.referCount found.file + 1) }, n, ?_, hn,
    rfl, rfl⟩
  rw [callSysOpen_rdonly hp hn]
  exact bind_of_ok (bind_of_ok hfound (if_neg hfile)) (if_neg hfile)

theorem callSysOpen_name {s1 : VfsState FileTree ρ} {table1 : FileTable} {fd : ℤ}
    (hcall : callSysOpen T M s table cwd path oRdonly = .ok (s1, table1, fd)) (hfd : 0 ≤ fd) :
    ∃ c found, openName table cwd path = some c ∧ lookupName M s.names c = .ok (some found) ∧ found.file ≠ 0 := by
  obtain ⟨p, hp, hrest⟩ := bind_eq_ok hcall
  have hcode : ∀ {r : ℤ} {s' : VfsState FileTree ρ} {table' : FileTable},
      (.ok (s', table', r) : Except FsFault (VfsState FileTree ρ × FileTable × ℤ)) = .ok (s1, table1, fd) → 0 ≤ r := by
    intro r s' table' heq
    obtain ⟨-, hpair⟩ := Prod.mk.inj (Except.ok.inj heq)
    rwa [(Prod.mk.inj hpair).2]
  cases hn : searchUnoccupiedFileDescriptor table with
  | none =>
    rw [hn] at hrest
    exact absurd (hcode hrest) (by decide)
  | some n =>
    rw [callSysOpen_rdonly hp hn] at hcall
    obtain ⟨⟨s', file⟩, hopen, hret⟩ := bind_eq_ok hcall
    obtain ⟨found, hfound, hfile⟩ := bind_eq_ok hopen
    rw [lookupFile_eq] at hfound
    obtain ⟨c, hcanon, hlook⟩ := bind_eq_ok hfound
    have hne : file ≠ 0 := fun h0 => by
      rw [if_pos h0] at hret
      exact absurd (hcode hret) (by decide)
    cases found with
    | none =>
      cases hfile
      exact absurd rfl hne
    | some found =>
      dsimp only at hfile
      split_ifs at hfile with hzero
      · cases hfile
        exact absurd rfl hne
      refine ⟨c, found, ?_, hlook, hzero⟩
      rw [openName, if_neg (by rw [hn]; exact Option.some_ne_none n)]
      exact toOption_eq_some.2 (bind_of_ok hp hcanon)

theorem fstatGives_iff : FstatGives T M s table cwd path size contents ↔
    ∃ c, openName table cwd path = some c ∧ NameGives T M s c size contents := by
  constructor
  · rintro ⟨s1, table1, fd, s2, hopen, hfd, hstat, hcontents⟩
    obtain ⟨c, found, hname, hlook, hfile⟩ := callSysOpen_name hopen hfd
    obtain ⟨s1', n, hopen', hn, hnames, hkept⟩ := callSysOpen_of_name hname hlook hfile
    obtain ⟨rfl, hpair⟩ := Prod.mk.inj (Except.ok.inj (hopen'.symm.trans hopen))
    obtain ⟨rfl, rfl⟩ := Prod.mk.inj hpair
    rw [callSysFstat, FileTable.entry_set_self hn rfl] at hstat
    obtain ⟨ops, stat, hgives⟩ := statFile_gives.1 ⟨s2, hstat, hcontents⟩
    rw [hnames, hkept] at hgives
    exact ⟨c, hname, found, ops, stat, hlook, hfile, hgives⟩
  · rintro ⟨c, hname, found, ops, stat, hlook, hfile, hgives⟩
    obtain ⟨s1, n, hopen, hn, hnames, hkept⟩ := callSysOpen_of_name hname hlook hfile
    rw [← hnames, ← hkept] at hgives
    obtain ⟨s2, hstat, hcontents⟩ := statFile_gives.2 ⟨ops, stat, hgives⟩
    refine ⟨s1, _, n, s2, hopen, Int.natCast_nonneg n, ?_, hcontents⟩
    rw [callSysFstat, FileTable.entry_set_self hn rfl]
    exact hstat

end

variable {m : CString}

section
variable {t : FileTree}

/-! ## One mount point -/

def oneEntry (m : CString) (hm : m.bytes.length < maxPath) (fsOpen : CString → ℕ) :
    MountEntry (FilesystemOperation ρ) :=
  ⟨m, ⟨some fun _ sub => .ok (fsOpen sub), none⟩, hm⟩

def oneMount (m : CString) (hm : m.bytes.length < maxPath) (fsOpen : CString → ℕ) :
    MountTable (FilesystemOperation ρ) :=
  MountTable.empty.set 0 (oneEntry m hm fsOpen)

variable {hm : m.bytes.length < maxPath} {fsOpen : CString → ℕ}

theorem oneMount_entry (i : ℕ) : (oneMount m hm fsOpen : MountTable (FilesystemOperation ρ)).entry i =
      if i = 0 then some (oneEntry m hm fsOpen) else none := by
  rw [oneMount, MountTable.entry_set (by rw [MountTable.length_eq]; decide), MountTable.entry_empty]

variable (ρ t hm fsOpen) in
theorem lookupName_oneMount (hc : canonicalName path = .ok c) :
    ¬m.bytes <+: c.bytes ∧ lookupName (oneMount m hm fsOpen : MountTable (FilesystemOperation ρ)) t c = .ok none ∨
      m.bytes <+: c.bytes ∧ lookupName (oneMount m hm fsOpen : MountTable (FilesystemOperation ρ)) t c =
        .ok (some ⟨0, oneEntry m hm fsOpen, fsOpen (subpathOf c m)⟩) := by
  rcases mountOfName_cases (M := (oneMount m hm fsOpen : MountTable (FilesystemOperation ρ))) hc with
    ⟨hnone, hall⟩ | ⟨i, e, hsome, he, hpre⟩
  · refine .inl ⟨hall 0 _ ((oneMount_entry 0).trans (if_pos rfl)), ?_⟩
    rw [lookupName, hnone]
  rw [oneMount_entry] at he
  split_ifs at he with hi
  obtain rfl := Option.some.inj he
  refine .inr ⟨hpre, ?_⟩
  rw [lookupName, hsome, hi]
  rfl

end

def statState : VfsState FileTree Unit where
  names := { zeldaRootNode 1 with ops := fun _ => 1 }
  contents := ()
  referCount _ := 0
  tasks := []

section
variable {path' d : CString} {hm : m.bytes.length < maxPath} {fsOpen : CString → ℕ}

theorem nameGives_oneMount (hc : canonicalName path = .ok c) :
    NameGives (fun _ => statOps) (oneMount m hm fsOpen) statState c 0 () ↔
      m.bytes <+: c.bytes ∧ fsOpen (subpathOf c m) ≠ 0 := by
  rcases lookupName_oneMount Unit statState.names hm fsOpen hc with ⟨hpre, hnone⟩ | ⟨hpre, hsome⟩
  · refine iff_of_false ?_ fun h => hpre h.1
    rintro ⟨found, ops, stat, hlook, -⟩
    cases hnone.symm.trans hlook
  rw [and_iff_right hpre]
  constructor
  · rintro ⟨found, ops, stat, hlook, hfile, -⟩
    obtain rfl := Option.some.inj (Except.ok.inj (hsome.symm.trans hlook))
    exact hfile
  · intro hfile
    exact ⟨_, statOps, _, hsome, hfile, rfl, rfl, rfl⟩

theorem canonicalName_head (hc : canonicalName path = .ok c) (hne : c.bytes ≠ []) : [slash] <+: c.bytes := by
  obtain ⟨stored, hcanon, -, rfl⟩ := canonicalName_eq hc
  obtain ⟨names, hnames⟩ : ∃ names, Canonical (.ofBytes stored) names := ⟨_, (canonicalizePathName_canonical hcanon).2⟩
  rw [hnames.bytes.resolve_right fun h => hne h.2]
  cases names with
  | nil => exact prefix_rfl
  | cons n names => exact ⟨_, rfl⟩

theorem empty_fits : CString.empty.bytes.length < maxPath := by decide

theorem subpathOf_empty (hne : c.bytes ≠ []) : subpathOf c .empty = c := by
  have hdrop : dropCommon c.bytes CString.empty.bytes = c.bytes := dropCommon_append [] c.bytes
  rw [subpathOf, hdrop, if_neg hne, CString.ofBytes_bytes]

set_option maxRecDepth 20000 in
theorem mounted_empty (fsOpen : CString → ℕ) :
    Mounted (oneMount .empty empty_fits fsOpen : MountTable (FilesystemOperation Unit)) := by
  have hreg : registerFileSystem .empty CString.empty
      (⟨some fun _ sub => .ok (fsOpen sub), none⟩ : FilesystemOperation Unit) =
      .ok (oneMount .empty empty_fits fsOpen, 0) := rfl
  exact .register .boot hreg

set_option maxRecDepth 20000 in
theorem mounted_root (fsOpen : CString → ℕ) :
    Mounted (oneMount rootPoint rootPoint_fits fsOpen : MountTable (FilesystemOperation Unit)) := by
  have hreg : registerFileSystem .empty rootPoint
      (⟨some fun _ sub => .ok (fsOpen sub), none⟩ : FilesystemOperation Unit) =
      .ok (oneMount rootPoint rootPoint_fits fsOpen, 0) := rfl
  exact .register .boot hreg

theorem exists_separating (hc : canonicalName path = .ok c) (hd : canonicalName path' = .ok d) (hne : c ≠ d) :
    ∃ M, Mounted M ∧ ¬(NameGives (fun _ => statOps) M statState c 0 () ↔
      NameGives (fun _ => statOps) M statState d 0 ()) := by
  by_cases hempty : c.bytes = [] ∨ d.bytes = []
  · -- a file system at the root serves the other one
    refine ⟨oneMount rootPoint rootPoint_fits fun _ => 1, mounted_root _, ?_⟩
    rw [nameGives_oneMount hc, nameGives_oneMount hd]
    have hnil : ∀ {b : CString}, b.bytes = [] → ¬(rootPoint.bytes <+: b.bytes ∧ (1 : ℕ) ≠ 0) := fun hb h => by
      rw [hb] at h
      exact absurd (prefix_nil.1 h.1) (by decide)
    have hne' : ¬(c.bytes = [] ∧ d.bytes = []) := fun h => hne (CString.eq_of_bytes (h.1.trans h.2.symm))
    rcases hempty with hcn | hdn
    · exact fun h => hnil hcn (h.2 ⟨canonicalName_head hd fun hdn => hne' ⟨hcn, hdn⟩, Nat.one_ne_zero⟩)
    · exact fun h => hnil hdn (h.1 ⟨canonicalName_head hc fun hcn => hne' ⟨hcn, hdn⟩, Nat.one_ne_zero⟩)
  · obtain ⟨hcn, hdn⟩ := not_or.1 hempty
    refine ⟨oneMount .empty empty_fits fun sub => if sub = c then 1 else 0, mounted_empty _, ?_⟩
    rw [nameGives_oneMount hc, nameGives_oneMount hd, subpathOf_empty hcn, subpathOf_empty hdn, if_pos rfl,
      if_neg (Ne.symm hne)]
    exact fun h => (h.1 ⟨ nil_prefix, Nat.one_ne_zero⟩).2 rfl

theorem exists_giving (hc : canonicalName path = .ok c) :
    ∃ M, Mounted M ∧ NameGives (fun _ => statOps) M statState c 0 () :=
  ⟨oneMount .empty empty_fits fun _ => 1, mounted_empty _, (nameGives_oneMount hc).2 ⟨ nil_prefix, Nat.one_ne_zero⟩⟩

theorem openName_canonical (h : openName table cwd path = some c) : ∃ p, canonicalName p = .ok c := by
  unfold openName at h
  split_ifs at h
  obtain ⟨p, -, hp⟩ := bind_eq_ok (toOption_eq_some.1 h)
  exact ⟨p, hp⟩

end

/-- **`stat` and `open` name the same file if and only if they look up the same canonical name.** -/
theorem stat_open_iff (table : FileTable) (cwd path : CString) :
    (∀ (ρ : Type) (T : ℕ → FileOps ρ) (M : MountTable (FilesystemOperation ρ)) (s : VfsState FileTree ρ),
        Mounted M → SameFile T M s table cwd path) ↔ statName path = openName table cwd path := by
  constructor
  · intro hall
    have hsame : ∀ M, Mounted M → ((∃ c, statName path = some c ∧ NameGives (fun _ => statOps) M statState c 0 ()) ↔
          ∃ c, openName table cwd path = some c ∧ NameGives (fun _ => statOps) M statState c 0 ()) := by
      intro M hM
      rw [← statGives_iff, ← fstatGives_iff]
      exact hall Unit (fun _ => statOps) M statState hM 0 ()
    cases hstat : statName path with
    | none =>
      cases hopen : openName table cwd path with
      | none => rfl
      | some d =>
        obtain ⟨p, hp⟩ := openName_canonical hopen
        obtain ⟨M, hM, hgives⟩ := exists_giving hp
        obtain ⟨c, hc, -⟩ := (hsame M hM).2 ⟨d, hopen, hgives⟩
        cases hstat.symm.trans hc
    | some c =>
      have hc := toOption_eq_some.1 hstat
      cases hopen : openName table cwd path with
      | none =>
        obtain ⟨M, hM, hgives⟩ := exists_giving hc
        obtain ⟨d, hd, -⟩ := (hsame M hM).1 ⟨c, hstat, hgives⟩
        cases hopen.symm.trans hd
      | some d =>
        obtain ⟨p, hp⟩ := openName_canonical hopen
        by_contra hne
        obtain ⟨M, hM, hsep⟩ := exists_separating hc hp fun h => hne (congrArg some h)
        refine hsep ⟨fun hgives => ?_, fun hgives => ?_⟩
        · obtain ⟨d', hd', hgives'⟩ := (hsame M hM).1 ⟨c, hstat, hgives⟩
          obtain rfl := Option.some.inj (hopen.symm.trans hd')
          exact hgives'
        obtain ⟨c', hc', hgives'⟩ := (hsame M hM).2 ⟨d, hopen, hgives⟩
        obtain rfl := Option.some.inj (hstat.symm.trans hc')
        exact hgives'
  · intro heq ρ T M s _ size contents
    rw [statGives_iff, fstatGives_iff, heq]

set_option maxRecDepth 20000 in
/-- A task in `/` opens the file `a`, but its `stat` fails. -/
theorem relative_stat_fails : Mounted smallTable ∧ blank ∉ fileName.bytes ∧
      ¬SameFile (fun _ => statOps) smallTable smallState .empty rootPoint fileName := by
  refine ⟨mounted_smallTable, by decide, fun hsame => ?_⟩
  have hopen : openName .empty rootPoint fileName = some (CString.ofBytes [47, 97]) := rfl
  have hlook : lookupName smallTable smallTree (CString.ofBytes [47, 97]) =
      .ok (some ⟨0, ⟨rootPoint, zeldafs 1, rootPoint_fits⟩, 2⟩) := rfl
  have hfstat : FstatGives (fun _ => statOps) smallTable smallState .empty rootPoint fileName 0 () :=
    fstatGives_iff.2 ⟨_, hopen, _, statOps, _, hlook, by decide, rfl, rfl, rfl⟩
  obtain ⟨c, hc, found, -, -, hfound, -⟩ := statGives_iff.1 ((hsame 0 ()).2 hfstat)
  have hstat : statName fileName = some .empty := rfl
  have hnone : lookupName smallTable smallTree .empty = .ok none := rfl
  obtain rfl := Option.some.inj (hstat.symm.trans hc)
  cases hnone.symm.trans hfound

end Paths

end ZeldaOS
