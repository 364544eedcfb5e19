import ZeldaOS.Hierarchy.Data
import ZeldaOS.Tmpfs.Tree
import ZeldaOS.Zeldafs.Drive

/-!
# The hierarchy of the Zelda drive

`construct_zelda_drive_hierarchy` and `zelda_fs_open` of `filesystem/zeldafs.c`. A refused path leaves in `c_name`
what the file before it left.

* `drive_reachable_iff`: when every file is reachable.
-/

namespace ZeldaOS

open Machine Machine.Forest Function
open List hiding nil

/-! ## The calls -/

def zeldafsFileOps : ℕ := 2

/-- `canonicalize_path_name(c_name, path)`, whose result is not looked at. -/
def canonicalizeInto (cName : List UInt8) (path : CString) : Except FsFault (List UInt8) :=
  match canonicalizePathName path with
  | Option.none => .ok cName
  | some stored => do
    FsFault.overflow.unless (stored.length ≤ maxPath)
    .ok (stored ++ cName.drop stored.length)

/-- The buffer after `split_path`: the slash behind a word is a NUL. -/
def cutWords : (inWord : Bool) → List UInt8 → List UInt8
  | _, [] => []
  | inWord, b :: bs =>
    if b = 0 then b :: bs
    else if b = slash then (if inWord then 0 else b) :: cutWords false bs
    else b :: cutWords true bs

def FileTree.attachRecord (t : FileTree) (x record : ℕ) : FileTree :=
  { t with priv := update t.priv x record, ops := update t.ops x zeldafsFileOps }

/-- A round for a record and its path, with the tree and `c_name`. -/
def constructRound (supply : ℕ → ℕ) (root : ℕ) (s : FileTree × List UInt8) (file : ℕ × CString) :
    Except FsFault (FileTree × List UInt8) := do
  let cName ← canonicalizeInto s.2 file.2
  FsFault.overflow.unless (0 ∈ cName)
  let names ← splitPath (.ofBytes cName)
  let (t, _) ← hierarchyCreateDirectory supply s.1 root names.dropLast
  let (t, _) ← hierarchyCreateFile supply t root names
  let x ← hierarchySearchFile t root names
  .ok (if x ≠ 0 then t.attachRecord x file.1 else t, cutWords false cName)

/-- The records that `LIST_FOREACH` goes through, with their paths. -/
def driveRecords (m : Mem) (head : ℕ) : Except FsFault (List (ℕ × CString)) :=
  match listForeach m (2 ^ 24) (nextAt m head) with
  | .error _ => .error .diverge
  | .ok es => .ok (es.map fun e => (e - listOffset, (zeldaFileAt m (e - listOffset)).path))

/-- `construct_zelda_drive_hierarchy`, with what the stack holds in `c_name`. -/
def constructZeldaDriveHierarchy (supply : ℕ → ℕ) (m : Mem) (head root : ℕ) (cName : List UInt8) (t : FileTree) :
    Except FsFault FileTree := do
  let files ← driveRecords m head
  let (t, _) ← files.foldlM (constructRound supply root) (t, cName)
  .ok t

def zeldaFsOpen (root : ℕ) (t : FileTree) (path : CString) : Except FsFault ℕ :=
  if strcmp path slashPath = 0 then .ok root
  else do
    FsFault.overflow.unless (path.bytes.length < maxPath)
    hierarchySearchFile t root (← splitPath (strcpySafe path maxPath))

def zeldaRootNode (root : ℕ) : FileTree :=
  ⟨⟨fun _ => 0, fun _ => 0, fun _ => 0⟩, fun _ => .empty, fun _ => .mark, fun _ => 0, fun _ => 0, [root], 0⟩

/-! ## What is expected -/

/-- A file of the drive: its record, and an absolute path of at most 254 bytes. -/
structure DriveFile where
  record : ℕ
  names : List CString
  ne_nil : names ≠ []
  plain : ∀ c ∈ names, slash ∉ c.bytes ∧ c.bytes ≠ [] ∧ c.bytes ≠ [dot] ∧ c.bytes ≠ [dot, dot]
  fits : (pathBytes names).length ≤ 254

namespace DriveFile

def path (f : DriveFile) : CString := ⟨pathBytes f.names, nul_not_mem_pathBytes f.names⟩

def subpath (f : DriveFile) : CString :=
  ⟨(pathBytes f.names).tail, fun h => nul_not_mem_pathBytes f.names (mem_of_mem_tail h)⟩

def BlankFree (f : DriveFile) : Prop := blank ∉ f.path.bytes

end DriveFile

def SeparatePaths (files : List DriveFile) : Prop :=
  files.Pairwise fun f g => ¬f.names <+: g.names ∧ ¬g.names <+: f.names

/-- Every file is opened, with its record, and no directory carries one. -/
structure DriveReachable (root : ℕ) (t : FileTree) (files : List DriveFile) : Prop where
  opens : ∀ f ∈ files, ∃ x, zeldaFsOpen root t f.subpath = .ok x ∧ x ≠ 0 ∧ t.type x = .regular ∧ t.priv x = f.record
  dirs : ∀ x ∈ t.live, t.type x = .dir → t.priv x = 0 ∧ t.ops x = 0

variable {t t' : FileTree} {names : List CString} {supply : ℕ → ℕ} {root n x : ℕ} {bs : List UInt8} {c : CString}
  {s s' : FileTree × List UInt8}

section
variable {src : CString}

/-! ## Names -/

theorem mem_cutWords {b : UInt8} {inWord : Bool} (h : b ∈ cutWords inWord bs) : b = 0 ∨ b ∈ bs := by
  induction bs generalizing inWord with
  | nil => cases h
  | cons x bs ih =>
    rw [cutWords] at h
    split_ifs at h with h0 hslash hword
    · exact .inr h
    · rcases mem_cons.1 h with rfl | h
      · exact .inl rfl
      · exact (ih h).imp_right (mem_cons_of_mem x)
    · rcases mem_cons.1 h with rfl | h
      · exact .inr mem_cons_self
      · exact (ih h).imp_right (mem_cons_of_mem x)
    rcases mem_cons.1 h with rfl | h
    · exact .inr mem_cons_self
    · exact (ih h).imp_right (mem_cons_of_mem x)

theorem splitBytes_subset (h : splitBytes n bs = .ok names) : ∀ c ∈ names, c.bytes ⊆ bs := by
  induction n generalizing bs names with
  | zero =>
    cases bs with
    | nil =>
      cases h
      exact fun c hc => absurd hc not_mem_nil
    | cons b bs => cases h
  | succ n ih =>
    by_cases hne : bs = []
    · subst hne
      cases h
      exact fun c hc => absurd hc not_mem_nil
    have hword : (CString.ofBytes (bs.takeWhile (· ≠ slash))).bytes ⊆ bs :=
      ((takeWhile_sublist _).trans (takeWhile_sublist _)).subset
    have hrest : (bs.dropWhile (· ≠ slash)).tail ⊆ bs :=
      ((tail_sublist _).trans (dropWhile_sublist _)).subset
    rw [splitBytes_succ hne] at h
    split_ifs at h
    · exact fun c hc => List.Subset.trans (ih h c hc) hrest
    · cases h
      exact forall_mem_singleton.2 hword
    cases hsplit : splitBytes n (bs.dropWhile (· ≠ slash)).tail with
    | error e =>
      rw [hsplit] at h
      cases h
    | ok names' =>
      rw [hsplit] at h
      cases h
      exact forall_mem_cons.2 ⟨hword, fun c hc => List.Subset.trans (ih hsplit c hc) hrest⟩

theorem searchFrom_name {y : ℕ} (h : searchFrom t c n x = .ok (some y)) : t.name y = c := by
  induction n generalizing x with
  | zero => cases h
  | succ n ih =>
    rw [searchFrom] at h
    split_ifs at h with h0 hc
    · cases h
    · cases h
      exact strcmp_eq_zero.1 hc
    · exact ih h

theorem searchLevels_names {current file : ℕ} (h : searchLevels t names current file = .ok x) (hx : x ≠ 0) :
    ∀ c ∈ names, ∃ y, t.name y = c := by
  induction names generalizing current file with
  | nil => exact fun c hc => absurd hc not_mem_nil
  | cons c cs ih =>
    obtain ⟨found, hsearch, h⟩ := bind_eq_ok h
    cases found with
    | none =>
      cases h
      exact absurd rfl hx
    | some y =>
      obtain ⟨first, -, hsearch⟩ := bind_eq_ok hsearch
      exact forall_mem_cons.2 ⟨⟨y, searchFrom_name hsearch⟩, ih h⟩

def NamesBlankFree (t : FileTree) : Prop := ∀ x, blank ∉ (t.name x).bytes

theorem DataKept.namesBlankFree (h : DataKept names t t') (ht : NamesBlankFree t)
    (hnames : ∀ c ∈ names, blank ∉ c.bytes) :
    NamesBlankFree t' := by
  intro x
  rcases h.data x with hdata | ⟨-, hnew⟩
  · have hname : t'.name x = t.name x := congrArg Prod.fst hdata
    rw [hname]
    exact ht x
  rcases hnew.name with hname | ⟨c, hc, hname⟩
  · rw [hname]
    exact not_mem_nil
  rw [hname]
  exact fun hb => hnames c hc (mem_of_mem_take hb)

theorem canonicalizeInto_blank {cName cName' : List UInt8} (h : canonicalizeInto cName src = .ok cName')
    (hlen : src.bytes.length < maxPath) (hcName : blank ∉ cName) : blank ∉ cName' := by
  rw [canonicalizeInto] at h
  cases hcanon : canonicalizePathName src with
  | none =>
    rw [hcanon] at h
    cases h
    exact hcName
  | some stored =>
    rw [hcanon] at h
    obtain ⟨-, -, h⟩ := bind_eq_ok h
    cases h
    intro hb
    rcases mem_append.1 hb with hb | hb
    · rcases mem_stored hcanon hb with h0 | hsrc
      · exact absurd h0 (by decide)
      rw [canonicalizePathName_blank hsrc hlen] at hcanon
      cases hcanon
    · exact hcName (mem_of_mem_drop hb)

theorem constructRound_names {file : ℕ × CString} (h : constructRound supply root s file = .ok s')
    (hlen : file.2.bytes.length < maxPath) (hs : NamesBlankFree s.1 ∧ blank ∉ s.2) :
    NamesBlankFree s'.1 ∧ blank ∉ s'.2 := by
  obtain ⟨cName, hcanon, h⟩ := bind_eq_ok h
  obtain ⟨-, -, h⟩ := bind_eq_ok h
  obtain ⟨names, hsplit, h⟩ := bind_eq_ok h
  obtain ⟨⟨t1, r1⟩, hdir, h⟩ := bind_eq_ok h
  obtain ⟨⟨t2, r2⟩, hfile, h⟩ := bind_eq_ok h
  obtain ⟨x, -, h⟩ := bind_eq_ok h
  cases h
  have hcName := canonicalizeInto_blank hcanon hlen hs.2
  have hnames : ∀ c ∈ names, blank ∉ c.bytes := fun c hc hb =>
    hcName ((takeWhile_sublist _).subset (splitBytes_subset hsplit c hc hb))
  have hkept : DataKept names s.1 t2 :=
    (createLevels_kept hdir (dropLast_sublist names).subset).trans (createFileLevels_kept hfile (List.Subset.refl _))
  have htree := hkept.namesBlankFree hs.1 hnames
  refine ⟨?_, fun hb => ?_⟩
  · split_ifs
    · exact htree
    · exact htree
  rcases mem_cutWords hb with h0 | hb
  · exact absurd h0 (by decide)
  · exact hcName hb

theorem DriveFile.length_lt (f : DriveFile) : f.path.bytes.length < maxPath :=
  Nat.lt_of_le_of_lt f.fits (by decide)

theorem foldlM_names {files : List DriveFile}
    (h : (files.map fun f => (f.record, f.path)).foldlM (constructRound supply root) s = .ok s')
    (hs : NamesBlankFree s.1 ∧ blank ∉ s.2) : NamesBlankFree s'.1 := by
  induction files generalizing s with
  | nil =>
    cases h
    exact hs.1
  | cons f fs ih =>
    obtain ⟨s1, hround, h⟩ := bind_eq_ok h
    exact ih h (constructRound_names hround f.length_lt hs)

end

section
variable {T T' : Forest Entry} {ds : List CString} {f : DriveFile} {done todo : List DriveFile}

theorem DriveFile.path_bytes (f : DriveFile) : f.path.bytes = joinWords (f.names.map CString.bytes) := by
  have hjoin : ∀ names, names ≠ [] → pathBytes names = joinWords (names.map CString.bytes) := fun names hne => by
    cases names with
    | nil => exact absurd rfl hne
    | cons c cs => rfl
  exact hjoin f.names f.ne_nil

theorem DriveFile.subpath_bytes (f : DriveFile) :
    ∃ c cs, f.names = c :: cs ∧ f.subpath.bytes = c.bytes ++ joinWords (cs.map CString.bytes) := by
  obtain ⟨c, cs, hnames⟩ := exists_cons_of_ne_nil f.ne_nil
  refine ⟨c, cs, hnames, ?_⟩
  have htail : f.subpath.bytes = f.path.bytes.tail := rfl
  rw [htail, f.path_bytes, hnames]
  rfl

theorem splitPath_subpath (f : DriveFile) : splitPath f.subpath = .ok f.names := by
  obtain ⟨c, cs, hnames, hbytes⟩ := f.subpath_bytes
  have hslash : ∀ v ∈ cs.map CString.bytes, slash ∉ v := fun v hv => by
    obtain ⟨d, hd, rfl⟩ := mem_map.1 hv
    exact (f.plain d (hnames ▸ mem_cons_of_mem c hd)).1
  have hsplit := splitBytes_join (f.plain c (hnames ▸ mem_cons_self)).1 hslash (n := f.subpath.bytes.length)
    (by rw [hbytes])
  rw [← hbytes] at hsplit
  have hkeep : (c.bytes :: cs.map CString.bytes).filter (· ≠ []) = f.names.map CString.bytes := by
    rw [← map_cons, ← hnames]
    refine filter_eq_self.2 fun v hv => ?_
    obtain ⟨d, hd, rfl⟩ := mem_map.1 hv
    simpa using (f.plain d hd).2.1
  rw [splitPath, hsplit, hkeep, map_map]
  refine congrArg Except.ok ((map_congr_left fun d _ => ?_).trans (map_id _))
  exact CString.ofBytes_bytes d

theorem zeldaFsOpen_eq (f : DriveFile) (t : FileTree) :
    zeldaFsOpen root t f.subpath = hierarchySearchFile t root f.names := by
  have hlen : f.subpath.bytes.length < maxPath :=
    Nat.lt_of_le_of_lt ((tail_sublist _).length_le.trans f.fits) (by decide)
  have hne : strcmp f.subpath slashPath ≠ 0 := by
    rw [Ne, strcmp_eq_zero]
    intro heq
    obtain ⟨c, cs, hnames, hbytes⟩ := f.subpath_bytes
    obtain ⟨hslash, hc, -⟩ := f.plain c (hnames ▸ mem_cons_self)
    obtain ⟨b, bs, hcons⟩ := exists_cons_of_ne_nil hc
    have hsub : f.subpath.bytes = [slash] := congrArg CString.bytes heq
    rw [hbytes, hcons, cons_append, cons.injEq] at hsub
    exact hslash (hcons ▸ hsub.1 ▸ mem_cons_self)
  rw [zeldaFsOpen, if_neg hne, FsFault.unless_of hlen, strcpySafe_of_le hlen.le, splitPath_subpath]
  rfl

theorem DriveFile.isName (f : DriveFile) (hblank : f.BlankFree) : ∀ c ∈ f.names, IsName c := fun c hc => by
  obtain ⟨h1, h2, h3, h4⟩ := f.plain c hc
  refine ⟨⟨h1, fun hb => hblank ?_⟩, h2, h3, h4⟩
  rw [f.path_bytes]
  exact mem_joinWords.2 (.inr ⟨c.bytes, mem_map_of_mem hc, hb⟩)

theorem canonicalizeInto_spec (f : DriveFile) (hblank : f.BlankFree) (cName : List UInt8) :
    ∃ buf, canonicalizeInto cName f.path = .ok buf ∧ 0 ∈ buf ∧ splitPath (.ofBytes buf) = .ok f.names := by
  have hname := f.isName hblank
  have hfits : f.path.bytes.length + 2 ≤ maxPath := Nat.add_le_add_right f.fits 2
  have haccepted : canonicalizePathName f.path ≠ none := fun hnone =>
    hblank (mem_of_mem_take (canonicalizePathName_eq_none.1 hnone))
  obtain ⟨stored, hcanon⟩ := Option.ne_none_iff_exists'.1 haccepted
  have hstored : stored.length ≤ maxPath := (length_stored_le hcanon).trans hfits
  have hnul : 0 ∈ stored := by
    obtain ⟨s, -, rfl⟩ := Option.map_eq_some_iff.1 hcanon
    exact mem_append_right _ mem_cons_self
  have hcomponents : components f.path = .ok f.names := components_pathBytes rfl hname hfits
  rw [components, hcanon, Option.getD_some, FsFault.unless_of hstored] at hcomponents
  refine ⟨stored ++ cName.drop stored.length, ?_, mem_append_left _ hnul, ?_⟩
  · rw [canonicalizeInto, hcanon]
    exact bind_of_ok (FsFault.unless_of hstored) rfl
  have hsame : CString.ofBytes (stored ++ cName.drop stored.length) = CString.ofBytes stored := by
    rw [CString.ofBytes, CString.ofBytes, CString.mk.injEq, takeWhile_append]
    refine if_neg fun hall => ?_
    have hself := List.IsPrefix.eq_of_length ( takeWhile_prefix _) hall
    have hbytes : (CString.ofBytes stored).bytes = stored := hself
    exact (CString.ofBytes stored).nul_free (by rw [hbytes]; exact hnul)
  rw [hsame]
  exact hcomponents

theorem bareResult_eq_ok {α : Type} {r : Except FsFault (FileTree × α)} {s : FileTree} {a : α}
    (h : bareResult r = .ok (s, a)) : ∃ t, r = .ok (t, a) ∧ t.bare = s := by
  cases r with
  | error e => cases h
  | ok p =>
    obtain ⟨t, b⟩ := p
    have heq := Except.ok.inj h
    rw [Prod.mk.injEq] at heq
    exact ⟨t, by rw [← heq.2], heq.1⟩

/-! ## Rounds -/

structure FilePlaced (supply : ℕ → ℕ) (names : List CString) (t : FileTree) (T T' : Forest Entry) (e : Entry) :
    Prop where
  represents : t.bare.Represents T'
  shaped : Shaped true T'
  marked : Marked T'
  root : T'.root Entry.addr = T.root Entry.addr
  reliable : Reliable supply t
  made : Made .regular names T T'
  found : T'.find Entry.name names = some e
  regular : e.type = .regular

theorem filePlaced (hreliable : Reliable supply t) (h : t.bare.Represents T) (hs : Shaped true T) (hm : Marked T)
    (hT : T ≠ nil) (hnames : ∀ d ∈ ds ++ [c], d ≠ .empty ∧ d.bytes.length ≤ maxPath)
    (hdirs : ∀ ps e, ps <+: ds → T.find Entry.name ps = some e → e.type = .dir)
    (hfree : T.find Entry.name (ds ++ [c]) = Option.none) :
    ∃ t1 t2 T2 e, hierarchyCreateDirectory supply t (T.root Entry.addr) ds = .ok (t1, 0) ∧
      hierarchyCreateFile supply t1 (T.root Entry.addr) (ds ++ [c]) = .ok (t2, 0) ∧
      FilePlaced supply (ds ++ [c]) t2 T T2 e := by
  obtain ⟨hds, hc, hlen⟩ : (∀ d ∈ ds, d ≠ .empty ∧ d.bytes.length ≤ maxPath) ∧ c ≠ .empty ∧
    c.bytes.length ≤ maxPath := by
    rw [forall_mem_append, forall_mem_singleton] at hnames
    exact hnames
  have hempty : CString.empty ∉ ds ++ [c] := fun hc => (hnames _ hc).1 rfl
  obtain ⟨t1', T1, r, hrun, hmade⟩ := createLevels_spec supply (K := []) hds h hs trivial hT
  have hr : r = 0 := by
    by_contra hr
    obtain ⟨ps, e, -, hpre, he, htype⟩ := hmade.blocked hreliable hm hr
    exact htype (hdirs ps e hpre he)
  subst hr
  have hcreates : Creates supply ds t.bare t1' T T1 := hmade.creates
  have hbare := (createLevels_bare supply t (T.root Entry.addr) ds).symm.trans hrun
  obtain ⟨t1, hrun1, rfl⟩ := bareResult_eq_ok hbare
  have hmarked1 := hmade.marked hreliable hm
  obtain ⟨K, l, rfl, hK, hpath, hl⟩ := hmade.level rfl
  have hlevel := find_mark_of_level hcreates.shaped hK hl
  rw [hpath] at hlevel
  obtain ⟨K', l', hplug, hK', hpath', hl', hfile⟩ := createFileLevels_spec supply (K := [])
    hcreates.represents trivial hlevel c
  have hplug' : plug K l = plug K' l' := hplug
  have hroot := hcreates.root
  have hcreate := (createFileLevels_bare supply t1 (T.root Entry.addr) (ds ++ [c])).symm
  rw [← hroot] at hcreate
  have hentry' := hcreate.trans hfile
  rw [hplug'] at hcreates hmarked1
  rcases fileEntry_spec supply hcreates.represents hcreates.shaped hK' hl' hc hlen with
    ⟨-, hexists⟩ | ⟨-, hrel⟩ | ⟨t2', T2, e, hentry, hnew⟩
  · -- nothing is at the path, and the directories are above it
    rw [hpath'] at hexists
    obtain ⟨e, he⟩ := Option.ne_none_iff_exists'.1 hexists
    have hpre := (hcreates.grows.new _ e hempty hfree he).2.length_le
    rw [length_append, length_singleton] at hpre
    omega
  · exact absurd (hcreates.reliable hreliable) hrel
  rw [hpath'] at hnew
  obtain ⟨t2, hrun2, rfl⟩ := bareResult_eq_ok (hentry'.trans hentry)
  have hreg : e.type = .regular := hnew.regular
  rw [hroot] at hrun2
  exact ⟨t1, t2, T2, e, hrun1, hrun2, hnew.represents, hnew.shaped, hnew.marked hmarked1, hnew.root.trans hcreates.root,
    hnew.reliable (hcreates.reliable hreliable), hreg ▸ .of_adds hcreates.grows hnew.adds hnew.free,
    (hnew.adds _).trans (if_pos rfl), hreg⟩

/-- The hierarchy when the files `done` have been through the loop. -/
structure DriveInv (supply : ℕ → ℕ) (root : ℕ) (t : FileTree) (T : Forest Entry) (done : List DriveFile) : Prop where
  represents : t.bare.Represents T
  shaped : Shaped true T
  marked : Marked T
  root : T.root Entry.addr = root
  ne_nil : T ≠ nil
  reliable : Reliable supply t
  found : ∀ f ∈ done, ∃ e, T.find Entry.name f.names = some e ∧ e.type = .regular ∧ t.priv e.addr = f.record
  only : ∀ ps e, CString.empty ∉ ps → T.find Entry.name ps = some e →
    ∃ f ∈ done, ps <+: f.names ∧ (ps ≠ f.names → e.type = .dir)
  dirs : ∀ x, t.type x = .dir → t.priv x = 0 ∧ t.ops x = 0

theorem driveInv_start (hroot : root ≠ 0) (hreliable : Reliable supply (zeldaRootNode root)) :
    DriveInv supply root (zeldaRootNode root) (node ⟨root, .empty, .mark⟩ nil nil) [] where
  represents := represents_start hroot
  shaped := ⟨rfl, rfl, rfl, trivial⟩
  marked := ⟨fun hc : FileType.mark = .dir => absurd hc (by decide), trivial, trivial⟩
  root := rfl
  ne_nil := Forest.Frame.fill_ne_nil (.below _ nil) nil
  reliable := hreliable
  found f hf := absurd hf not_mem_nil
  only ps e hps he := by
    rw [find_mark rfl hps] at he
    cases he
  dirs _ hx := by cases hx

theorem DriveFile.names_fit (f : DriveFile) : ∀ d ∈ f.names, d ≠ .empty ∧ d.bytes.length ≤ maxPath := fun d hd => by
  refine ⟨fun he => (f.plain d hd).2.1 (he ▸ rfl), ?_⟩
  have hsub : d.bytes.length ≤ f.path.bytes.length := by
    rw [f.path_bytes, joinWords]
    have hmem : slash :: d.bytes ∈ (f.names.map CString.bytes).map (slash :: ·) :=
      mem_map_of_mem (mem_map_of_mem hd)
    have hlen := (sublist_flatten_of_mem hmem).length_le
    rw [length_cons, ← flatMap_def] at hlen
    omega
  exact hsub.trans f.length_lt.le

/-- **A round for a path without blanks**: the file gets its record. -/
theorem driveInv_round (h : DriveInv supply root t T done) (hblank : f.BlankFree)
    (hsep : ∀ g ∈ done, ¬g.names <+: f.names ∧ ¬f.names <+: g.names) (cName : List UInt8) :
    ∃ t' T' cName', constructRound supply root (t, cName) (f.record, f.path) = .ok (t', cName') ∧
      DriveInv supply root t' T' (done ++ [f]) := by
  obtain ⟨buf, hcanon, hnul, hsplit⟩ := canonicalizeInto_spec f hblank cName
  obtain ⟨ds, c, hnames⟩ : ∃ ds c, f.names = ds ++ [c] :=
    ⟨_, _, (dropLast_append_getLast f.ne_nil).symm⟩
  have hfit := f.names_fit
  have hempty : CString.empty ∉ f.names := fun hc => (hfit _ hc).1 rfl
  -- what lies on the way is a directory of another file
  have hdirs : ∀ ps e, ps <+: ds → T.find Entry.name ps = some e → e.type = .dir := fun ps e hpre he => by
    have hpre' : ps <+: f.names := hnames ▸ hpre.trans (prefix_append ds [c])
    obtain ⟨g, hg, -, htype⟩ := h.only ps e (fun hc => hempty (hpre'.subset hc)) he
    exact htype fun heq => (hsep g hg).1 (heq ▸ hpre')
  have hfree : T.find Entry.name (ds ++ [c]) = Option.none := by
    by_contra hsome
    obtain ⟨e, he⟩ := Option.ne_none_iff_exists'.1 hsome
    rw [← hnames] at he
    obtain ⟨g, hg, hpre, -⟩ := h.only _ e hempty he
    exact (hsep g hg).2 hpre
  obtain ⟨t1, t2, T2, e, hrun1, hrun2, hplaced⟩ := filePlaced h.reliable h.represents h.shaped h.marked h.ne_nil
    (hnames ▸ hfit) hdirs hfree
  rw [h.root] at hrun1 hrun2
  rw [← hnames] at hrun2 hplaced
  have hmem : e ∈ T2.toList := mem_of_find hplaced.found
  have he0 : e.addr ≠ 0 := hplaced.represents.addr_ne_zero hmem
  have hetype : t2.type e.addr = .regular := (hplaced.represents.label e hmem).2.trans hplaced.regular
  have hsearch : hierarchySearchFile t2 root f.names = .ok e.addr := by
    have hspec := hierarchySearchFile_spec hplaced.represents f.names
    rw [hplaced.root, h.root, hplaced.found] at hspec
    exact (searchLevels_bare t2 root 0 f.names).symm.trans hspec
  have hkept : DataKept f.names t t2 :=
    (createLevels_kept hrun1 (hnames ▸ subset_append_left ds [c])).trans
      (createFileLevels_kept hrun2 (List.Subset.refl _))
  refine ⟨t2.attachRecord e.addr f.record, T2, cutWords false buf, ?_, ?_⟩
  · have hdrop : f.names.dropLast = ds := by rw [hnames, dropLast_concat]
    simp only [constructRound, hcanon, FsFault.unless_of hnul, hsplit, hdrop, hrun1, hrun2, hsearch, bind, Except.bind,
      if_pos he0]
  refine ⟨?_, hplaced.shaped, hplaced.marked, hplaced.root.trans h.root, ?_, hplaced.reliable, fun g hg => ?_,
    fun ps e' hps he' => ?_, fun x hx => ?_⟩
  · exact hplaced.represents.congr (fun _ _ => ⟨rfl, rfl, rfl⟩) (fun _ _ => ⟨rfl, rfl, rfl⟩) hplaced.represents.live
  · rintro rfl
    cases hmem
  · rcases mem_append.1 hg with hg | hg
    · obtain ⟨e', hfind, htype, hpriv⟩ := h.found g hg
      have hfind' := hplaced.made.keep _ _ hfind
      have hne : e'.addr ≠ e.addr := fun haddr => by
        have heq : e' = e := inj_on_of_nodup_map hplaced.represents.addrs_nodup (mem_of_find hfind') hmem haddr
        have hsame := find_inj hplaced.represents.addrs_nodup.of_map (heq ▸ hfind') hplaced.found
        exact (hsep g hg).1 (hsame ▸ prefix_rfl)
      refine ⟨e', hfind', htype, ?_⟩
      have hlive : e'.addr ∈ t.live := h.represents.addr_live (mem_of_find hfind)
      have hdata := (hkept.data e'.addr).resolve_right fun hc => hc.1 hlive
      have hpriv' : t2.priv e'.addr = t.priv e'.addr := congrArg (fun p => p.2.2.2) hdata
      exact (update_of_ne hne ..).trans (hpriv'.trans hpriv)
    · obtain rfl := mem_singleton.1 hg
      exact ⟨e, hplaced.found, hplaced.regular, update_self ..⟩
  · cases hold : T.find Entry.name ps with
    | some e0 =>
      obtain rfl : e0 = e' := Option.some.inj ((hplaced.made.keep _ _ hold).symm.trans he')
      obtain ⟨g, hg, hpre, htype⟩ := h.only ps e0 hps hold
      exact ⟨g, mem_append_left _ hg, hpre, htype⟩
    | none =>
      obtain ⟨hpre, htype⟩ := hplaced.made.new ps e' hps hold he'
      exact ⟨f, mem_append_right _ mem_cons_self, hpre, fun hne => htype.trans (if_neg hne)⟩
  have hx' : t2.type x = .dir := hx
  have hne : x ≠ e.addr := fun heq => by
    rw [heq, hetype] at hx'
    cases hx'
  have hsame : (t2.attachRecord e.addr f.record).priv x = t2.priv x ∧
      (t2.attachRecord e.addr f.record).ops x = t2.ops x :=
    ⟨update_of_ne hne .., update_of_ne hne ..⟩
  rw [hsame.1, hsame.2]
  rcases hkept.data x with hdata | ⟨-, hnew⟩
  · simp only [FileTree.data, Prod.mk.injEq] at hdata
    obtain ⟨-, htype, hops, hpriv⟩ := hdata
    rw [hpriv, hops]
    exact h.dirs x (htype ▸ hx')
  · exact ⟨hnew.priv, hnew.ops⟩

theorem driveInv_run (h : DriveInv supply root t T done) (hblank : ∀ f ∈ todo, f.BlankFree)
    (hsep : SeparatePaths (done ++ todo)) (cName : List UInt8) :
    ∃ t' T' cName', (todo.map fun f => (f.record, f.path)).foldlM (constructRound supply root) (t, cName) =
        .ok (t', cName') ∧ DriveInv supply root t' T' (done ++ todo) := by
  induction todo generalizing t T done cName with
  | nil => exact ⟨t, T, cName, rfl, by rw [append_nil]; exact h⟩
  | cons f todo ih =>
    obtain ⟨hf, htodo⟩ := forall_mem_cons.1 hblank
    obtain ⟨t1, T1, cName1, hround, hinv⟩ := driveInv_round h hf
      (fun g hg => (pairwise_append.1 hsep).2.2 g hg f mem_cons_self) cName
    rw [append_cons] at hsep ⊢
    obtain ⟨t', T', cName', hrest, hend⟩ := ih hinv htodo hsep cName1
    exact ⟨t', T', cName', bind_of_ok hround hrest, hend⟩

theorem DriveInv.reachable (h : DriveInv supply root t T done) : DriveReachable root t done where
  opens f hf := by
    obtain ⟨e, hfind, htype, hpriv⟩ := h.found f hf
    have hmem := mem_of_find hfind
    have hspec := hierarchySearchFile_spec h.represents f.names
    rw [h.root, hfind] at hspec
    refine ⟨e.addr, ?_, h.represents.addr_ne_zero hmem, (h.represents.label e hmem).2.trans htype, hpriv⟩
    rw [zeldaFsOpen_eq]
    exact (searchLevels_bare t root 0 f.names).symm.trans hspec
  dirs x _ := h.dirs x

end

/-- **Every file of the drive is reachable if and only if no path has a blank.** -/
theorem drive_reachable_iff (supply : ℕ → ℕ) (m : Mem) (head root : ℕ) (files : List DriveFile) (hroot : root ≠ 0)
    (hrecords : driveRecords m head = .ok (files.map fun f => (f.record, f.path))) (hsep : SeparatePaths files)
    (hsupply : Function.Injective supply) (hfresh : ∀ k, supply k ≠ 0 ∧ supply k ≠ root) :
    (∀ cName : List UInt8, cName.length = maxPath →
        ∃ t, constructZeldaDriveHierarchy supply m head root cName (zeldaRootNode root) = .ok t ∧
          DriveReachable root t files) ↔ ∀ f ∈ files, f.BlankFree := by
  constructor
  · intro h f hf hblank
    -- with an empty `c_name` at the start no blank comes into the hierarchy
    obtain ⟨t, hrun, hreach⟩ := h (replicate maxPath 0) length_replicate
    obtain ⟨x, hopen, hx, -⟩ := hreach.opens f hf
    obtain ⟨records, hrecords', hrun⟩ := bind_eq_ok hrun
    obtain ⟨⟨t', cName⟩, hloop, hrun⟩ := bind_eq_ok hrun
    obtain rfl : t' = t := Except.ok.inj hrun
    obtain rfl := Except.ok.inj (hrecords.symm.trans hrecords')
    have hnames : NamesBlankFree t' := foldlM_names hloop
      ⟨fun _ => not_mem_nil, fun hb => absurd (eq_of_mem_replicate hb) (by decide)⟩
    rw [zeldaFsOpen_eq] at hopen
    rw [f.path_bytes] at hblank
    rcases mem_joinWords.1 hblank with ⟨-, hslash⟩ | ⟨w, hw, hb⟩
    · exact absurd hslash (by decide)
    obtain ⟨c, hc, rfl⟩ := mem_map.1 hw
    obtain ⟨y, hy⟩ := searchLevels_names hopen hx c hc
    exact hnames y (hy ▸ hb)
  · intro hblank cName _
    have hreliable : Reliable supply (zeldaRootNode root) :=
      ⟨hsupply, fun k _ => ⟨(hfresh k).1, fun hc => (hfresh k).2 (mem_singleton.1 hc)⟩⟩
    have hstart := driveInv_start hroot hreliable
    obtain ⟨t, T, cName', hloop, hinv⟩ := driveInv_run hstart hblank hsep cName
    exact ⟨t, bind_of_ok hrecords (bind_of_ok hloop rfl), hinv.reachable⟩

def sparseMemory (bytes : List (ℕ × UInt8)) : Mem := fun x => (bytes.lookup x).getD 0

def nestedFile : DriveFile where
  record := 16
  names := [⟨[97], by decide⟩, ⟨[98], by decide⟩]
  ne_nil := cons_ne_nil _ _
  plain := by decide
  fits := by decide

def blankFile : DriveFile where
  record := 284
  names := [⟨[99, 32, 100], by decide⟩]
  ne_nil := cons_ne_nil _ _
  plain := by decide
  fits := by decide

def nestedDrive : Mem := sparseMemory [(8, 20), (9, 1), (12, 20), (13, 1), (16, 47), (17, 97), (18, 47), (19, 98)]

def blankDrive : Mem :=
  sparseMemory [(8, 32), (9, 2), (12, 20), (13, 1), (16, 47), (17, 97), (18, 47), (19, 98), (280, 32), (281, 2),
    (284, 47), (285, 99), (286, 32), (287, 100), (544, 20), (545, 1)]

theorem nestedDrive_records : driveRecords nestedDrive 8 = .ok ([nestedFile].map fun f => (f.record, f.path)) := by
  refine congrArg Except.ok ?_
  decide +kernel

theorem blankDrive_records :
    driveRecords blankDrive 8 = .ok ([nestedFile, blankFile].map fun f => (f.record, f.path)) := by
  refine congrArg Except.ok ?_
  decide +kernel

theorem drive_reachable_nested :
    ∃ t, constructZeldaDriveHierarchy (· + 2) nestedDrive 8 1 (replicate maxPath 0) (zeldaRootNode 1) = .ok t ∧
      DriveReachable 1 t [nestedFile] := by
  have hiff := drive_reachable_iff (· + 2) nestedDrive 8 1 [nestedFile] (by decide) nestedDrive_records
    (pairwise_singleton _ _) (add_left_injective 2) (fun k => ⟨by omega, by omega⟩)
  exact hiff.2 (forall_mem_singleton.2 (by unfold DriveFile.BlankFree; decide)) _ length_replicate

/-- **The record of a path with a blank lands on the directory of the file before.** -/
theorem blank_path_lost : SeparatePaths [nestedFile, blankFile] ∧
      driveRecords blankDrive 8 = .ok ([nestedFile, blankFile].map fun f => (f.record, f.path)) ∧
      ∃ t, constructZeldaDriveHierarchy (· + 2) blankDrive 8 1 (replicate maxPath 0) (zeldaRootNode 1) = .ok t ∧
        t.type 2 = .dir ∧ t.priv 2 = 284 ∧ zeldaFsOpen 1 t blankFile.subpath = .ok 0 ∧
        ¬DriveReachable 1 t [nestedFile, blankFile] := by
  refine ⟨by unfold SeparatePaths; decide, blankDrive_records, ?_⟩
  have heval : (([nestedFile, blankFile].map fun f => (f.record, f.path)).foldlM (constructRound (· + 2) 1)
      (zeldaRootNode 1, replicate maxPath 0)).map
        (fun s => (s.1.type 2, s.1.priv 2, zeldaFsOpen 1 s.1 blankFile.subpath)) = .ok (.dir, 284, .ok 0) := by
    decide +kernel
  cases hrun : ([nestedFile, blankFile].map fun f => (f.record, f.path)).foldlM (constructRound (· + 2) 1)
      (zeldaRootNode 1, replicate maxPath 0) with
  | error e =>
    rw [hrun] at heval
    cases heval
  | ok s =>
    rw [hrun] at heval
    have hvalues := Except.ok.inj heval
    simp only [Prod.mk.injEq] at hvalues
    obtain ⟨htype, hpriv, hopen⟩ := hvalues
    refine ⟨s.1, bind_of_ok blankDrive_records (bind_of_ok hrun rfl), htype, hpriv, hopen, fun hreach => ?_⟩
    obtain ⟨x, hx, hx0, -⟩ := hreach.opens blankFile (mem_cons_of_mem _ mem_cons_self)
    exact hx0 (Except.ok.inj (hx.symm.trans hopen))

end ZeldaOS
