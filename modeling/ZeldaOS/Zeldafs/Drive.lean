import ZeldaOS.Machine.MemList
import ZeldaOS.Machine.Runs
import ZeldaOS.Vfs.Path

/-!
# The Zelda drive

The records that `ZeldaDrive/hyrule.py` writes, and `enumerate_files_in_zelda_drive` of `filesystem/zeldafs.c`.

* `drive_round_trip`: the drive is read back as it was written.
-/

namespace ZeldaOS

open Machine List

/-! ## Writing -/

def int32ToArray (val : ℕ) : List UInt8 :=
  [.ofNat (val >>> 0 &&& 0xff), .ofNat (val >>> 8 &&& 0xff), .ofNat (val >>> 16 &&& 0xff), .ofNat (val >>> 24 &&& 0xff)]

/-- The bytes of the string in front; nothing when they do not fit. -/
def stringToArray (arr str : List UInt8) : Option (List UInt8) :=
  if str.length ≤ arr.length then some (str ++ arr.drop str.length) else none

/-- A file under `root`: its path, in UTF-8, and its bytes. -/
structure HostFile where
  path : List UInt8
  content : List UInt8

def HostFile.drivePath (f : HostFile) : List UInt8 := f.path.dropWhile (· = dot)

def copyContext (content : List UInt8) : List UInt8 :=
  if _h : content.take 512 = [] then [] else content.take 512 ++ copyContext (content.drop 512)
termination_by content.length
decreasing_by
  have hne : content ≠ [] := fun hc => _h (by rw [hc]; rfl)
  have := length_pos_iff.2 hne
  rw [length_drop]
  omega

def writeDriveFile (f : HostFile) : Option (List UInt8) := do
  let name ← stringToArray (List.replicate 256 0) f.drivePath
  some (name ++ int32ToArray f.content.length ++ int32ToArray 0 ++ int32ToArray 0 ++ copyContext f.content)

def writeDrive : List HostFile → Option (List UInt8)
  | [] => some []
  | f :: fs => do
    let record ← writeDriveFile f
    let rest ← writeDrive fs
    some (record ++ rest)

/-! ## Reading -/

/-- The offsets of `length`, `list` and `content` in `struct zelda_file`. -/
def lengthOffset : ℕ := 256
@[inherit_doc lengthOffset] def listOffset : ℕ := 260
@[inherit_doc lengthOffset] def contentOffset : ℕ := 268

structure ZeldaFile where
  path : CString
  length : ℕ
  content : List UInt8
  deriving DecidableEq

def zeldaFileAt (m : Mem) (a : ℕ) : ZeldaFile where
  path := .ofBytes ((List.range 256).map fun i => m (a + i))
  length := m.read (a + lengthOffset) 4
  content := (List.range (m.read (a + lengthOffset) 4)).map fun i => m (a + contentOffset + i)

def enumerateRound (head : ℕ) (s : Mem × ℕ) : Except Fault (Mem × ℕ) := do
  let m := (s.1.write (s.2 + listOffset + 4) 4 0).write (s.2 + listOffset) 4 0
  let m ← m.listAppend head (s.2 + listOffset)
  .ok (m, (s.2 + (contentOffset + m.read (s.2 + lengthOffset) 4)) % 2 ^ 32)

def enumerateLoop (head driveEnd : ℕ) : (fuel : ℕ) → Mem × ℕ → Except Fault (Mem × ℕ)
  | 0, _ => .error .diverge
  | n + 1, s => if s.2 < driveEnd then enumerateRound head s >>= enumerateLoop head driveEnd n else .ok s

def enumerateFilesInZeldaDrive (head driveStart driveEnd : ℕ) (m : Mem) : Except Fault (Mem × ℕ) :=
  enumerateLoop head driveEnd (driveEnd - driveStart + 1) (m, driveStart)

/-- The records around the links, `CONTAINER_OF`. -/
def containersOf (m : Mem) (es : List ℕ) : List ZeldaFile := es.map fun e => zeldaFileAt m (e - listOffset)

def driveFiles (m : Mem) (head : ℕ) : Except Fault (List ZeldaFile) :=
  (listForeach m (2 ^ 24) (nextAt m head)).map (containersOf m)

/-- The path, length and content of a file, as it was written and as it is read. -/
def HostFile.entry (f : HostFile) : List UInt8 × ℕ × List UInt8 := (f.drivePath, f.content.length, f.content)
@[inherit_doc HostFile.entry] def ZeldaFile.entry (z : ZeldaFile) : List UInt8 × ℕ × List UInt8 :=
  (z.path.bytes, z.length, z.content)

/-! ## Records -/

def ImageAt (m : Mem) (a : ℕ) (image : List UInt8) : Prop := ∀ i b, image[i]? = some b → m (a + i) = b

structure RecordAt (m : Mem) (a : ℕ) (f : HostFile) : Prop where
  name : ∀ i < 256, m (a + i) = f.drivePath.getD i 0
  length : m.read (a + lengthOffset) 4 = f.content.length
  content : ∀ i < f.content.length, m (a + contentOffset + i) = f.content.getD i 0

def HostFile.size (f : HostFile) : ℕ := contentOffset + f.content.length

def DriveAt (m : Mem) : (a : ℕ) → List HostFile → (e : ℕ) → Prop
  | a, [], e => a = e
  | a, f :: fs, e => RecordAt m a f ∧ DriveAt m (a + f.size) fs e

variable {m : Mem} {a : ℕ}

theorem imageAt_append {xs ys : List UInt8} (h : ImageAt m a (xs ++ ys)) :
    ImageAt m a xs ∧ ImageAt m (a + xs.length) ys := by
  constructor
  · intro i b hi
    refine h i b ?_
    rw [List.getElem?_append_left (List.getElem?_eq_some_iff.1 hi).1, hi]
  intro i b hi
  rw [add_assoc]
  refine h _ b ?_
  rw [getElem?_append_right (Nat.le_add_right _ _), Nat.add_sub_cancel_left, hi]

theorem copyContext_eq (content : List UInt8) : copyContext content = content := by
  induction content using copyContext.induct with
  | case1 content h =>
    rw [copyContext, dif_pos h]
    rw [take_eq_nil_iff] at h
    exact (h.resolve_left (by decide)).symm
  | case2 content h ih => rw [copyContext, dif_neg h, ih, take_append_drop]

theorem ofNat_and_mask (x : ℕ) : UInt8.ofNat (x &&& 0xff) = UInt8.ofNat x := by
  rw [← UInt8.toNat_inj, UInt8.toNat_ofNat', UInt8.toNat_ofNat']
  have hmask : x &&& 0xff = x % 2 ^ 8 := Nat.and_two_pow_sub_one_eq_mod x 8
  rw [hmask, Nat.mod_mod]

theorem int32ToArray_eq (n : ℕ) : int32ToArray n = (List.range 4).map fun i => UInt8.ofNat (n / 256 ^ i) := by
  simp only [int32ToArray, ofNat_and_mask, Nat.shiftRight_eq_div_pow]
  rfl

theorem read_int32 {n : ℕ} (h : ImageAt m a (int32ToArray n)) (hn : n < 2 ^ 32) : m.read a 4 = n := by
  rw [int32ToArray_eq] at h
  have hmod : m.read a 4 = n % 256 ^ 4 := Mem.read_eq_mod fun i hi => h i _ (by simp [getElem?_range hi])
  rw [hmod]
  exact Nat.mod_eq_of_lt hn

variable {image : List UInt8}

theorem ImageAt.getD {i : ℕ} (h : ImageAt m a image) (hi : i < image.length) : m (a + i) = image.getD i 0 := by
  rw [getD_eq_getElem?_getD, getElem?_eq_getElem hi]
  exact h i _ (getElem?_eq_getElem hi)

theorem getD_append_replicate (bs : List UInt8) (n i : ℕ) : (bs ++ List.replicate n 0).getD i 0 = bs.getD i 0 := by
  rw [getD_eq_getElem?_getD, getD_eq_getElem?_getD]
  rcases lt_or_ge i bs.length with hlt | hge
  · rw [List.getElem?_append_left hlt]
  rw [getElem?_append_right hge, getElem?_eq_none hge, getElem?_replicate]
  split_ifs <;> rfl

variable {f : HostFile}

theorem writeDriveFile_eq (hpath : f.drivePath.length ≤ 255) :
    writeDriveFile f = some (f.drivePath ++ List.replicate (256 - f.drivePath.length) 0 ++
      int32ToArray f.content.length ++ int32ToArray 0 ++ int32ToArray 0 ++ f.content) := by
  have hfits : f.drivePath.length ≤ (List.replicate 256 (0 : UInt8)).length := by
    rw [length_replicate]
    omega
  rw [writeDriveFile, stringToArray, if_pos hfits, drop_replicate, copyContext_eq]
  rfl

variable {bs : List UInt8}

theorem length_writeDriveFile (hpath : f.drivePath.length ≤ 255) (hbs : writeDriveFile f = some bs) :
    bs.length = f.size := by
  have hsize : ∀ n, (int32ToArray n).length = 4 := fun n => rfl
  rw [writeDriveFile_eq hpath, Option.some.injEq] at hbs
  rw [← hbs]
  simp only [length_append, length_replicate, hsize, HostFile.size, contentOffset]
  omega

theorem recordAt_of_image (hpath : f.drivePath.length ≤ 255) (hbs : writeDriveFile f = some bs)
    (hlen : f.content.length < 2 ^ 32) (h : ImageAt m a bs) : RecordAt m a f := by
  rw [writeDriveFile_eq hpath, Option.some.injEq] at hbs
  subst hbs
  have hsize : ∀ n, (int32ToArray n).length = 4 := fun n => rfl
  have hname : (f.drivePath ++ List.replicate (256 - f.drivePath.length) (0 : UInt8)).length = 256 := by
    rw [length_append, length_replicate]
    omega
  obtain ⟨h, hcontent⟩ := imageAt_append h
  obtain ⟨h, -⟩ := imageAt_append h
  obtain ⟨h, -⟩ := imageAt_append h
  obtain ⟨h, hlength⟩ := imageAt_append h
  rw [hname] at hlength
  have hoffset : (f.drivePath ++ List.replicate (256 - f.drivePath.length) (0 : UInt8) ++
      int32ToArray f.content.length ++ int32ToArray 0 ++ int32ToArray 0).length = contentOffset := by
    rw [length_append, length_append, length_append, hname, hsize, hsize]
    rfl
  rw [hoffset] at hcontent
  refine ⟨fun i hi => ?_, read_int32 hlength hlen, fun i hi => hcontent.getD hi⟩
  rw [h.getD (by omega), getD_append_replicate]

theorem writeDrive_cons {fs : List HostFile} (h : writeDrive (f :: fs) = some image) :
    ∃ record rest, writeDriveFile f = some record ∧ writeDrive fs = some rest ∧ image = record ++ rest := by
  obtain ⟨record, hrecord, h⟩ := Option.bind_eq_some_iff.1 h
  obtain ⟨rest, hrest, h⟩ := Option.bind_eq_some_iff.1 h
  exact ⟨record, rest, hrecord, hrest, (Option.some.inj h).symm⟩

variable {files : List HostFile}

theorem exists_writeDrive (hpath : ∀ f ∈ files, f.drivePath.length ≤ 255) : ∃ image, writeDrive files = some image := by
  induction files with
  | nil => exact ⟨[], rfl⟩
  | cons f fs ih =>
    obtain ⟨hf, hfs⟩ := forall_mem_cons.1 hpath
    obtain ⟨rest, hrest⟩ := ih hfs
    rw [writeDrive, writeDriveFile_eq hf, hrest]
    exact ⟨_, rfl⟩

theorem driveAt_of_image (hpath : ∀ f ∈ files, f.drivePath.length ≤ 255) (himage : writeDrive files = some image)
    (hsize : image.length < 2 ^ 32) (h : ImageAt m a image) : DriveAt m a files (a + image.length) := by
  induction files generalizing a image with
  | nil =>
    obtain rfl : [] = image := Option.some.inj himage
    rfl
  | cons f fs ih =>
    obtain ⟨hf, hfs⟩ := forall_mem_cons.1 hpath
    obtain ⟨record, rest, hrecord, hrest, rfl⟩ := writeDrive_cons himage
    obtain ⟨hfirst, hothers⟩ := imageAt_append h
    have hlength := length_writeDriveFile hf hrecord
    rw [length_append] at hsize ⊢
    rw [hlength] at hothers hsize
    refine ⟨recordAt_of_image hf hrecord (by unfold HostFile.size at hsize; omega) hfirst, ?_⟩
    rw [hlength, ← add_assoc]
    exact ih hfs hrest (by omega) hothers

theorem map_range_eq (h : ∀ i < bs.length, m (a + i) = bs.getD i 0) :
    ((List.range bs.length).map fun i => m (a + i)) = bs := by
  refine ext_getElem (by simp) fun i hi hi' => ?_
  rw [getElem_map, getElem_range, h i hi', getD_eq_getElem?_getD, getElem?_eq_getElem hi']
  rfl

theorem RecordAt.zeldaFileAt (h : RecordAt m a f) (hpath : f.drivePath.length ≤ 255) (hnul : 0 ∉ f.drivePath) :
    ZeldaOS.zeldaFileAt m a = ⟨⟨f.drivePath, hnul⟩, f.content.length, f.content⟩ := by
  obtain ⟨name, hname⟩ : ∃ bs, f.drivePath ++ 0 :: List.replicate (255 - f.drivePath.length) 0 = bs := ⟨_, rfl⟩
  have hlen : name.length = 256 := by
    rw [← hname, length_append, length_cons, length_replicate]
    omega
  have hbytes : ((List.range 256).map fun i => m (a + i)) = name := by
    rw [← hlen]
    refine map_range_eq fun i hi => ?_
    rw [h.name i (by omega), ← hname, ← replicate_succ, getD_append_replicate]
  rw [ZeldaOS.zeldaFileAt, ZeldaFile.mk.injEq, h.length, hbytes, map_range_eq h.content, ← hname]
  refine ⟨?_, rfl, rfl⟩
  rw [CString.mk.injEq]
  exact CString.ofBytes_append_nul hnul _

/-! ## The list of files -/

def cells (a : ℕ) : List HostFile → List ℕ
  | [] => []
  | f :: fs => (a + listOffset) :: cells (a + f.size) fs

def recordsEnd (a : ℕ) (files : List HostFile) : ℕ := a + (files.map HostFile.size).sum

theorem recordsEnd_cons (a : ℕ) (f : HostFile) (fs : List HostFile) :
    recordsEnd a (f :: fs) = recordsEnd (a + f.size) fs := by
  rw [recordsEnd, recordsEnd, map_cons, sum_cons, add_assoc]

theorem recordsEnd_append (a : ℕ) (xs ys : List HostFile) :
    recordsEnd a (xs ++ ys) = recordsEnd (recordsEnd a xs) ys := by
  rw [recordsEnd, recordsEnd, recordsEnd, map_append, sum_append, add_assoc]

theorem le_recordsEnd (a : ℕ) (files : List HostFile) : a ≤ recordsEnd a files := Nat.le_add_right _ _

theorem cells_append (a : ℕ) (xs ys : List HostFile) : cells a (xs ++ ys) = cells a xs ++ cells
    (recordsEnd a xs) ys := by
  induction xs generalizing a with
  | nil => rfl
  | cons f fs ih => rw [cons_append, cells, cells, ih, recordsEnd_cons, cons_append]

theorem length_cells (a : ℕ) (files : List HostFile) : (cells a files).length = files.length := by
  induction files generalizing a with
  | nil => rfl
  | cons f fs ih => rw [cells, length_cons, length_cons, ih]

theorem cells_bounds {c : ℕ} (hc : c ∈ cells a files) : a + listOffset ≤ c ∧ c + 8 ≤ recordsEnd a files := by
  induction files generalizing a with
  | nil => cases hc
  | cons f fs ih =>
    have hsize : listOffset + 8 ≤ f.size := Nat.le_add_right _ _
    have hend := le_recordsEnd (a + f.size) fs
    rw [recordsEnd_cons]
    rcases mem_cons.1 hc with rfl | hc
    · omega
    have := ih hc
    omega

theorem cellsApart_cells (a : ℕ) (files : List HostFile) : CellsApart (cells a files) := by
  induction files generalizing a with
  | nil => exact .nil
  | cons f fs ih =>
    refine pairwise_cons.2 ⟨fun c hc => .inl ?_, ih _⟩
    have hsize : listOffset + 8 ≤ f.size := Nat.le_add_right _ _
    have := (cells_bounds hc).1
    omega

variable {e : ℕ}

theorem driveAt_append {xs ys : List HostFile} :
    DriveAt m a (xs ++ ys) e ↔ DriveAt m a xs (recordsEnd a xs) ∧ DriveAt m (recordsEnd a xs) ys e := by
  induction xs generalizing a with
  | nil => exact ⟨fun h => ⟨rfl, h⟩, And.right⟩
  | cons f fs ih => rw [cons_append, DriveAt, DriveAt, ih, recordsEnd_cons, and_assoc]

theorem DriveAt.end_eq (h : DriveAt m a files e) : e = recordsEnd a files := by
  induction files generalizing a with
  | nil => exact h.symm
  | cons f fs ih => rw [ih h.2, recordsEnd_cons]

variable {m' : Mem}

theorem RecordAt.same (h : RecordAt m a f)
    (hsame : ∀ x, a ≤ x → x < a + f.size → x < a + listOffset ∨ a + contentOffset ≤ x → m' x = m x) :
    RecordAt m' a f := by
  have hsize : f.size = contentOffset + f.content.length := rfl
  have hoffsets : lengthOffset = 256 ∧ listOffset = 260 ∧ contentOffset = 268 := ⟨rfl, rfl, rfl⟩
  refine ⟨fun i hi => ?_, ?_, fun i hi => ?_⟩
  · rw [hsame _ (by omega) (by omega) (by omega), h.name i hi]
  · rw [Mem.read_congr fun x h1 h2 => hsame x (by omega) (by omega) (by omega), h.length]
  · rw [hsame _ (by omega) (by omega) (by omega), h.content i hi]

theorem DriveAt.same (h : DriveAt m a files e)
    (hsame : ∀ x, a ≤ x → x < e → (∀ c ∈ cells a files, x < c ∨ c + 8 ≤ x) → m' x = m x) : DriveAt m' a files e := by
  induction files generalizing a with
  | nil => exact h
  | cons f fs ih =>
    obtain ⟨hf, hfs⟩ := h
    have hend : a + f.size ≤ e := hfs.end_eq ▸ le_recordsEnd _ _
    have hoffsets : listOffset = 260 ∧ contentOffset = 268 := ⟨rfl, rfl⟩
    refine ⟨hf.same fun x h1 h2 h3 => hsame x h1 (by omega) fun c hc => ?_, ih hfs fun x h1 h2 hx => ?_⟩
    · rcases mem_cons.1 hc with rfl | hc
      · omega
      have := (cells_bounds hc).1
      omega
    · refine hsame x (by omega) h2 (forall_mem_cons.2 ⟨?_, hx⟩)
      have hsize : listOffset + 8 ≤ f.size := Nat.le_add_right _ _
      omega

/-- The records lie from `start` to `stop`, and the head outside. -/
structure Placed (head start stop : ℕ) (files : List HostFile) : Prop where
  stop_eq : stop = recordsEnd start files
  bound : stop < 2 ^ 32
  head : head + 8 ≤ start ∨ stop ≤ head

structure Linking (m : Mem) (head start stop : ℕ) (done todo : List HostFile) : Prop where
  drive : DriveAt m start (done ++ todo) stop
  list : ListAt m head (cells start done)

variable {head start stop : ℕ} {done todo : List HostFile}

theorem Placed.apart (h : Placed head start stop files) : CellsApart (head :: cells start files) := by
  refine pairwise_cons.2 ⟨fun c hc => ?_, cellsApart_cells _ _⟩
  have := cells_bounds hc
  have := h.stop_eq
  have := h.head
  omega

theorem Placed.apart_next (h : Placed head start stop (done ++ f :: todo)) :
    CellsApart ((recordsEnd start done + listOffset) :: head :: cells start done) := by
  have hsub : (head :: cells start done ++ [recordsEnd start done + listOffset]).Sublist
      (head :: cells start (done ++ f :: todo)) := by
    rw [cells_append, cells, cons_append]
    exact .cons_cons _ (.append_left (.cons_cons _ (nil_sublist _)) _)
  exact (h.apart.sublist hsub).perm (perm_append_singleton _ _) Or.symm

theorem enumerateRound_spec (hp : Placed head start stop (done ++ f :: todo))
    (h : Linking m head start stop done (f :: todo)) :
    ∃ m', enumerateRound head (m, recordsEnd start done) = .ok (m', recordsEnd start (done ++ [f])) ∧
      Linking m' head start stop (done ++ [f]) todo := by
  obtain ⟨a, ha⟩ : ∃ a, recordsEnd start done = a := ⟨_, rfl⟩
  obtain ⟨c, hc⟩ : ∃ c, a + listOffset = c := ⟨_, rfl⟩
  obtain ⟨m0, hm0⟩ : ∃ m0, (m.write (c + 4) 4 0).write c 4 0 = m0 := ⟨_, rfl⟩
  have hcells : cells start (done ++ f :: todo) = cells start done ++ c :: cells (a + f.size) todo := by
    rw [cells_append, cells, ha, hc]
  have hmem := hcells ▸ mem_append_right _ mem_cons_self
  have hbound : c + 8 ≤ stop := hp.stop_eq ▸ (cells_bounds hmem).2
  have hstop := hp.bound
  have hapart : CellsApart (c :: head :: cells start done) := by
    rw [← hc, ← ha]
    exact hp.apart_next
  -- `list_init` of the links
  have hsame0 : SameBytes m m0 [c] := fun x hx => by
    have := hx c mem_cons_self
    rw [← hm0, Mem.write_apply_of_lt (by omega), Mem.write_apply_of_lt (by omega)]
  have hprev : prevAt m0 c = 0 := by
    rw [← hm0]
    exact Mem.read_write_self (by decide)
  have hnext : nextAt m0 c = 0 := by
    rw [← hm0]
    exact (Mem.read_write_of_disjoint (by omega)).trans (Mem.read_write_self (by decide))
  have hlist0 : ListAt m0 head (cells start done) := h.list.same hsame0 fun x hx d hd => by
    rw [mem_singleton.1 hd]
    exact ((pairwise_cons.1 hapart).1 x hx).symm
  obtain ⟨m', happend, hlist, hsame⟩ := Mem.listAppend_spec hlist0 hapart (by rw [← hc]; exact Nat.succ_ne_zero _)
    (by omega) hprev hnext
  have hdrive : DriveAt m' start (done ++ f :: todo) stop := by
    refine h.drive.same fun x h1 h2 hx => hsame0.trans hsame (by simp) x fun d hd => ?_
    have hhead := hp.head
    rcases mem_cons.1 hd with rfl | hd
    · exact hx d hmem
    rcases mem_cons.1 hd with rfl | hd
    · omega
    · exact hx d (hcells ▸ mem_append_left _ hd)
  have hrecord : RecordAt m' a f := ha ▸ (driveAt_append.1 hdrive).2.1
  have hnextRecord : a + f.size ≤ stop := by
    rw [hp.stop_eq, recordsEnd_append, ha, recordsEnd_cons]
    exact le_recordsEnd _ _
  refine ⟨m', ?_, ?_, ?_⟩
  · rw [ha, enumerateRound, hc, hm0, happend, recordsEnd_append, ha]
    refine congrArg Except.ok (Prod.ext rfl ?_)
    rw [hrecord.length, recordsEnd_cons]
    exact Nat.mod_eq_of_lt (by unfold HostFile.size at hnextRecord; omega)
  · rw [append_assoc]
    exact hdrive
  · rw [cells_append, ha, cells, hc]
    exact hlist

def enumerateRounds (head : ℕ) (k : ℕ) (s : Mem × ℕ) : Except Fault (Mem × ℕ) :=
  match k with
  | 0 => .ok s
  | k + 1 => enumerateRounds head k s >>= enumerateRound head

theorem enumerateRounds_spec (hp : Placed head start stop files) (h : Linking m head start stop [] files) (k : ℕ)
    (hk : k ≤ files.length) : ∃ m', enumerateRounds head k (m, start) = .ok (m', recordsEnd start (files.take k)) ∧
      Linking m' head start stop (files.take k) (files.drop k) := by
  induction k with
  | zero => exact ⟨m, rfl, h⟩
  | succ k ih =>
    obtain ⟨m1, hrun, hlinking⟩ := ih (by omega)
    have hdrop := drop_eq_getElem_cons hk
    have htake := take_succ_eq_append_getElem hk
    rw [hdrop] at hlinking
    have hplaced : Placed head start stop (files.take k ++ files[k] :: files.drop (k + 1)) := by
      rw [← hdrop, take_append_drop]
      exact hp
    obtain ⟨m2, hround, hnext⟩ := enumerateRound_spec hplaced hlinking
    refine ⟨m2, ?_, ?_⟩
    · rw [htake]
      exact bind_of_ok hrun hround
    rw [htake]
    exact hnext

theorem enumerateLoop_spec (fuel : ℕ) (hp : Placed head start stop (done ++ todo))
    (h : Linking m head start stop done todo) (hfuel : todo.length < fuel) :
    ∃ m', enumerateLoop head stop fuel (m, recordsEnd start done) = .ok (m', stop) ∧
      Linking m' head start stop (done ++ todo) [] := by
  induction todo generalizing m done fuel with
  | nil =>
    obtain ⟨n, rfl⟩ := Nat.exists_eq_succ_of_ne_zero (Nat.pos_iff_ne_zero.1 hfuel)
    rw [append_nil] at hp
    rw [← hp.stop_eq, append_nil]
    exact ⟨m, if_neg (lt_irrefl _), h⟩
  | cons f todo ih =>
    obtain ⟨n, rfl⟩ := Nat.exists_eq_succ_of_ne_zero (Nat.pos_iff_ne_zero.1 (Nat.zero_lt_of_lt hfuel))
    obtain ⟨m1, hround, hlinking⟩ := enumerateRound_spec hp h
    rw [append_cons] at hp ⊢
    obtain ⟨m2, hloop, hend⟩ := ih n hp hlinking (Nat.lt_of_succ_lt_succ hfuel)
    refine ⟨m2, ?_, hend⟩
    have hmore : recordsEnd start done < stop := by
      have hsize : contentOffset ≤ f.size := Nat.le_add_right _ _
      have hpos : 0 < contentOffset := by decide
      have hlast := le_recordsEnd (recordsEnd start (done ++ [f])) todo
      rw [← recordsEnd_append, ← hp.stop_eq, recordsEnd_append, recordsEnd_cons] at hlast
      have hnil : recordsEnd (recordsEnd start done + f.size) [] = recordsEnd start done + f.size := rfl
      omega
    rw [enumerateLoop, if_pos hmore]
    exact bind_of_ok hround hloop

theorem DriveAt.entries (h : DriveAt m a files e) (hpath : ∀ f ∈ files, f.drivePath.length ≤ 255 ∧ 0 ∉ f.drivePath) :
    (containersOf m (cells a files)).map ZeldaFile.entry = files.map HostFile.entry := by
  induction files generalizing a with
  | nil => rfl
  | cons f fs ih =>
    obtain ⟨hf, hfs⟩ := forall_mem_cons.1 hpath
    have hrecord := h.1.zeldaFileAt hf.1 hf.2
    rw [containersOf, cells, map_cons, map_cons, map_cons, Nat.add_sub_cancel, hrecord]
    exact congrArg _ (ih h.2 hfs)

theorem length_le_sizes (files : List HostFile) : 268 * files.length ≤ (files.map HostFile.size).sum := by
  induction files with
  | nil => exact le_rfl
  | cons f fs ih =>
    have hsize : 268 ≤ f.size := Nat.le_add_right _ _
    rw [length_cons, map_cons, sum_cons]
    omega

/-- **The drive is read back as it was written.** -/
theorem drive_round_trip (files : List HostFile) (hpath : ∀ f ∈ files, f.drivePath.length ≤ 255 ∧ 0 ∉ f.drivePath) :
    ∃ image, writeDrive files = some image ∧
      ∀ (m : Mem) (head start stop : ℕ), stop = start + image.length → stop < 2 ^ 32 → ImageAt m start image →
        (head + 8 ≤ start ∨ stop ≤ head) → prevAt m head = 0 → nextAt m head = 0 →
        (∀ k ≤ files.length, ∃ m' iptr, enumerateRounds head k (m, start) = .ok (m', iptr) ∧
          (containersOf m' (cells start files)).map ZeldaFile.entry = files.map HostFile.entry) ∧
        ∃ m' zs, enumerateFilesInZeldaDrive head start stop m = .ok (m', stop) ∧ driveFiles m' head = .ok zs ∧
          zs.map ZeldaFile.entry = files.map HostFile.entry := by
  obtain ⟨image, himage⟩ := exists_writeDrive fun f hf => (hpath f hf).1
  refine ⟨image, himage, fun m head start stop hstop hbound hat hhead hprev hnext => ?_⟩
  have hdrive : DriveAt m start files stop := by
    rw [hstop]
    exact driveAt_of_image (fun f hf => (hpath f hf).1) himage (by omega) hat
  have hplaced : Placed head start stop files := ⟨hdrive.end_eq, hbound, hhead⟩
  have hlinking : Linking m head start stop [] files := ⟨hdrive, ⟨hnext, hprev, trivial, by simp [cells]⟩⟩
  constructor
  · intro k hk
    obtain ⟨m', hrun, hlinked⟩ := enumerateRounds_spec hplaced hlinking k hk
    have hfiles := hlinked.drive
    rw [take_append_drop] at hfiles
    exact ⟨m', _, hrun, hfiles.entries hpath⟩
  have hcount := length_le_sizes files
  have hend : stop = start + (files.map HostFile.size).sum := hplaced.stop_eq
  obtain ⟨m', hloop, hlinked⟩ := enumerateLoop_spec (stop - start + 1) hplaced hlinking (by omega)
  have hlist : ListAt m' head (cells start files) := hlinked.list
  have hforeach : listForeach m' (2 ^ 24) (nextAt m' head) = .ok (cells start files) := by
    rw [hlist.first]
    exact listForeach_spec hlist.seg hlist.pos (by rw [length_cells]; omega)
  have hfiles := hlinked.drive
  rw [append_nil] at hfiles
  refine ⟨m', containersOf m' (cells start files), hloop, ?_, hfiles.entries hpath⟩
  rw [driveFiles, hforeach]
  rfl

def imageMemory (start : ℕ) (image : List UInt8) : Mem := fun x => if x < start then 0 else image.getD (x - start) 0

/-- The files `./a` and `./b/c`. -/
def twoFiles : List HostFile := [⟨[46, 47, 97], [7, 8]⟩, ⟨[46, 47, 98, 47, 99], [9]⟩]

theorem drive_round_trip_two : ∃ image m' zs, writeDrive twoFiles = some image ∧
      enumerateFilesInZeldaDrive 0 16 (16 + image.length) (imageMemory 16 image) = .ok (m', 16 + image.length) ∧
      driveFiles m' 0 = .ok zs ∧ zs.map ZeldaFile.entry = [([47, 97], 2, [7, 8]), ([47, 98, 47, 99], 1, [9])] := by
  have hpath : ∀ f ∈ twoFiles, f.drivePath.length ≤ 255 ∧ 0 ∉ f.drivePath := by decide
  obtain ⟨image, himage, hread⟩ := drive_round_trip twoFiles hpath
  have hlength : image.length = 539 := by
    obtain ⟨first, rest, hfirst, hrest, rfl⟩ := writeDrive_cons himage
    obtain ⟨second, rest, hsecond, hnone, rfl⟩ := writeDrive_cons hrest
    obtain rfl : [] = rest := Option.some.inj hnone
    rw [append_nil, length_append, length_writeDriveFile (hpath _ mem_cons_self).1 hfirst,
      length_writeDriveFile (hpath _ (mem_cons_of_mem _ mem_cons_self)).1 hsecond]
    rfl
  have hat : ImageAt (imageMemory 16 image) 16 image := by
    intro i b hi
    rw [imageMemory, if_neg (by omega), Nat.add_sub_cancel_left, getD_eq_getElem?_getD, hi]
    rfl
  obtain ⟨-, m', zs, hrun, hfiles, hentries⟩ := hread (imageMemory 16 image) 0 16 (16 + image.length) rfl (by omega) hat
    (.inl (by decide)) rfl rfl
  exact ⟨image, m', zs, himage, hrun, hfiles, hentries⟩

end ZeldaOS
