import ZeldaOS.Tmpfs.Dense
import ZeldaOS.Vfs.Descriptors
import ZeldaOS.Zeldafs.Drive

/-!
# Reading the files of the Zelda drive

`zeldafs_file_read` tests the sign of the length less the offset, in 32 bits.

* `zelda_reads_iff`: when a read delivers the rest of the file.
-/

namespace ZeldaOS

open Machine List

/-! ## The calls -/

/-- The bytes from `content` of the record at `a` on, also those behind its end. -/
def contentFrom (m : Mem) (a : ℕ) : ℤ → UInt8 := fun i => m (u32 (a + contentOffset + i))

def zeldafsFileRead (m : Mem) (a offset : ℕ) (buffer : ℤ → UInt8) (size : ℤ) : (ℤ → UInt8) × ℤ :=
  let lengthAvailable := u32 ((zeldaFileAt m a).length - offset)
  if i32 lengthAvailable ≤ 0 then (buffer, 0)
  else
    let n := min lengthAvailable (u32 size)
    (memcpy buffer 0 (contentFrom m a) offset n, i32 n)

/-- For the records that `priv` points to, which is never `NULL`, as the functions assert; the contents are those of the
buffer. -/
def zeldafsFileOperations (m : Mem) (priv : ℕ → { a : ℕ // a ≠ 0 }) : FileOps (ℤ → UInt8) where
  isatty := none
  size := some fun file buffer => (buffer, i32 (zeldaFileAt m (priv file)).length)
  stat := some (.total fun file buffer => (buffer, 0, .ofNat (zeldaFileAt m (priv file)).length))
  read := some (.total fun r buffer => zeldafsFileRead m (priv r.file) r.offset buffer r.size)
  write := some (.total fun _ buffer => (buffer, -errNotSupported))
  truncate := none
  ioctl := none

/-- The bytes of the file from the offset on are copied, at most `size`, and counted. -/
def ReadsRest (m : Mem) (a offset size : ℕ) : Prop :=
  ∀ buffer, zeldafsFileRead m a offset buffer size =
    (memcpy buffer 0 (contentFrom m a) offset (min size ((zeldaFileAt m a).length - offset) : ℕ),
      ((min size ((zeldaFileAt m a).length - offset) : ℕ) : ℤ))

/-- The entry is that of a file on the drive, with its record at `a`. -/
def OpensRecord {σ : Type} (F : FileSystems σ (ℤ → UInt8)) (names : σ) (entry : FileEntry) (m : Mem) (a : ℕ) : Prop :=
  ∃ file priv, entry.file = some file ∧ F.ops names file = some (zeldafsFileOperations m priv) ∧ (priv file : ℕ) = a

/-- The bytes that calls of `do_vfs_read` with these sizes deliver. -/
def readChunks {σ : Type} (F : FileSystems σ (ℤ → UInt8)) :
    VfsState σ (ℤ → UInt8) → FileEntry → List ℕ → Except FsFault (List (List UInt8))
  | _, _, [] => .ok []
  | s, entry, n :: ns => do
    let (s', entry', result) ← doVfsRead F s entry n
    let rest ← readChunks F s' entry' ns
    .ok (window s'.contents 0 result.toNat :: rest)

def chunksOf : List UInt8 → List ℕ → List (List UInt8)
  | _, [] => []
  | bytes, n :: ns => bytes.take n :: chunksOf (bytes.drop n) ns

def recordBytes (m : Mem) (a : ℕ) : List UInt8 := window (contentFrom m a) 0 (zeldaFileAt m a).length

section
variable {m : Mem} {a offset size : ℕ}

/-! ## Reads -/

theorem zeldaLength_lt (m : Mem) (a : ℕ) : (zeldaFileAt m a).length < 2 ^ 32 := m.read_lt _ 4

theorem memcpy_zero (dst src : ℤ → UInt8) (d i : ℤ) : memcpy dst d src i (0 : ℕ) = dst := by
  rw [memcpy_eq_putBytes, window_zero, putBytes_nil]

theorem readsRest_inside (hoff : offset ≤ (zeldaFileAt m a).length) (hlen : (zeldaFileAt m a).length - offset < 2 ^ 31)
    (hsize : size < 2 ^ 31) : ReadsRest m a offset size := by
  have havail : u32 (((zeldaFileAt m a).length : ℤ) - offset) = (zeldaFileAt m a).length - offset := by
    rw [← Nat.cast_sub hoff]
    exact u32_natCast (by omega)
  intro buffer
  rw [zeldafsFileRead, havail, i32_of_lt hlen, u32_natCast (by omega), min_comm]
  dsimp only
  split_ifs with h0
  · rw [show min size ((zeldaFileAt m a).length - offset) = 0 by omega, memcpy_zero, Nat.cast_zero]
  · rw [i32_of_lt (by omega)]

theorem readsRest_iff (hoff : offset < 2 ^ 32) (hsize : size < 2 ^ 31) : ReadsRest m a offset size ↔ size = 0 ∨
      if offset < (zeldaFileAt m a).length then (zeldaFileAt m a).length - offset < 2 ^ 31
      else offset - (zeldaFileAt m a).length ≤ 2 ^ 31 := by
  have hlen := zeldaLength_lt m a
  rcases Nat.eq_zero_or_pos size with rfl | hpos
  · refine iff_of_true (fun buffer => ?_) (.inl rfl)
    have hzero : min (u32 (((zeldaFileAt m a).length : ℤ) - offset)) (u32 ((0 : ℕ) : ℤ)) = 0 := Nat.min_zero _
    rw [zeldafsFileRead, hzero, Nat.zero_min, memcpy_zero]
    dsimp only
    rw [memcpy_zero]
    split_ifs <;> rfl
  rw [or_iff_right hpos.ne']
  split_ifs with hin
  · refine ⟨fun h => ?_, fun h => readsRest_inside hin.le h hsize⟩
    by_contra hbig
    have havail : i32 (u32 (((zeldaFileAt m a).length : ℤ) - offset)) ≤ 0 := by
      unfold i32 u32
      omega
    have h0 := congrArg Prod.snd (h fun _ => 0)
    rw [zeldafsFileRead, if_pos havail] at h0
    omega
  have hrest : min size ((zeldaFileAt m a).length - offset) = 0 := by omega
  constructor
  · intro h
    by_contra hfar
    have havail : u32 (((zeldaFileAt m a).length : ℤ) - offset) = 2 ^ 32 - (offset - (zeldaFileAt m a).length) := by
      unfold u32
      omega
    have h0 := congrArg Prod.snd (h fun _ => 0)
    rw [zeldafsFileRead, hrest, havail, u32_natCast (by omega), i32_of_lt (by omega), if_neg (by omega)] at h0
    dsimp only at h0
    rw [i32_of_lt (by omega)] at h0
    omega
  · intro h buffer
    have havail : i32 (u32 (((zeldaFileAt m a).length : ℤ) - offset)) ≤ 0 := by
      unfold i32 u32
      omega
    rw [zeldafsFileRead, if_pos havail, hrest, memcpy_zero, Nat.cast_zero]

section
variable {σ : Type} {F : FileSystems σ (ℤ → UInt8)} {s : VfsState σ (ℤ → UInt8)} {entry : FileEntry} {sizes : List ℕ}

theorem doVfsRead_record (h : OpensRecord F s.names entry m a) (n : ℕ) : doVfsRead F s entry n =
      .ok ({ s with contents := (zeldafsFileRead m a entry.offset s.contents n).1 },
        entry.advance (zeldafsFileRead m a entry.offset s.contents n).2,
        (zeldafsFileRead m a entry.offset s.contents n).2) := by
  obtain ⟨file, priv, hfile, hops, rfl⟩ := h
  simp only [doVfsRead, entryOps, hfile, hops, bind, Except.bind, zeldafsFileOperations, GuardedOp.total_call]

theorem readChunks_eq (h : OpensRecord F s.names entry m a) (hlen : (zeldaFileAt m a).length < 2 ^ 31)
    (hoff : entry.offset ≤ (zeldaFileAt m a).length) (hsizes : ∀ n ∈ sizes, n < 2 ^ 31) :
    readChunks F s entry sizes = .ok (chunksOf ((recordBytes m a).drop entry.offset) sizes) := by
  induction sizes generalizing s entry with
  | nil => rfl
  | cons n ns ih =>
    obtain ⟨hn, hns⟩ := forall_mem_cons.1 hsizes
    have hread := readsRest_inside hoff (by omega) hn s.contents
    obtain ⟨r, hr⟩ : ∃ r, r = min n ((zeldaFileAt m a).length - entry.offset) := ⟨_, rfl⟩
    rw [← hr] at hread
    have hoffset : (entry.advance r).offset = entry.offset + r := by
      rw [FileEntry.advance]
      split_ifs
      · exact u32_natCast (by omega)
      · omega
    have hfile : (entry.advance r).file = entry.file := by
      rw [FileEntry.advance]
      split_ifs <;> rfl
    have hopens : OpensRecord F s.names (entry.advance r) m a := by
      rw [OpensRecord, hfile]
      exact h
    have hpiece : window (memcpy s.contents 0 (contentFrom m a) entry.offset r) 0 r =
        ((recordBytes m a).drop entry.offset).take n := by
      have hput := window_putBytes s.contents 0 (window (contentFrom m a) entry.offset r)
      rw [window_length] at hput
      rw [memcpy_eq_putBytes, hput, recordBytes, window_drop, window_take, zero_add, ← hr]
    have hdrop : (recordBytes m a).drop (entry.offset + r) = ((recordBytes m a).drop entry.offset).drop n := by
      rw [drop_drop, drop_eq_drop_iff, recordBytes, window_length]
      omega
    rw [readChunks, doVfsRead_record h, hread, chunksOf, ← hpiece, ← hdrop, ← hoffset]
    simp only [bind, Except.bind, Int.toNat_natCast,
      ih (s := { s with contents := memcpy s.contents 0 (contentFrom m a) entry.offset r }) hopens (by omega) hns]

theorem readChunks_iff (h : OpensRecord F s.names entry m a) (hstart : entry.offset = 0)
    (hsizes : ∀ n ∈ sizes, 0 < n ∧ n < 2 ^ 31) : readChunks F s entry sizes = .ok (chunksOf (recordBytes m a) sizes) ↔
      sizes = [] ∨ (zeldaFileAt m a).length < 2 ^ 31 := by
  constructor
  · intro hrun
    by_contra hnot
    obtain ⟨hne, hlen⟩ := not_or.1 hnot
    obtain ⟨n, ns, rfl⟩ := exists_cons_of_ne_nil hne
    -- the length looks negative, and the first read returns 0
    have hfull := zeldaLength_lt m a
    have havail : i32 (u32 (((zeldaFileAt m a).length : ℤ) - entry.offset)) ≤ 0 := by
      unfold i32 u32
      omega
    have hread : zeldafsFileRead m a entry.offset s.contents n = (s.contents, 0) := by
      rw [zeldafsFileRead, if_pos havail]
    rw [readChunks, doVfsRead_record h, hread] at hrun
    obtain ⟨out, hout, hrun⟩ := bind_eq_ok hrun
    cases hout
    obtain ⟨rest, -, hret⟩ := bind_eq_ok hrun
    obtain ⟨hpiece, -⟩ := List.cons.inj (Except.ok.inj hret)
    have hlength := congrArg List.length hpiece
    rw [length_take, recordBytes, window_length, window_length] at hlength
    have hn := (hsizes n mem_cons_self).1
    omega
  · rintro (rfl | hlen)
    · rfl
    have hrun := readChunks_eq h hlen (by omega) fun n hn => (hsizes n hn).2
    rwa [hstart, drop_zero] at hrun

end

end

/-- **A read delivers the rest of the file exactly when it asks for nothing, or less than `2 ^ 31` bytes are left, or
the offset is at most `2 ^ 31` behind the end; read after read, exactly when the file is shorter than `2 ^ 31`.** -/
theorem zelda_reads_iff (m : Mem) (a : ℕ) : (∀ offset size, offset < 2 ^ 32 → size < 2 ^ 31 →
      (ReadsRest m a offset size ↔ size = 0 ∨
        if offset < (zeldaFileAt m a).length then (zeldaFileAt m a).length - offset < 2 ^ 31
        else offset - (zeldaFileAt m a).length ≤ 2 ^ 31)) ∧
      ∀ (σ : Type) (F : FileSystems σ (ℤ → UInt8)) (s : VfsState σ (ℤ → UInt8)) (entry : FileEntry) (sizes : List ℕ),
        OpensRecord F s.names entry m a → entry.offset = 0 → (∀ n ∈ sizes, 0 < n ∧ n < 2 ^ 31) →
        (readChunks F s entry sizes = .ok (chunksOf (recordBytes m a) sizes) ↔
          sizes = [] ∨ (zeldaFileAt m a).length < 2 ^ 31) :=
  ⟨fun _ _ => readsRest_iff, fun _ _ _ _ _ => readChunks_iff⟩

/-- A record at address 16. -/
def tenByteRecord : Mem := fun x =>
  if x = 16 + lengthOffset then 10 else if x = 16 + contentOffset + (2 ^ 31 + 11) then 7 else 0

def oneRecord : FileSystems Unit (ℤ → UInt8) where
  isFile _ _ := True
  type _ _ := .regular
  ops _ _ := some (zeldafsFileOperations tenByteRecord fun _ => ⟨16, by decide⟩)
  openFile _ _ := none
  createFile n c _ := ⟨n, c, none, []⟩
  open_isFile := nofun
  create_isFile _ _ _ _ _ := trivial
  create_fresh _ _ _ := by simp

theorem zelda_reads_iff_ten : (ReadsRest tenByteRecord 16 4 3 ↔ 3 = 0 ∨
        if 4 < (zeldaFileAt tenByteRecord 16).length then (zeldaFileAt tenByteRecord 16).length - 4 < 2 ^ 31
        else 4 - (zeldaFileAt tenByteRecord 16).length ≤ 2 ^ 31) ∧
      (readChunks oneRecord ⟨(), fun _ => 0, fun _ => 0, []⟩ ⟨some 1, 0, true, false⟩ [8, 8, 8] =
          .ok (chunksOf (recordBytes tenByteRecord 16) [8, 8, 8]) ↔
        [8, 8, 8] = [] ∨ (zeldaFileAt tenByteRecord 16).length < 2 ^ 31) :=
  ⟨(zelda_reads_iff tenByteRecord 16).1 4 3 (by norm_num) (by norm_num),
    (zelda_reads_iff tenByteRecord 16).2 Unit oneRecord _ _ [8, 8, 8]
      ⟨1, fun _ => ⟨16, by decide⟩, rfl, rfl, rfl⟩ rfl (by simp)⟩

/-- **At offset `2 ^ 31 + 11` a file of ten bytes is read far behind its end.** -/
theorem read_far_behind : (zeldaFileAt tenByteRecord 16).length = 10 ∧
      (zeldafsFileRead tenByteRecord 16 (2 ^ 31 + 11) (fun _ => 0) 1).2 = 1 ∧
      (zeldafsFileRead tenByteRecord 16 (2 ^ 31 + 11) (fun _ => 0) 1).1 0 = 7 ∧
      ¬ ReadsRest tenByteRecord 16 (2 ^ 31 + 11) 1 := by
  have hresult : (zeldafsFileRead tenByteRecord 16 (2 ^ 31 + 11) (fun _ => 0) 1).2 = 1 := by decide +kernel
  refine ⟨by decide +kernel, hresult, by decide +kernel, fun h => ?_⟩
  have h0 := congrArg Prod.snd (h fun _ => 0)
  exact absurd h0 (by decide)

end ZeldaOS
