import ZeldaOS.Tmpfs.Truncate

/-!
# The recorded size of a tmpfs file

When writes and truncations keep the size in the header equal to the sum over the blocks, for any failures of
`get_mem_block`.

* `books_balance_iff`: the recorded size is right exactly after safe calls.
-/

namespace ZeldaOS

open Machine List

/-! ## The conditions -/

/-- The recorded size is the sum over the blocks. -/
def Balanced (hdr : MemBlockHdr) : Prop := hdr.nrUsed = usedSum hdr.blocks

/-- A block holds no more than fits, and below `KERNELSPACE_TOP` there is room for `2 ^ 18` blocks. -/
structure FileFits (hdr : MemBlockHdr) : Prop where
  bounded : Bounded hdr.blocks
  count : hdr.blocks.length ≤ 2 ^ 18

/-- A balanced file is left, and when 0 is returned the size and all bytes are as before. -/
def WriteBalances (hdr : MemBlockHdr) (σ : Supply) (offset : ℕ) (buffer : ℤ → UInt8) (size : ℕ) : Prop :=
  ∃ hdr' σ' r, tmpfsWriteFile (some hdr) σ offset buffer size = .ok (some hdr', σ', r) ∧ Balanced hdr' ∧
    (r = 0 → tmpfsFileSize (some hdr') = tmpfsFileSize (some hdr) ∧
      ∀ off buf n, tmpfsReadFile (some hdr') off buf n = tmpfsReadFile (some hdr) off buf n)

def TruncateBalances (hdr : MemBlockHdr) (σ : Supply) (offset : ℕ) : Prop :=
  ∃ hdr' σ' r, tmpfsFileTruncate (some hdr) σ offset = .ok (some hdr', σ', r) ∧ Balanced hdr'

/-- At the end of the file, or inside it with nothing moved, or behind it by less than `2 ^ 31` with bytes to write,
blocks for the hole and the first of them, and an end below `2 ^ 32`. -/
def WriteSafe (hdr : MemBlockHdr) (σ : Supply) (offset size : ℕ) : Prop :=
  offset = hdr.nrUsed ∨ offset < hdr.nrUsed ∧ WriteSettles (hdr.blocks.map Block.nrUsed) offset size ∨
    hdr.nrUsed < offset ∧ offset - hdr.nrUsed < 2 ^ 31 ∧ 0 < size ∧
      (∀ i ≤ (offset - hdr.nrUsed) / 4084, σ i ≠ none) ∧
      (offset + size < 2 ^ 32 ∨ ∃ t, σ t = none ∧ hdr.nrUsed + 4084 * t < 2 ^ 32)

/-- The blocks before the new end are full, and no block is taken, or all that are needed. -/
def TruncateSafe (hdr : MemBlockHdr) (σ : Supply) (offset : ℕ) : Prop :=
  offset - 4084 * hdr.blocks.length < 2 ^ 31 ∧
    if offset ≤ 4084 * hdr.blocks.length then ∀ b ∈ hdr.blocks.take ((offset - 1) / 4084), b.nrUsed = 4084
    else σ 0 = none ∨
      (∀ b ∈ hdr.blocks, b.nrUsed = 4084) ∧ ∀ i ≤ (offset - 4084 * hdr.blocks.length - 1) / 4084, σ i ≠ none

variable {n k iptr : ℕ} {buffer : ℤ → UInt8} {blocks' rest written : List Block} {σ' : Supply}

section
variable {blocks : List Block} {σ : Supply} {offset size : ℕ}

theorem i32_negative (h : 2 ^ 31 ≤ n) : i32 n = (n : ℤ) - 4294967296 := if_neg (by omega)

/-! ## Writes -/

variable (σ size) in
theorem writeRandom_inside (hb : Bounded blocks) (buffer : ℤ → UInt8) (hoff : offset ≤ usedSum blocks)
    (hlt : offset < 2 ^ 31) : ∃ passed rest iptr written σ' k,
      memBlockRawWriteRandom blocks σ offset buffer size = .ok (passed ++ written, σ', ((k : ℕ) : ℤ)) ∧
      blocks = passed ++ rest ∧ offset = usedSum passed + iptr ∧ iptr ≤ (rest.head?.map Block.nrUsed).getD 0 ∧
      (WriteSettles (blocks.map Block.nrUsed) offset size ↔ Settles false (rest.map Block.nrUsed) iptr size) ∧
      Spreads σ σ' rest written iptr size k (window buffer 0 k) ∧ KeepsPacked rest written size := by
  obtain ⟨passed, rest, iptr, hskip, hsplit, hsum, hhead, hsettles⟩ := skipBlocks_inside hb offset size hoff hlt
  have hrest : Bounded rest := fun b hmem => hb b (hsplit ▸ mem_append_right _ hmem)
  obtain ⟨written, σ', k, hrun, hspread, hpacked⟩ := writeRandomLoop_spread buffer
    (rest.length + 3 * size + 5) σ size 0 hrest
    hhead (by split_ifs <;> omega)
  refine ⟨passed, rest, iptr, written, σ', k, ?_, hsplit, hsum, hhead, hsettles, hspread, hpacked⟩
  rw [zero_add] at hrun
  rw [memBlockRawWriteRandom, i32_of_lt hlt, hskip]
  simp only [extendBlocks_zero, bind, Except.bind, ne_eq, not_true_eq_false, if_false, isEmpty_nil, if_true,
    Int.toNat_natCast, hrun]

theorem skipBlocks_used (hb : Bounded blocks) (hoff : usedSum blocks < offset) (hlt : offset < 2 ^ 32) :
    skipBlocks (fun b => i32 b.nrUsed) (i32 offset) blocks = (blocks, [], 0, i32 (offset - usedSum blocks)) := by
  refine skipBlocks_past (fun b => i32 b.nrUsed) Block.nrUsed (fun b hmem => ?_) offset hoff hlt
  have hle := hb b hmem
  exact ⟨i32_of_lt (by omega), hle⟩

variable (σ size) in
theorem writeRandom_past (hb : Bounded blocks) (buffer : ℤ → UInt8) (hoff : usedSum blocks < offset)
    (hlt : offset < 2 ^ 32) (hleft : offset - usedSum blocks < 2 ^ 31) : (∃ pre b written σ' k,
        memBlockRawWriteRandom blocks σ offset buffer size = .ok (blocks ++ pre ++ written, σ', ((k : ℕ) : ℤ)) ∧
        (∀ c ∈ pre, c.nrUsed = 4084) ∧ 1 ≤ b.nrUsed ∧ b.nrUsed ≤ 4084 ∧
        4084 * pre.length + b.nrUsed = offset - usedSum blocks ∧ (∀ i ≤ pre.length, σ i ≠ none) ∧
        Spreads (fun i => σ (i + (pre.length + 1))) σ' [b] written b.nrUsed size k (window buffer 0 k)) ∨
      ∃ pre σ', memBlockRawWriteRandom blocks σ offset buffer size = .ok (blocks ++ pre, σ', 0) ∧
        4084 * pre.length < offset - usedSum blocks ∧ σ pre.length = none := by
  have hskip := skipBlocks_used hb hoff hlt
  rw [i32_of_lt hleft] at hskip
  have hpos : 0 < offset - usedSum blocks := by omega
  rcases extendBlocks_spec σ hpos (by omega) (show offset - usedSum blocks < offset + 1 by omega) with
    ⟨pre, b, hext, hpre, hb1, hb2, hsum, hok⟩ | ⟨pre, hext, -, hsum, hfail, -⟩
  · have hlast : Bounded [b] := forall_mem_singleton.2 hb2
    obtain ⟨written, σ', k, hrun, hspread, -⟩ := writeRandomLoop_spread buffer ([b].length + 3 * size + 5)
      (fun i => σ (i + (pre.length + 1))) size 0 hlast (show b.nrUsed ≤ b.nrUsed from le_rfl)
      (by rw [if_neg (cons_ne_nil b [])]; split_ifs <;> omega)
    refine .inl ⟨pre, b, written, σ', k, ?_, hpre, hb1, hb2, hsum, hok, hspread⟩
    have hne : (pre ++ [b]).isEmpty = false := by simp
    rw [zero_add] at hrun
    rw [memBlockRawWriteRandom, hskip]
    simp only [hext, bind, Except.bind, ne_eq, not_true_eq_false, if_false, hne, Bool.false_eq_true,
      dropLast_concat, getLast?_concat, Option.toList_some, Int.toNat_natCast, hrun, append_nil]
  · refine .inr ⟨pre, fun i => σ (i + (pre.length + 1)), ?_, hsum, hfail⟩
    have hne : ((offset - usedSum blocks - 4084 * pre.length : ℕ) : ℤ) ≠ 0 := by omega
    rw [memBlockRawWriteRandom, hskip]
    simp only [hext, bind, Except.bind, if_pos hne, append_nil]

variable (σ size) in
theorem writeRandom_negative (hb : Bounded blocks) (buffer : ℤ → UInt8) (hleft : 2 ^ 31 ≤ offset - usedSum blocks)
    (hlt : offset < 2 ^ 32) : memBlockRawWriteRandom blocks σ offset buffer size = .ok (blocks, σ, 0) := by
  have hneg := i32_negative hleft
  have hless : i32 (offset - usedSum blocks) < 0 := by omega
  rw [memBlockRawWriteRandom, skipBlocks_used hb (by omega) hlt]
  simp only [extendBlocks, if_pos hless.le, bind, Except.bind, if_pos hless.ne, append_nil]

variable {hdr : MemBlockHdr}

theorem writeBalances_iff (h : tmpfsWriteFile (some hdr) σ offset buffer size = .ok (some ⟨n, blocks'⟩, σ', (k : ℤ))) :
    WriteBalances hdr σ offset buffer size ↔ n = usedSum blocks' ∧ (k = 0 → n = hdr.nrUsed ∧
        ∀ off buf m, tmpfsReadFile (some ⟨n, blocks'⟩) off buf m = tmpfsReadFile (some hdr) off buf m) := by
  constructor
  · rintro ⟨hdr', σ'', r, hrun, hbalanced, hzero⟩
    obtain ⟨hhdr, -, hr⟩ : some ⟨n, blocks'⟩ = some hdr' ∧ σ' = σ'' ∧ (k : ℤ) = r := by
      simpa only [Prod.mk.injEq] using Except.ok.inj (h.symm.trans hrun)
    obtain rfl := Option.some.inj hhdr
    exact ⟨hbalanced, fun hk => hzero (by omega)⟩
  · rintro ⟨hbalanced, hzero⟩
    exact ⟨⟨n, blocks'⟩, σ', k, h, hbalanced, fun hk => hzero (by omega)⟩

theorem tmpfsWriteFile_mod
    (h : (if hdr.nrUsed = offset then memBlockRawWriteSequential hdr.blocks σ buffer size
      else memBlockRawWriteRandom hdr.blocks σ offset buffer size) = .ok (blocks', σ', (k : ℤ))) :
    tmpfsWriteFile (some hdr) σ offset buffer size =
      .ok (some ⟨max ((offset + k) % 2 ^ 32) hdr.nrUsed, blocks'⟩, σ', k) := by
  have hu : u32 ((offset : ℤ) + k) = (offset + k) % 2 ^ 32 := by
    unfold u32
    omega
  have hpos : (0 : ℤ) ≤ k := Nat.cast_nonneg k
  simp only [tmpfsWriteFile]
  split_ifs at h with he
  · simp only [if_pos he, h, bind, Except.bind, hu, if_pos hpos]
  · simp only [if_neg he, h, bind, Except.bind, hu, if_pos hpos]

theorem tmpfsWriteFile_eq (hk : offset + k < 2 ^ 32)
    (h : (if hdr.nrUsed = offset then memBlockRawWriteSequential hdr.blocks σ buffer size
      else memBlockRawWriteRandom hdr.blocks σ offset buffer size) = .ok (blocks', σ', (k : ℤ))) :
    tmpfsWriteFile (some hdr) σ offset buffer size = .ok (some ⟨max (offset + k) hdr.nrUsed, blocks'⟩, σ', k) := by
  rw [tmpfsWriteFile_mod h, Nat.mod_eq_of_lt hk]

variable (σ size) in
theorem writeSequential_any (hb : Bounded blocks) (buffer : ℤ → UInt8) :
    ∃ blocks' σ' k, memBlockRawWriteSequential blocks σ buffer size = .ok (blocks', σ', ((k : ℕ) : ℤ)) ∧
      Bounded blocks' ∧ k ≤ size ∧ fileBytes blocks' = fileBytes blocks ++ window buffer 0 k ∧
      (k = 0 → blocks' = blocks) ∧ ((∀ i, σ i ≠ none) → k = size ∧ ∀ i, σ' i ≠ none) ∧
      (Dense blocks → Dense blocks') := by
  obtain ⟨blocks', σ', k, hrun, hspec⟩ := writeSequentialLoop_any buffer σ 0 hb (Nat.lt_succ_self size)
  refine ⟨blocks', σ', k, ?_, hspec⟩
  rw [memBlockRawWriteSequential, ensure_of (by omega)]
  simp only [bind, Except.bind]
  by_cases h0 : (size : ℤ) = 0
  · obtain rfl : size = 0 := by omega
    obtain rfl : k = 0 := Nat.le_zero.1 hspec.2.1
    exact hrun
  · rw [if_neg h0, Int.toNat_natCast, hrun, zero_add]

theorem Spreads.sum (h : Spreads σ σ' rest written iptr size k (window buffer 0 k)) (hb : Bounded rest)
    (hi : iptr ≤ (rest.head?.map Block.nrUsed).getD 0) :
    (Settles false (rest.map Block.nrUsed) iptr k ↔ usedSum written = max (usedSum rest) (iptr + k)) ∧
      (Settles true (rest.map Block.nrUsed) iptr k ↔ usedSum written = iptr + k) := by
  have hlength := spread_length (w := window buffer 0 k) hb.bytes (hi.trans_eq (head_bytes rest).symm)
  have hflat : (rest.map Block.bytes).flatten.length = usedSum rest := by
    rw [← length_fileBytes, fileBytes, flatMap_def]
  rw [map_length_bytes, window_length, hflat] at hlength
  rw [← length_fileBytes, h.bytes]
  exact hlength

theorem Spreads.settles_iff {w : List UInt8} (grown : Bool) (h : Spreads σ σ' rest written iptr size k w)
    (hb : Bounded rest) (hi : iptr ≤ 4084) :
    Settles grown (rest.map Block.nrUsed) iptr size ↔ Settles grown (rest.map Block.nrUsed) iptr k := by
  rcases h.le.eq_or_lt with heq | hlt
  · rw [heq]
  obtain ⟨t, -, ht⟩ := h.short hlt
  have hsizes : ∀ u ∈ rest.map Block.nrUsed, u ≤ 4084 := fun u hu => by
    obtain ⟨b, hmem, rfl⟩ := mem_map.1 hu
    exact hb b hmem
  have hfill : 4084 * (rest.map Block.nrUsed).length ≤ iptr + k := by
    rw [length_map]
    omega
  exact iff_of_true (settles_of_le grown hsizes hi (hfill.trans (by omega))) (settles_of_le grown hsizes hi hfill)

section
variable (hfits : FileFits hdr) (hbalanced : Balanced hdr) (buffer : ℤ → UInt8)
include hfits hbalanced

theorem writeBalances_end (hsize : size < 2 ^ 31) (hoff : offset = hdr.nrUsed) :
    WriteBalances hdr σ offset buffer size := by
  have hsum := hfits.bounded.usedSum_le
  have hcount := hfits.count
  obtain ⟨blocks', σ', k, hrun, -, hk, hbytes, hsame, -⟩ := writeSequential_any σ size hfits.bounded buffer
  have hlength := congrArg List.length hbytes
  rw [length_append, length_fileBytes, length_fileBytes, window_length] at hlength
  unfold Balanced at hbalanced
  rw [writeBalances_iff (tmpfsWriteFile_eq (by omega) ((if_pos hoff.symm).trans hrun))]
  refine ⟨by omega, fun h0 => ⟨by omega, fun off buf m => ?_⟩⟩
  rw [hsame h0]
  rfl

theorem writeBalances_inside (hsize : size < 2 ^ 31) (hoff : offset < hdr.nrUsed) :
    WriteBalances hdr σ offset buffer size ↔ WriteSettles (hdr.blocks.map Block.nrUsed) offset size := by
  have hsum := hfits.bounded.usedSum_le
  have hcount := hfits.count
  unfold Balanced at hbalanced
  obtain ⟨passed, rest, iptr, written, σ', k, hrun, hsplit, hstart, hhead, hsettles, hspread, -⟩ :=
    writeRandom_inside σ size hfits.bounded buffer (show offset ≤ usedSum hdr.blocks by omega) (by omega)
  have hrest : Bounded rest := fun b hmem => hfits.bounded b (hsplit ▸ mem_append_right _ hmem)
  have htotal : usedSum hdr.blocks = usedSum passed + usedSum rest := by rw [hsplit, usedSum_append]
  obtain ⟨b, bs, rfl⟩ : ∃ b bs, rest = b :: bs := by
    cases rest with
    | nil =>
      have hnil : usedSum [] = 0 := rfl
      omega
    | cons b bs => exact ⟨b, bs, rfl⟩
  have hib : iptr ≤ b.nrUsed := hhead
  have hbb : b.nrUsed ≤ 4084 := hrest b mem_cons_self
  have hk := hspread.le
  have hcall := tmpfsWriteFile_eq (by omega) ((if_neg hoff.ne').trans hrun)
  rw [writeBalances_iff hcall, hsettles, hspread.settles_iff false hrest (by omega),
    (hspread.sum hrest hhead).1, usedSum_append]
  constructor
  · omega
  intro hsame
  refine ⟨by omega, fun h0 => ?_⟩
  -- nothing was written because nothing was asked for
  have hzero : size = 0 := by
    by_contra hne
    obtain ⟨t, -, ht⟩ := hspread.short (by omega)
    rw [length_cons] at ht
    have hbs : bs = [] := length_eq_zero_iff.1 (by omega)
    subst hbs
    have hone : usedSum [b] = b.nrUsed := Nat.add_zero _
    omega
  have hblocks : passed ++ written = hdr.blocks := by rw [hspread.same hzero, hsplit]
  refine ⟨by omega, fun off buf m => ?_⟩
  rw [hblocks]
  rfl

theorem writeBalances_past (hoff : hdr.nrUsed < offset) (hlt : offset < 2 ^ 32)
    (hleft : offset - hdr.nrUsed < 2 ^ 31) :
    WriteBalances hdr σ offset buffer size ↔ 0 < size ∧ (∀ i ≤ (offset - hdr.nrUsed) / 4084, σ i ≠ none) ∧
      (offset + size < 2 ^ 32 ∨ ∃ t, σ t = none ∧ hdr.nrUsed + 4084 * t < 2 ^ 32) := by
  have hused := hfits.bounded.usedSum_le
  have hcount := hfits.count
  unfold Balanced at hbalanced
  rw [hbalanced] at hoff hleft
  rcases writeRandom_past σ size hfits.bounded buffer hoff hlt hleft with
    ⟨pre, b, written, σ', k, hrun, hpre, hb1, hb2, hsum, hok, hspread⟩ | ⟨pre, σ', hrun, hsum, hfail⟩
  · have hb : Bounded [b] := forall_mem_singleton.2 hb2
    have hone : [b].length = 1 := rfl
    have hk := hspread.le
    have hwritten := (hspread.sum hb le_rfl).2.1 (settles_last true _ k)
    have hfull : usedSum pre = 4084 * pre.length := usedSum_of_full hpre
    -- a block that is missing behind the hole bounds the bytes written
    have hroom : ∀ i, pre.length < i → σ i = none → offset + k ≤ hdr.nrUsed + 4084 * i := fun i hi hnone => by
      have := hspread.room (i - (pre.length + 1)) (by rw [← hnone]; congr 1; omega)
      omega
    have hend : offset + k < 2 ^ 32 ↔ offset + size < 2 ^ 32 ∨ ∃ t, σ t = none ∧ hdr.nrUsed + 4084 * t < 2 ^ 32 := by
      refine ⟨fun hfit => ?_, fun hfit => ?_⟩
      · rcases hk.eq_or_lt with rfl | hshort
        · exact .inl hfit
        obtain ⟨t, hnone, ht⟩ := hspread.short hshort
        exact .inr ⟨t + (pre.length + 1), hnone, by omega⟩
      · rcases hfit with hfit | ⟨t, hnone, ht⟩
        · omega
        have := hroom t (not_le.1 fun hle => hok t hle hnone) hnone
        omega
    rw [writeBalances_iff (tmpfsWriteFile_mod ((if_neg (by omega)).trans hrun)), usedSum_append,
      usedSum_append, ← hend, hbalanced]
    clear hend
    constructor
    · rintro ⟨hbooks, hzero⟩
      have hfit : offset + k < 2 ^ 32 := by
        have hmod : (offset + k) % 2 ^ 32 < 2 ^ 32 := Nat.mod_lt _ (by norm_num)
        have hmax : max ((offset + k) % 2 ^ 32) (usedSum hdr.blocks) < 2 ^ 32 := max_lt hmod (by omega)
        omega
      rw [Nat.mod_eq_of_lt hfit] at hbooks hzero
      refine ⟨by omega, fun i hi hnone => ?_, hfit⟩
      rcases Nat.lt_or_ge pre.length i with hlt' | hge
      · -- the last block of the hole is full, and the first byte was put into a new one
        have := hroom i hlt' hnone
        omega
      · exact hok i hge hnone
    · rintro ⟨hpos, hall, hfit⟩
      rw [Nat.mod_eq_of_lt hfit]
      refine ⟨by omega, fun h0 => ?_⟩
      exfalso
      obtain ⟨t, hnone, ht⟩ := hspread.short (by omega)
      exact hall (t + (pre.length + 1)) (by omega) hnone
  · rw [writeBalances_iff (tmpfsWriteFile_eq (k := 0) (by omega) ((if_neg (by omega)).trans hrun))]
    refine iff_of_false (fun h => ?_) fun h => ?_
    · omega
    · exact h.2.1 pre.length (by omega) hfail

theorem writeBalances_negative (hleft : 2 ^ 31 ≤ offset - hdr.nrUsed) (hlt : offset < 2 ^ 32) :
    ¬ WriteBalances hdr σ offset buffer size := by
  unfold Balanced at hbalanced
  have hrun := writeRandom_negative σ size hfits.bounded buffer (hbalanced ▸ hleft) hlt
  rw [writeBalances_iff (tmpfsWriteFile_eq (k := 0) (by omega) ((if_neg (by omega)).trans hrun))]
  omega

theorem writeBalances_iff_safe (hsize : size < 2 ^ 31) (hoffset : offset < 2 ^ 32) :
    WriteBalances hdr σ offset buffer size ↔ WriteSafe hdr σ offset size := by
  rcases lt_trichotomy offset hdr.nrUsed with hlt | heq | hgt
  · rw [writeBalances_inside hfits hbalanced buffer hsize hlt]
    constructor
    · exact fun h => .inr (.inl ⟨hlt, h⟩)
    rintro (h | ⟨-, h⟩ | ⟨h, -⟩)
    · omega
    · exact h
    · omega
  · exact iff_of_true (writeBalances_end hfits hbalanced buffer hsize heq) (.inl heq)
  rcases Nat.lt_or_ge (offset - hdr.nrUsed) (2 ^ 31) with hlow | hhigh
  · rw [writeBalances_past hfits hbalanced buffer hgt hoffset hlow]
    constructor
    · exact fun h => .inr (.inr ⟨hgt, hlow, h⟩)
    rintro (h | ⟨h, -⟩ | ⟨-, -, h⟩)
    · omega
    · omega
    · exact h
  · refine iff_of_false (writeBalances_negative hfits hbalanced buffer hhigh hoffset) ?_
    rintro (h | ⟨h, -⟩ | ⟨-, h, -⟩)
    · omega
    · omega
    · omega

end

/-! ## Truncations -/

theorem truncateBalances_iff {r : ℤ} (h : tmpfsFileTruncate (some hdr) σ offset = .ok (some ⟨n, blocks'⟩, σ', r)) :
    TruncateBalances hdr σ offset ↔ n = usedSum blocks' := by
  constructor
  · rintro ⟨hdr', σ'', r', hrun, hbalanced⟩
    obtain ⟨hhdr, -⟩ : some ⟨n, blocks'⟩ = some hdr' ∧ (σ', r) = (σ'', r') := by
      simpa only [Prod.mk.injEq] using Except.ok.inj (h.symm.trans hrun)
    obtain rfl := Option.some.inj hhdr
    exact hbalanced
  · exact fun hbalanced => ⟨⟨n, blocks'⟩, σ', r, h, hbalanced⟩

variable (σ) in
theorem truncate_inside (hoff : offset ≤ 4084 * hdr.blocks.length) (hlt : offset < 2 ^ 31) :
    ∃ blocks', tmpfsFileTruncate (some hdr) σ offset = .ok (some ⟨offset, blocks'⟩, σ, 0) ∧
      usedSum blocks' = usedSum (hdr.blocks.take ((offset - 1) / 4084)) + (offset - 4084 * ((offset - 1) / 4084)) ∧
      (Dense hdr.blocks → offset ≤ usedSum hdr.blocks →
        Dense blocks' ∧ fileBytes blocks' = (fileBytes hdr.blocks).take offset) := by
  obtain ⟨blocks', released, hrun, hsum, -, hpacked⟩ := rawTruncate_inside σ hoff hlt
  refine ⟨blocks', ?_, hsum, fun hd hle => ?_⟩
  · simp only [tmpfsFileTruncate, hrun, bind, Except.bind, ne_eq, not_true_eq_false, if_false]
  obtain ⟨hused, hdense, hbytes⟩ := hpacked hd.1
  rw [min_eq_right hle] at hbytes
  rw [← hbytes, take_of_length_le (by rw [length_fileBytes, hused])]
  exact ⟨hdense, rfl⟩

theorem truncateBalances_inside (hfits : FileFits hdr) (hoff : offset ≤ 4084 * hdr.blocks.length)
    (hlt : offset < 2 ^ 31) :
    TruncateBalances hdr σ offset ↔ ∀ b ∈ hdr.blocks.take ((offset - 1) / 4084), b.nrUsed = 4084 := by
  obtain ⟨blocks', hrun, hsum, -⟩ := truncate_inside σ hoff hlt
  have hb : Bounded (hdr.blocks.take ((offset - 1) / 4084)) := fun b hmem => hfits.bounded b (mem_of_mem_take hmem)
  have hlen : (hdr.blocks.take ((offset - 1) / 4084)).length = (offset - 1) / 4084 := by
    rw [length_take]
    omega
  rw [truncateBalances_iff hrun, hsum, ← hb.usedSum_eq_iff, hlen]
  omega

theorem truncateBalances_past (hfits : FileFits hdr) (hbalanced : Balanced hdr)
    (hoff : 4084 * hdr.blocks.length < offset) (hlt : offset < 2 ^ 32)
    (hleft : offset - 4084 * hdr.blocks.length < 2 ^ 31) : TruncateBalances hdr σ offset ↔ σ 0 = none ∨
      (∀ b ∈ hdr.blocks, b.nrUsed = 4084) ∧ ∀ i ≤ (offset - 4084 * hdr.blocks.length - 1) / 4084, σ i ≠ none := by
  unfold Balanced at hbalanced
  rcases rawTruncate_past σ hoff hlt hleft with
    ⟨pre, b, hraw, hpre, hb1, hb2, hsum, hok⟩ | ⟨pre, hraw, hpre, hless, hfail, hok⟩
  · have hrun : tmpfsFileTruncate (some hdr) σ offset =
        .ok (some ⟨offset, hdr.blocks ++ pre ++ [b]⟩, fun i => σ (i + (pre.length + 1)), 0) := by
      simp only [tmpfsFileTruncate, hraw, bind, Except.bind, ne_eq, not_true_eq_false, if_false]
    have hnew : usedSum pre = 4084 * pre.length := usedSum_of_full hpre
    have hone : usedSum [b] = b.nrUsed := Nat.add_zero _
    rw [truncateBalances_iff hrun, usedSum_append, usedSum_append, hnew, hone, ← hfits.bounded.usedSum_eq_iff]
    constructor
    · exact fun heq => .inr ⟨by omega, fun i hi => hok i (by omega)⟩
    rintro (hnone | ⟨heq, -⟩)
    · exact absurd hnone (hok 0 (Nat.zero_le _))
    · omega
  have herr : -errOutOfMemory ≠ 0 := by decide
  have hrun : tmpfsFileTruncate (some hdr) σ offset =
      .ok (some ⟨hdr.nrUsed, hdr.blocks ++ pre⟩, fun i => σ (i + (pre.length + 1)), -errGeneric) := by
    simp only [tmpfsFileTruncate, hraw, bind, Except.bind, if_pos herr]
  have hnew : usedSum pre = 4084 * pre.length := usedSum_of_full hpre
  rw [truncateBalances_iff hrun, usedSum_append, hnew]
  constructor
  · intro heq
    obtain hzero : pre.length = 0 := by omega
    exact .inl (hzero ▸ hfail)
  rintro (hnone | ⟨-, hall⟩)
  · have hzero : pre.length = 0 := by
      by_contra hne
      exact hok 0 (Nat.pos_of_ne_zero hne) hnone
    omega
  · exact absurd hfail (hall pre.length (by omega))

theorem truncateBalances_negative (hfits : FileFits hdr) (hleft : 2 ^ 31 ≤ offset - 4084 * hdr.blocks.length)
    (hlt : offset < 2 ^ 32) : ¬ TruncateBalances hdr σ offset := by
  have hsum := hfits.bounded.usedSum_le
  have hneg := i32_negative hleft
  have hle : i32 (offset - 4084 * hdr.blocks.length) ≤ 0 := by omega
  have hskip := skipBlocks_beyond (show 4084 * hdr.blocks.length < offset by omega) hlt
  have hrun : tmpfsFileTruncate (some hdr) σ offset = .ok (some ⟨offset, hdr.blocks⟩, σ, 0) := by
    simp only [tmpfsFileTruncate, memBlockRawTruncate, hskip, extendBlocks, if_pos hle, bind, Except.bind,
      if_neg (not_lt.2 hle), isEmpty_nil, if_true, cutBlocks, append_nil, ne_eq, not_true_eq_false, if_false]
  rw [truncateBalances_iff hrun]
  omega

theorem truncateBalances_iff_safe (hfits : FileFits hdr) (hbalanced : Balanced hdr) (hoffset : offset < 2 ^ 32) :
    TruncateBalances hdr σ offset ↔ TruncateSafe hdr σ offset := by
  have hcount := hfits.count
  unfold TruncateSafe
  rcases Nat.lt_or_ge (offset - 4084 * hdr.blocks.length) (2 ^ 31) with hlow | hhigh
  · rw [and_iff_right hlow]
    split_ifs with hle
    · exact truncateBalances_inside hfits hle (by omega)
    · exact truncateBalances_past hfits hbalanced (by omega) hoffset hlow
  · exact iff_of_false (truncateBalances_negative hfits hhigh hoffset) fun h => absurd h.1 (by omega)

/-- **The recorded size stays the sum over the blocks exactly for safe calls.** -/
theorem books_balance_iff (hdr : MemBlockHdr) (σ : Supply) (offset : ℕ) (hfits : FileFits hdr)
    (hbalanced : Balanced hdr) (hoffset : offset < 2 ^ 32) :
    (∀ buffer size, size < 2 ^ 31 → (WriteBalances hdr σ offset buffer size ↔ WriteSafe hdr σ offset size)) ∧
      (TruncateBalances hdr σ offset ↔ TruncateSafe hdr σ offset) :=
  ⟨fun buffer _ hsize => writeBalances_iff_safe hfits hbalanced buffer hsize hoffset,
    truncateBalances_iff_safe hfits hbalanced hoffset⟩

def noBlocks : Supply := fun _ => none

theorem books_balance_ten : FileFits tenBytes ∧ Balanced tenBytes ∧
      (WriteBalances tenBytes noBlocks 10 (fun _ => 1) 5 ↔ WriteSafe tenBytes noBlocks 10 5) ∧
      (TruncateBalances tenBytes noBlocks 4 ↔ TruncateSafe tenBytes noBlocks 4) := by
  have hfits : FileFits tenBytes := ⟨forall_mem_singleton.2 (by decide), by decide⟩
  exact ⟨hfits, rfl, (books_balance_iff tenBytes _ 10 hfits rfl (by norm_num)).1 _ 5 (by norm_num),
    (books_balance_iff tenBytes _ 4 hfits rfl (by norm_num)).2⟩

/-- **A failed write behind the end leaves a size of 20 over the same ten bytes.** -/
theorem failed_write_grows :
    FileFits tenBytes ∧ Balanced tenBytes ∧ ¬ WriteBalances tenBytes noBlocks 20 (fun _ => 1) 5 := by
  have hfits : FileFits tenBytes := ⟨forall_mem_singleton.2 (by decide), by decide⟩
  refine ⟨hfits, rfl, ?_⟩
  rw [writeBalances_past hfits rfl (fun _ => 1) (by decide) (by norm_num) (by decide)]
  rintro ⟨-, hall, -⟩
  exact hall 0 (Nat.zero_le _) rfl

end

end ZeldaOS
