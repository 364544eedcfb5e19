import ZeldaOS.Machine.Runs
import ZeldaOS.Tmpfs.File

/-!
# Requests on a tmpfs file

Reads at any offset, and reads and writes of any size, on the files that calls leave behind.

* `reads_inside_iff`: when a read stays inside the file.
* `requests_safe_iff`: when the assertions hold.
-/

namespace ZeldaOS

open Machine List

/-! ## Offsets -/

/-- Every byte that is copied is in use, and the number of those from the offset on is returned. -/
def ReadInside (blocks : List Block) (offset size : ℕ) : Prop :=
  ∃ copies, readCopies blocks offset size = .ok (copies, max 0 (min (size : ℤ) (usedSum blocks - offset))) ∧
    ∀ c ∈ copies, c.block ∈ blocks ∧ ∀ i, 0 ≤ i → i < c.count → 0 ≤ c.start + i ∧ c.start + i < c.block.nrUsed

/-- An offset that is no negative `int32_t`, or nothing to read, or an offset in the file so little above `2 ^ 31` that
the bytes left in the first block overflow to a negative number, and the bytes to read do not overflow. -/
def ReadSafe (blocks : List Block) (offset size : ℕ) : Prop :=
  offset < 2 ^ 31 ∨ size = 0 ∨ blocks = [] ∨
    offset ≤ usedSum blocks ∧ ∃ b ∈ blocks.head?, offset + size < 2 ^ 31 + b.nrUsed

variable {blocks : List Block} {offset : ℕ} {left : ℤ}

section
variable {size : ℕ}

theorem readInside_low (hb : Bounded blocks) (hsize : size < 2 ^ 31) (hoff : offset < 2 ^ 31) :
    ReadInside blocks offset size := by
  obtain ⟨copies, r, hrun, hinside, hput⟩ := readLoop_spec hb offset size 0
  have hlen : (((fileBytes blocks).drop offset).take size).length = min size (usedSum blocks - offset) := by
    rw [length_take, length_drop, length_fileBytes]
  rw [hlen] at hput
  obtain ⟨rfl, -⟩ := hput (by omega)
  refine ⟨copies, ?_, fun c hc => ⟨(hinside c hc).1, fun i h0 hi => ?_⟩⟩
  · rw [readCopies, i32_of_lt hoff, hrun]
    congr 2
    omega
  · have := (hinside c hc).2
    omega

theorem readInside_nothing (hnone : readCopies blocks offset size = .ok ([], 0))
    (hzero : min (size : ℤ) (usedSum blocks - offset) ≤ 0) : ReadInside blocks offset size :=
  ⟨[], by rw [hnone, max_eq_left hzero], fun c hc => absurd hc not_mem_nil⟩

variable {b : Block} {bs : List Block}

/-- The round of the first block: `block_bytes_ignored` is the negative offset, and `block_left` may overflow. -/
theorem readLoop_high (hb : b.nrUsed ≤ 4084) (hpos : 0 < size) (hsize : size < 2 ^ 31) (hoff : 2 ^ 31 ≤ offset)
    (hlt : offset < 2 ^ 32) {n : ℤ} (hn : n = if offset ≤ 2 ^ 31 + b.nrUsed then (b.nrUsed : ℤ) - offset
      else min (b.nrUsed + 4294967296 - offset) size) :
    readLoop (b :: bs) (i32 offset) size 0 =
      readLoop bs 0 (subI32 size n) n >>= fun r => .ok (⟨b, 0, i32 offset, n⟩ :: r.1, r.2) := by
  have hneg := i32_negative hoff
  have hign : (if i32 offset ≠ 0 then min (i32 b.nrUsed) (i32 offset) else 0) = i32 offset := by
    rw [if_pos (by omega), i32_of_lt (by omega)]
    omega
  have hnothing : subI32 (i32 offset) (i32 offset) = 0 := by
    rw [subI32, if_neg (by omega), if_neg (by omega), sub_self]
  have hblock : subI32 (i32 b.nrUsed) (i32 offset) =
      if offset ≤ 2 ^ 31 + b.nrUsed then (b.nrUsed : ℤ) - offset else b.nrUsed + 4294967296 - offset := by
    rw [i32_of_lt (by omega), hneg]
    unfold subI32
    split_ifs <;> omega
  have hcount : min (subI32 (i32 b.nrUsed) (i32 offset)) size = n := by
    rw [hblock, hn]
    split_ifs <;> omega
  have hresult : subI32 0 (-n) = n := by
    unfold subI32
    split_ifs at hn ⊢ <;> omega
  have hsome : ¬subI32 (i32 b.nrUsed) (i32 offset) = 0 := by
    rw [hblock]
    split_ifs <;> omega
  rw [readLoop, ensure_of (by omega)]
  simp only [bind, Except.bind]
  rw [if_neg (by omega), hign, hnothing, if_neg hsome, hcount, hresult, ensure_of (by split_ifs at hn <;> omega)]

/-- An offset farther above `2 ^ 31`: the first byte copied lies in front of the block. -/
theorem not_readInside_far (hb : b.nrUsed ≤ 4084) (hpos : 0 < size) (hsize : size < 2 ^ 31)
    (hfar : 2 ^ 31 + b.nrUsed < offset) (hlt : offset < 2 ^ 32) : ¬ ReadInside (b :: bs) offset size := by
  rintro ⟨copies, hrun, hinside⟩
  have hneg := i32_negative (show 2 ^ 31 ≤ offset by omega)
  rw [readCopies, readLoop_high hb hpos hsize (by omega) hlt (if_neg (by omega)).symm] at hrun
  obtain ⟨r, -, hret⟩ := bind_eq_ok hrun
  obtain ⟨rfl, -⟩ := Prod.mk.inj (Except.ok.inj hret)
  have := (hinside _ mem_cons_self).2 0 le_rfl (by dsimp only; omega)
  dsimp only at this
  omega

/-- An offset close above `2 ^ 31`: `block_left` overflows, and nothing of the first block is copied. -/
theorem readInside_near (hb : Bounded (b :: bs)) (hpos : 0 < size) (hsize : size < 2 ^ 31) (hoff : 2 ^ 31 ≤ offset)
    (hnear : offset ≤ 2 ^ 31 + b.nrUsed) : ReadInside (b :: bs) offset size ↔
      offset ≤ usedSum (b :: bs) ∧ offset + size < 2 ^ 31 + b.nrUsed := by
  obtain ⟨hbb, hbs⟩ := forall_mem_cons.1 hb
  rw [ReadInside, readCopies, readLoop_high hbb hpos hsize hoff (by omega) (if_pos hnear).symm, usedSum_cons]
  by_cases hfit : offset + size < 2 ^ 31 + b.nrUsed
  · -- the other blocks are read from their start
    obtain ⟨copies, r, hrun, hinside, hput⟩ := readLoop_spec hbs 0 (size + offset - b.nrUsed) (b.nrUsed - offset)
    have hlen : (((fileBytes bs).drop 0).take (size + offset - b.nrUsed)).length =
        min (size + offset - b.nrUsed) (usedSum bs) := by
      rw [drop_zero, length_take, length_fileBytes]
    rw [hlen] at hput
    obtain ⟨rfl, -⟩ := hput (by omega)
    have hleft : subI32 size (b.nrUsed - offset) = ((size + offset - b.nrUsed : ℕ) : ℤ) := by
      unfold subI32
      split_ifs <;> omega
    rw [hleft, ← Nat.cast_zero, hrun]
    simp only [bind, Except.bind, Except.ok.injEq, Prod.mk.injEq]
    refine ⟨?_, fun hle => ⟨_, ⟨rfl, by omega⟩, forall_mem_cons.2 ⟨⟨mem_cons_self, fun i h0 hi => ?_⟩, fun c hc =>
      ⟨mem_cons_of_mem _ (hinside c hc).1, fun i h0 hi => ?_⟩⟩⟩⟩
    · rintro ⟨copies', ⟨-, hresult⟩, -⟩
      omega
    · dsimp only at hi
      omega
    · have := (hinside c hc).2
      omega
  · refine iff_of_false ?_ fun h => hfit h.2
    have hleft : subI32 size (b.nrUsed - offset) < 0 := by
      unfold subI32
      split_ifs <;> omega
    rintro ⟨copies, hrun, -⟩
    obtain ⟨⟨copies', r⟩, hrest, hret⟩ := bind_eq_ok hrun
    obtain ⟨-, rfl⟩ := Prod.mk.inj (Except.ok.inj hret)
    cases bs with
    | nil =>
      obtain ⟨-, hresult⟩ := Prod.mk.inj (Except.ok.inj hrest)
      omega
    | cons c cs =>
      rw [readLoop, ensure, if_neg (by omega)] at hrest
      cases hrest

/-- **A read stays inside the file exactly when its offset is below `2 ^ 31`, or nothing is asked for or there, or the
overflow of the first block makes up for the sign of the offset.** -/
theorem reads_inside_iff (blocks : List Block) (offset size : ℕ) (hb : Bounded blocks) (hoff : offset < 2 ^ 32)
    (hsize : size < 2 ^ 31) : ReadInside blocks offset size ↔ ReadSafe blocks offset size := by
  rcases Nat.lt_or_ge offset (2 ^ 31) with hlow | hhigh
  · exact iff_of_true (readInside_low hb hsize hlow) (.inl hlow)
  cases blocks with
  | nil =>
    refine iff_of_true (readInside_nothing rfl ?_) (.inr (.inr (.inl rfl)))
    rw [show usedSum [] = 0 from rfl]
    omega
  | cons b bs =>
    rcases Nat.eq_zero_or_pos size with rfl | hpos
    · exact iff_of_true (readInside_nothing rfl (min_le_left _ _)) (.inr (.inl rfl))
    have hsafe : ReadSafe (b :: bs) offset size ↔
        offset ≤ usedSum (b :: bs) ∧ offset + size < 2 ^ 31 + b.nrUsed := by
      rw [ReadSafe, or_iff_right (by omega), or_iff_right hpos.ne', or_iff_right (cons_ne_nil b bs)]
      simp
    rw [hsafe]
    rcases Nat.lt_or_ge (2 ^ 31 + b.nrUsed) offset with hfar | hnear
    · exact iff_of_false (not_readInside_far (hb b mem_cons_self) hpos hsize hfar hoff) fun h => by omega
    · exact readInside_near hb hpos hsize hhigh hnear

def markedBlock : Block := ⟨10, fun i => if i < 0 then 7 else 0⟩

theorem reads_inside_iff_ten :
    Bounded [markedBlock] ∧ (ReadInside [markedBlock] 4 8 ↔ ReadSafe [markedBlock] 4 8) ∧
      (ReadInside [markedBlock] 2147483648 1 ↔ ReadSafe [markedBlock] 2147483648 1) := by
  have hb : Bounded [markedBlock] := forall_mem_singleton.2 (by decide)
  exact ⟨hb, reads_inside_iff [markedBlock] 4 8 hb (by norm_num) (by norm_num),
    reads_inside_iff [markedBlock] 2147483648 1 hb (by norm_num) (by norm_num)⟩

/-- **A read of one byte at offset `2 ^ 32 - 1` returns the byte in front of the block**, and one at `2 ^ 31` copies
nothing and returns a negative number. -/
theorem read_before_block :
    (memBlockRawRead [markedBlock] 4294967295 (fun _ => 0) 1).toOption.map (fun r => (r.1 0, r.2)) = some (7, 1) ∧
      (memBlockRawRead [markedBlock] 2147483648 (fun _ => 0) 1).toOption.map (fun r => (r.1 0, r.2)) =
        some (0, -2147483638) ∧
      Bounded [markedBlock] ∧ ¬ ReadInside [markedBlock] 4294967295 1 := by
  refine ⟨by decide, by decide, forall_mem_singleton.2 (by decide), ?_⟩
  exact not_readInside_far (by decide) (by decide) (by norm_num) (by decide) (by norm_num)

end

/-! ## Runs of requests -/

inductive FileRequest where
  | read (offset : ℕ) (buffer : ℤ → UInt8) (size : ℤ)
  | write (offset : ℕ) (buffer : ℤ → UInt8) (size : ℤ)
  | truncate (offset : ℕ)

def requestStep (s : FileState) : FileRequest → Except Fault FileState
  | .read offset buffer size => do
    let _ ← tmpfsReadFile s.priv offset buffer size
    .ok s
  | .write offset buffer size => do
    let (priv, supply, _) ← tmpfsWriteFile s.priv s.supply offset buffer size
    .ok ⟨priv, supply⟩
  | .truncate offset => do
    let (priv, supply, _) ← tmpfsFileTruncate s.priv s.supply offset
    .ok ⟨priv, supply⟩

def FileState.Bounded (s : FileState) : Prop := ∀ hdr, s.priv = some hdr → ZeldaOS.Bounded hdr.blocks

variable {fuel : ℕ} {iptr result size : ℤ} {σ' : Supply} {blocks' : List Block}

section
variable {σ : Supply}

theorem u32_minU_le_left (a b : ℤ) : u32 (minU a b) ≤ u32 a := by
  rw [minU]
  split_ifs <;> omega

theorem u32_minU_le_right (a b : ℤ) : u32 (minU a b) ≤ u32 b := by
  rw [minU]
  split_ifs <;> omega

theorem skipBlocks_split (skip : Block → ℤ) (hskip : ∀ b ∈ blocks, u32 (skip b) ≤ 4084) (offsetLeft : ℤ) :
    (skipBlocks skip offsetLeft blocks).1 ++ (skipBlocks skip offsetLeft blocks).2.1 = blocks ∧
      u32 (skipBlocks skip offsetLeft blocks).2.2.1 ≤ 4084 := by
  induction blocks generalizing offsetLeft with
  | nil => exact ⟨rfl, Nat.zero_le _⟩
  | cons b bs ih =>
    obtain ⟨hb, hbs⟩ := forall_mem_cons.1 hskip
    have hign : u32 (if offsetLeft ≠ 0 then minU offsetLeft (skip b) else 0) ≤ 4084 := by
      split_ifs
      · exact (u32_minU_le_right _ _).trans hb
      · exact Nat.zero_le _
    rw [skipBlocks]
    generalize (if offsetLeft ≠ 0 then minU offsetLeft (skip b) else 0) = ignored at hign ⊢
    split_ifs
    · exact ⟨rfl, hign⟩
    obtain ⟨hsplit, hiptr⟩ := ih hbs (subI32 offsetLeft ignored)
    exact ⟨congrArg (b :: ·) hsplit, hiptr⟩

theorem extendBlocks_bounded {left' : ℤ} {new : List Block} (h : extendBlocks fuel σ left = .ok
    (new, σ', iptr, left')) :
    Bounded new ∧ u32 iptr ≤ 4084 := by
  induction fuel generalizing σ left new with
  | zero => cases h
  | succ fuel ih =>
    have hnone : Bounded [] ∧ u32 0 ≤ 4084 := ⟨fun b hb => absurd hb not_mem_nil, Nat.zero_le _⟩
    have hmin := u32_minU_le_left blockAvailSize left
    rw [extendBlocks] at h
    split_ifs at h with h0
    · cases h
      exact hnone
    cases hσ : σ 0 with
    | none =>
      rw [hσ] at h
      cases h
      exact hnone
    | some content =>
      rw [hσ] at h
      dsimp only at h
      split_ifs at h
      · cases h
        exact ⟨forall_mem_singleton.2 hmin, hmin⟩
      obtain ⟨⟨blocks', σ'', iptr', left''⟩, hext, hret⟩ := bind_eq_ok h
      cases hret
      obtain ⟨hb, hi⟩ := ih hext
      exact ⟨forall_mem_cons.2 ⟨hmin, hb⟩, hi⟩

theorem writeRandomLoop_bounded {buffer : ℤ → UInt8} {result' : ℤ}
    (h : writeRandomLoop buffer fuel blocks σ iptr left result = .ok (blocks', σ', result')) (hb : Bounded blocks)
    (hi : u32 iptr ≤ 4084) : Bounded blocks' := by
  induction fuel generalizing blocks σ iptr left result blocks' with
  | zero => cases h
  | succ fuel ih =>
    cases blocks with
    | nil =>
      rw [writeRandomLoop] at h
      cases hσ : σ 0 with
      | none =>
        simp only [appendMemBlock, hσ, Option.map_none] at h
        split_ifs at h
        all_goals
          cases h
          exact hb
      | some content =>
        simp only [appendMemBlock, hσ, Option.map_some] at h
        split_ifs at h
        · cases h
          exact hb
        · exact ih h (forall_mem_singleton.2 (Nat.zero_le _)) (Nat.zero_le _)
    | cons b bs =>
      obtain ⟨hbb, hbs⟩ := forall_mem_cons.1 hb
      rw [writeRandomLoop] at h
      split_ifs at h with h0
      · cases h
        exact hb
      have hroom : u32 (iptr + min (roomFrom iptr) left) ≤ 4084 := by
        unfold roomFrom blockAvailSize i32 u32 at *
        split_ifs <;> omega
      have hused : (if b.nrUsed < u32 (iptr + min (roomFrom iptr) left) then u32 (iptr + min (roomFrom iptr) left)
          else b.nrUsed) ≤ 4084 := by
        split_ifs
        · exact hroom
        · exact hbb
      dsimp only at h
      generalize (if b.nrUsed < u32 (iptr + min (roomFrom iptr) left) then u32 (iptr + min (roomFrom iptr) left)
          else b.nrUsed) = nrUsed at hused h
      split_ifs at h
      · cases h
        exact forall_mem_cons.2 ⟨hused, hbs⟩
      obtain ⟨⟨bs', σ'', r⟩, hloop, hret⟩ := bind_eq_ok h
      cases hret
      exact forall_mem_cons.2 ⟨hused, ih hloop hbs (Nat.zero_le _)⟩

theorem writeRandom_bounded {buffer : ℤ → UInt8}
    (h : memBlockRawWriteRandom blocks σ offset buffer size = .ok (blocks', σ', result)) (hb : Bounded blocks) :
    Bounded blocks' := by
  have hused : ∀ b ∈ blocks, u32 (i32 b.nrUsed) ≤ 4084 := fun b hmem => by
    have hle := hb b hmem
    rw [i32_of_lt (by omega), u32_natCast (by omega)]
    exact hle
  have hskip := skipBlocks_split (fun b => i32 b.nrUsed) hused (i32 offset)
  rw [memBlockRawWriteRandom] at h
  generalize skipBlocks (fun b => i32 b.nrUsed) (i32 offset) blocks = skipped at h hskip
  obtain ⟨rfl, hiptr⟩ := hskip
  obtain ⟨⟨new, σ1, iptr1, left1⟩, hext, h⟩ := bind_eq_ok h
  obtain ⟨hnew, hiptr1⟩ := extendBlocks_bounded hext
  dsimp only at h hiptr
  split_ifs at h with hleft hempty
  · cases h
    exact forall_mem_append.2 ⟨hb, hnew⟩
  · obtain ⟨⟨written, σ2, result'⟩, hloop, hret⟩ := bind_eq_ok h
    cases hret
    obtain ⟨hpassed, hrest⟩ := forall_mem_append.1 hb
    exact forall_mem_append.2 ⟨hpassed, writeRandomLoop_bounded hloop hrest hiptr⟩
  obtain ⟨⟨written, σ2, result'⟩, hloop, hret⟩ := bind_eq_ok h
  cases hret
  refine forall_mem_append.2 ⟨forall_mem_append.2 ⟨hb, fun b hmem => hnew b (mem_of_mem_dropLast hmem)⟩,
    writeRandomLoop_bounded hloop (fun b hmem => ?_) hiptr1⟩
  exact hnew b (mem_of_getLast? (Option.mem_toList.1 hmem))

theorem writeSequential_bounded {buffer : ℤ → UInt8}
    (h : memBlockRawWriteSequential blocks σ buffer size = .ok (blocks', σ', result)) (hb : Bounded blocks) :
    Bounded blocks' := by
  rcases lt_or_ge size 0 with hneg | hpos
  · rw [memBlockRawWriteSequential, ensure, if_neg (by omega)] at h
    cases h
  obtain ⟨n, rfl⟩ := Int.eq_ofNat_of_zero_le hpos
  obtain ⟨blocks'', σ'', k, hrun, hb', -⟩ := writeSequential_any σ n hb buffer
  cases hrun.symm.trans h
  exact hb'

theorem rawTruncate_bounded {released : List Block}
    (h : memBlockRawTruncate blocks σ offset = .ok (blocks', released, σ', result)) (hb : Bounded blocks) :
    Bounded blocks' := by
  have hcut : ∀ (rest : List Block) (iptr : ℤ), u32 iptr ≤ 4084 → Bounded (cutBlocks rest iptr).1 := by
    intro rest iptr hi
    cases rest with
    | nil => exact fun b hb => absurd hb not_mem_nil
    | cons b bs =>
      rw [cutBlocks]
      split_ifs
      · exact forall_mem_singleton.2 hi
      · exact fun b hb => absurd hb not_mem_nil
  have hskip := skipBlocks_split (fun _ => blockAvailSize) (fun b (_ : b ∈ blocks) => le_rfl) (i32 offset)
  rw [memBlockRawTruncate] at h
  generalize skipBlocks (fun _ => blockAvailSize) (i32 offset) blocks = skipped at h hskip
  obtain ⟨passed, rest, iptr, left⟩ := skipped
  obtain ⟨rfl, hiptr⟩ := hskip
  obtain ⟨⟨new, σ1, iptr1, left1⟩, hext, h⟩ := bind_eq_ok h
  obtain ⟨hnew, hiptr1⟩ := extendBlocks_bounded hext
  dsimp only at h hiptr
  split_ifs at h with hleft hempty
  · cases h
    exact forall_mem_append.2 ⟨hb, hnew⟩
  · cases h
    exact forall_mem_append.2 ⟨(forall_mem_append.1 hb).1, hcut rest iptr hiptr⟩
  cases h
  exact forall_mem_append.2 ⟨forall_mem_append.2 ⟨hb, fun b hmem => hnew b (mem_of_mem_dropLast hmem)⟩,
    hcut _ iptr1 hiptr1⟩

theorem tmpfsWriteFile_bind (hdr : MemBlockHdr) (σ : Supply) (offset : ℕ) (buffer : ℤ → UInt8) (size : ℤ) :
    tmpfsWriteFile (some hdr) σ offset buffer size =
      (if hdr.nrUsed = offset then memBlockRawWriteSequential hdr.blocks σ buffer size
        else memBlockRawWriteRandom hdr.blocks σ offset buffer size) >>= fun r =>
        .ok (some ⟨if 0 ≤ r.2.2 then max (u32 (offset + r.2.2)) hdr.nrUsed else hdr.nrUsed, r.1⟩, r.2.1, r.2.2) := by
  rw [tmpfsWriteFile]
  split_ifs <;> rfl

theorem requestStep_bounded (s : FileState) (r : FileRequest) (s' : FileState) (hb : s.Bounded)
    (h : requestStep s r = .ok s') : s'.Bounded := by
  obtain ⟨priv, supply⟩ := s
  cases r with
  | read offset buffer size =>
    obtain ⟨-, -, hret⟩ := bind_eq_ok h
    cases hret
    exact hb
  | write offset buffer size =>
    obtain ⟨⟨priv', σ', result⟩, hcall, hret⟩ := bind_eq_ok h
    cases hret
    cases priv with
    | none =>
      cases hcall
      exact hb
    | some hdr =>
      obtain ⟨⟨blocks', σ1, k⟩, hwrite, hret⟩ := bind_eq_ok
        ((tmpfsWriteFile_bind hdr supply offset buffer size).symm.trans hcall)
      cases hret
      rintro - ⟨⟩
      split_ifs at hwrite
      · exact writeSequential_bounded hwrite (hb hdr rfl)
      · exact writeRandom_bounded hwrite (hb hdr rfl)
  | truncate offset =>
    obtain ⟨⟨priv', σ', result⟩, hcall, hret⟩ := bind_eq_ok h
    cases hret
    cases priv with
    | none =>
      cases hcall
      exact hb
    | some hdr =>
      obtain ⟨⟨blocks', released, σ1, k⟩, hraw, hret⟩ := bind_eq_ok hcall
      dsimp only at hret
      split_ifs at hret
      all_goals
        cases hret
        rintro - ⟨⟩
        exact rawTruncate_bounded hraw (hb hdr rfl)

/-! ## Sizes -/

/-- It passes the assertions, and a size that is not positive transfers nothing. -/
def ReadPasses (s : FileState) (offset : ℕ) (buffer : ℤ → UInt8) (size : ℤ) : Prop :=
  ∃ buffer' r, tmpfsReadFile s.priv offset buffer size = .ok (buffer', r) ∧ (size ≤ 0 → r ≤ 0 ∧ buffer' = buffer)

/-- It passes the assertions, and a size that is not positive transfers nothing, whatever the buffer holds. -/
def WritePasses (s : FileState) (offset : ℕ) (buffer : ℤ → UInt8) (size : ℤ) : Prop :=
  ∃ priv' σ' r, tmpfsWriteFile s.priv s.supply offset buffer size = .ok (priv', σ', r) ∧
    (size ≤ 0 → r ≤ 0 ∧ ∀ other, tmpfsWriteFile s.priv s.supply offset other size = .ok (priv', σ', r))

theorem writeRandom_nonpos (hsize : size ≤ 0) (buffer other : ℤ → UInt8) :
    memBlockRawWriteRandom blocks σ offset buffer size = memBlockRawWriteRandom blocks σ offset other 0 := by
  have hloop : ∀ (buf : ℤ → UInt8) (rest : List Block) (σ1 : Supply) (iptr n : ℤ), n ≤ 0 →
      writeRandomLoop buf (rest.length + 3 * n.toNat + 5) rest σ1 iptr n 0 = .ok (rest, σ1, 0) := by
    intro buf rest σ1 iptr n hn
    cases rest <;> rw [writeRandomLoop, if_pos hn]
  simp only [memBlockRawWriteRandom, hloop _ _ _ _ _ hsize, hloop _ _ _ _ _ le_rfl]

theorem writeRandom_ok (hb : Bounded blocks) (buffer : ℤ → UInt8) (hoff : offset < 2 ^ 31) (size : ℕ) :
    ∃ blocks' σ' k, memBlockRawWriteRandom blocks σ offset buffer size = .ok (blocks', σ', ((k : ℕ) : ℤ)) ∧
      k ≤ size := by
  rcases Nat.lt_or_ge (usedSum blocks) offset with hpast | hinside
  · rcases writeRandom_past σ size hb buffer hpast (by omega) (by omega) with
      ⟨pre, b, written, σ', k, hrun, -, -, -, -, -, hspread⟩ | ⟨pre, σ', hrun, -⟩
    · exact ⟨_, σ', k, hrun, hspread.le⟩
    · exact ⟨_, σ', 0, hrun, Nat.zero_le _⟩
  · obtain ⟨passed, rest, iptr, written, σ', k, hrun, -, -, -, -, hspread,
    -⟩ := writeRandom_inside σ size hb buffer hinside hoff
    exact ⟨_, σ', k, hrun, hspread.le⟩

variable {s : FileState} (buffer : ℤ → UInt8)

/-- The assertion at the top of the loop fails for a negative size, unless there is no round. -/
theorem tmpfsReadFile_negative {hdr : MemBlockHdr} (hblocks : hdr.blocks ≠ []) (hneg : size < 0) :
    tmpfsReadFile (some hdr) offset buffer size = .error .assertion := by
  obtain ⟨b, bs, hcons⟩ := exists_cons_of_ne_nil hblocks
  rw [tmpfsReadFile, memBlockRawRead, readCopies, hcons, readLoop, ensure, if_neg (by omega)]
  rfl

/-- At the end of the file a write asserts that its size is not negative. -/
theorem tmpfsWriteFile_negative {hdr : MemBlockHdr} (hend : hdr.nrUsed = offset) (hneg : size < 0) :
    tmpfsWriteFile (some hdr) σ offset buffer size = .error .assertion := by
  rw [tmpfsWriteFile_bind, if_pos hend, memBlockRawWriteSequential, ensure, if_neg (by omega)]
  rfl

theorem readPasses_iff (hb : s.Bounded) (hoff : offset < 2 ^ 31) :
    ReadPasses s offset buffer size ↔ 0 ≤ size ∨ ∀ hdr, s.priv = some hdr → hdr.blocks = [] := by
  obtain ⟨priv, supply⟩ := s
  cases priv with
  | none => exact iff_of_true ⟨buffer, _, rfl, fun _ => ⟨by decide, rfl⟩⟩ (.inr nofun)
  | some hdr =>
    rcases lt_or_ge size 0 with hneg | hpos
    · rw [or_iff_right (by omega)]
      by_cases hblocks : hdr.blocks = []
      · refine iff_of_true ⟨buffer, 0, ?_, fun _ => ⟨le_rfl, rfl⟩⟩ ?_
        · rw [tmpfsReadFile, memBlockRawRead, readCopies, hblocks]
          rfl
        · exact fun hdr' hhdr => Option.some.inj hhdr ▸ hblocks
      refine iff_of_false ?_ fun h => hblocks (h hdr rfl)
      rintro ⟨buffer', r, hread, -⟩
      cases (tmpfsReadFile_negative buffer hblocks hneg).symm.trans hread
    · obtain ⟨n, rfl⟩ := Int.eq_ofNat_of_zero_le hpos
      obtain ⟨copies, r, hread, -, hput⟩ := readLoop_spec (hb hdr rfl) offset n 0
      rw [← i32_of_lt hoff] at hread
      refine iff_of_true ⟨_, r, bind_of_ok hread rfl, fun h0 => ?_⟩ (.inl hpos)
      obtain rfl : n = 0 := by omega
      rw [take_zero, length_nil] at hput
      obtain ⟨rfl, hbuffer⟩ := hput (by norm_num)
      exact ⟨le_rfl, (hbuffer buffer).trans (putBytes_nil buffer 0)⟩

theorem writePasses_of_raw {hdr : MemBlockHdr} {raw : (ℤ → UInt8) → Except Fault (List Block × Supply × ℤ)}
    (heq : ∀ buf, (if hdr.nrUsed = offset then memBlockRawWriteSequential hdr.blocks σ buf size
      else memBlockRawWriteRandom hdr.blocks σ offset buf size) = raw buf)
    (h : ∃ blocks' σ' r, raw buffer = .ok (blocks', σ', r) ∧
      (size ≤ 0 → r ≤ 0 ∧ ∀ other, raw other = .ok (blocks', σ', r))) :
    WritePasses ⟨some hdr, σ⟩ offset buffer size := by
  obtain ⟨blocks', σ', r, hrun, hnone⟩ := h
  have hcall : ∀ buf, raw buf = .ok (blocks', σ', r) → tmpfsWriteFile (some hdr) σ offset buf size =
      .ok (some ⟨if 0 ≤ r then max (u32 (offset + r)) hdr.nrUsed else hdr.nrUsed, blocks'⟩, σ', r) := fun buf hbuf =>
    (tmpfsWriteFile_bind hdr σ offset buf size).trans (bind_of_ok ((heq buf).trans hbuf) rfl)
  exact ⟨_, σ', r, hcall buffer hrun, fun hsize => ⟨(hnone hsize).1, fun other => hcall other ((hnone hsize).2 other)⟩⟩

theorem writePasses_iff (hb : s.Bounded) (hoff : offset < 2 ^ 31) :
    WritePasses s offset buffer size ↔ 0 ≤ size ∨ ∀ hdr, s.priv = some hdr → offset ≠ hdr.nrUsed := by
  obtain ⟨priv, supply⟩ := s
  cases priv with
  | none => exact iff_of_true ⟨none, supply, _, rfl, fun _ => ⟨by decide, fun _ => rfl⟩⟩ (.inr nofun)
  | some hdr =>
    have hbb : Bounded hdr.blocks := hb hdr rfl
    by_cases hend : hdr.nrUsed = offset
    · have hnot : ¬ ∀ hdr', some hdr = some hdr' → offset ≠ hdr'.nrUsed := fun h => h hdr rfl hend.symm
      rw [or_iff_left hnot]
      rcases lt_trichotomy size 0 with hneg | rfl | hpos
      · refine iff_of_false ?_ (by omega)
        rintro ⟨priv', σ', r, hwrite, -⟩
        cases (tmpfsWriteFile_negative buffer hend hneg).symm.trans hwrite
      · exact iff_of_true (writePasses_of_raw buffer (fun buf => if_pos hend)
          ⟨hdr.blocks, supply, 0, rfl, fun _ => ⟨le_rfl, fun _ => rfl⟩⟩) le_rfl
      · obtain ⟨n, rfl⟩ := Int.eq_ofNat_of_zero_le hpos.le
        obtain ⟨blocks', σ', k, hrun, -⟩ := writeSequential_any supply n hbb buffer
        exact iff_of_true (writePasses_of_raw buffer (fun buf => if_pos hend)
          ⟨blocks', σ', k, hrun, fun h0 => absurd h0 (by omega)⟩) hpos.le
    · refine iff_of_true (writePasses_of_raw buffer (fun buf => if_neg hend) ?_)
        (.inr fun hdr' hhdr => Option.some.inj hhdr ▸ Ne.symm hend)
      rcases le_or_gt size 0 with hnonpos | hpos
      · obtain ⟨blocks', σ', k, hrun, hk⟩ := writeRandom_ok hbb buffer hoff 0
        have hrun' : ∀ buf, memBlockRawWriteRandom hdr.blocks supply offset buf size = .ok (blocks', σ', (k : ℤ)) :=
          fun buf => (writeRandom_nonpos hnonpos buf buffer).trans hrun
        exact ⟨blocks', σ', k, hrun' buffer, fun _ => ⟨by omega, hrun'⟩⟩
      · obtain ⟨n, rfl⟩ := Int.eq_ofNat_of_zero_le hpos.le
        obtain ⟨blocks', σ', k, hrun, -⟩ := writeRandom_ok hbb buffer hoff n
        exact ⟨blocks', σ', k, hrun, fun h0 => absurd h0 (by omega)⟩

end

/-- **A read passes the assertions exactly when its size is not negative or the file has no blocks, and a write when its
size is not negative or it is not at the end.** -/
theorem requests_safe_iff (s₀ s : FileState) (requests : List FileRequest) (offset : ℕ) (buffer : ℤ → UInt8) (size : ℤ)
    (hstart : s₀.priv = none ∨ s₀.priv = some ⟨0, []⟩) (hrun : runSteps requestStep s₀ requests = .ok s)
    (hoff : offset < 2 ^ 31) :
    (ReadPasses s offset buffer size ↔ 0 ≤ size ∨ ∀ hdr, s.priv = some hdr → hdr.blocks = []) ∧
      (WritePasses s offset buffer size ↔ 0 ≤ size ∨ ∀ hdr, s.priv = some hdr → offset ≠ hdr.nrUsed) := by
  have hb0 : s₀.Bounded := fun hdr hhdr => by
    rcases hstart with h | h
    · rw [h] at hhdr
      cases hhdr
    rw [h] at hhdr
    cases hhdr
    exact fun b hb => absurd hb not_mem_nil
  have hb : s.Bounded := inv_of_run requestStep_bounded hb0 hrun
  exact ⟨readPasses_iff buffer hb hoff, writePasses_iff buffer hb hoff⟩

theorem requests_safe_written : ∃ s, runSteps requestStep ⟨some ⟨0, []⟩, zeroBlocks⟩ [.write 0 (fun _ => 1) 1] = .ok s ∧
      (ReadPasses s 0 (fun _ => 0) 1 ↔ (0 : ℤ) ≤ 1 ∨ ∀ hdr, s.priv = some hdr → hdr.blocks = []) ∧
      (WritePasses s 0 (fun _ => 0) 1 ↔ (0 : ℤ) ≤ 1 ∨ ∀ hdr, s.priv = some hdr → 0 ≠ hdr.nrUsed) := by
  obtain ⟨s, hrun⟩ : ∃ s, runSteps requestStep ⟨some ⟨0, []⟩, zeroBlocks⟩ [.write 0 (fun _ => 1) 1] = .ok s := ⟨_, rfl⟩
  exact ⟨s, hrun, requests_safe_iff _ s _ 0 _ 1 (.inr rfl) hrun (by norm_num)⟩

/-- **A write of size -1 into a new file fails an assertion.** -/
theorem negative_write_asserts : tmpfsWriteFile (some ⟨0, []⟩) zeroBlocks 0 (fun _ => 0) (-1) = .error .assertion ∧
      ¬ WritePasses ⟨some ⟨0, []⟩, zeroBlocks⟩ 0 (fun _ => 0) (-1) := by
  have hrun : tmpfsWriteFile (some ⟨0, []⟩) zeroBlocks 0 (fun _ => 0) (-1) = .error .assertion := rfl
  refine ⟨hrun, ?_⟩
  rintro ⟨priv', σ', r, hwrite, -⟩
  cases hrun.symm.trans hwrite

end ZeldaOS
