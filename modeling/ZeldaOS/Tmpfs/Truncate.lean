import ZeldaOS.Tmpfs.Spread

/-!
# Truncation of a list of blocks

What `mem_block_raw_truncate` does to a list of blocks, inside the room that it has and behind it.

* `truncates_to_iff`: when truncation sets the length.
-/

namespace ZeldaOS

open Machine List

section
variable {blocks : List Block} {σ : Supply} {offset : ℕ}

theorem usedSum_of_full (h : ∀ b ∈ blocks, b.nrUsed = 4084) : usedSum blocks = 4084 * blocks.length := by
  rw [usedSum, map_congr_left h, map_const', sum_replicate, smul_eq_mul, mul_comm]

theorem Bounded.usedSum_eq_iff (h : Bounded blocks) :
    usedSum blocks = 4084 * blocks.length ↔ ∀ b ∈ blocks, b.nrUsed = 4084 := by
  refine ⟨fun heq => ?_, usedSum_of_full⟩
  induction blocks with
  | nil => exact fun b hb => absurd hb not_mem_nil
  | cons b bs ih =>
    obtain ⟨hb, hbs⟩ := forall_mem_cons.1 h
    have hle := Bounded.usedSum_le hbs
    rw [usedSum_cons, length_cons] at heq
    exact forall_mem_cons.2 ⟨by omega, ih hbs (by omega)⟩

theorem skipBlocks_full (off : ℕ) (hoff : off ≤ 4084 * blocks.length) (hlt : off < 2 ^ 31) :
    skipBlocks (fun _ => blockAvailSize) off blocks = (blocks.take ((off - 1) / 4084), blocks.drop ((off - 1) / 4084),
        ((off - 4084 * ((off - 1) / 4084) : ℕ) : ℤ), 0) := by
  induction blocks generalizing off with
  | nil =>
    obtain rfl : off = 0 := Nat.le_zero.1 hoff
    rfl
  | cons b bs ih =>
    have hign : (if (off : ℤ) ≠ 0 then minU off blockAvailSize else 0) = ((min off 4084 : ℕ) : ℤ) := by
      rw [show blockAvailSize = ((4084 : ℕ) : ℤ) from rfl, minU_natCast hlt (by norm_num)]
      split_ifs <;> omega
    rw [length_cons] at hoff
    rw [skipBlocks, hign]
    by_cases hle : off ≤ 4084
    · obtain hj : (off - 1) / 4084 = 0 := by omega
      rw [min_eq_left hle, subI32_natCast le_rfl, if_pos (by omega), hj]
      rfl
    obtain ⟨j, hj⟩ : ∃ j, (off - 1) / 4084 = j + 1 := ⟨(off - 1) / 4084 - 1, by omega⟩
    have hj' : (off - 4084 - 1) / 4084 = j := by omega
    have hleft : off - min off 4084 = off - 4084 := by omega
    rw [subI32_natCast (min_le_left _ _), hleft, if_neg (by omega), ih (off - 4084) (by omega) (by omega), hj, hj']
    simp only [take_succ_cons, drop_succ_cons, Prod.mk.injEq, true_and, and_true]
    omega

theorem skipBlocks_beyond (hoff : 4084 * blocks.length < offset) (hlt : offset < 2 ^ 32) :
    skipBlocks (fun _ => blockAvailSize) (i32 offset) blocks =
      (blocks, [], 0, i32 (offset - 4084 * blocks.length)) := by
  have hsum : (blocks.map fun _ => 4084).sum = 4084 * blocks.length := by
    rw [map_const', sum_replicate, smul_eq_mul, mul_comm]
  rw [← hsum]
  exact skipBlocks_past _ (fun _ => 4084) (fun b _ => ⟨rfl, le_rfl⟩) offset (hsum.trans_lt hoff) hlt

theorem cutBlocks_spec (rest : List Block) {iptr : ℕ} (hi : iptr ≤ 4084) (hrest : rest = [] → iptr = 0) :
    ∃ kept released, cutBlocks rest iptr = (kept, released) ∧ usedSum kept = iptr ∧ Dense kept ∧
      (kept ++ released).map Block.content = rest.map Block.content ∧
      ∀ m ≤ iptr, m ≤ (rest.head?.map Block.nrUsed).getD 0 → (fileBytes kept).take m = (fileBytes rest).take m := by
  have hnil : Dense [] := ⟨trivial, by simp⟩
  cases rest with
  | nil => exact ⟨[], [], rfl, (hrest rfl).symm, hnil, rfl, by simp⟩
  | cons b bs =>
    rw [cutBlocks, u32_natCast (by omega)]
    split_ifs with h
    · refine ⟨_, _, rfl, Nat.add_zero _, ⟨⟨hi, by simp, trivial⟩, forall_mem_singleton.2 ?_⟩, rfl, fun m hm hmb => ?_⟩
      · exact Nat.one_le_iff_ne_zero.2 h
      have hmb : m ≤ b.nrUsed := hmb
      rw [fileBytes_cons, fileBytes_cons, take_append_of_le_length (by simpa using hm),
        take_append_of_le_length (by simpa using hmb), Block.bytes, Block.bytes, window_take, window_take,
        min_eq_left hm, min_eq_left hmb]
    · obtain rfl : iptr = 0 := by omega
      refine ⟨_, _, rfl, rfl, hnil, rfl, fun m hm _ => ?_⟩
      rw [Nat.le_zero.1 hm, take_zero, take_zero]

theorem Packed.take_full (h : Packed blocks) {j : ℕ} (hj : j < blocks.length) :
    ∀ b ∈ blocks.take j, b.nrUsed = 4084 := by
  rw [← take_append_drop j blocks] at h
  exact ((packed_append_iff (fun hnil => absurd (drop_eq_nil_iff.1 hnil) (by omega))).1 h).1

variable (σ) in
theorem rawTruncate_inside (hoff : offset ≤ 4084 * blocks.length) (hlt : offset < 2 ^ 31) :
    ∃ blocks' released, memBlockRawTruncate blocks σ offset = .ok (blocks', released, σ, 0) ∧
      usedSum blocks' = usedSum (blocks.take ((offset - 1) / 4084)) + (offset - 4084 * ((offset - 1) / 4084)) ∧
      (blocks' ++ released).map Block.content = blocks.map Block.content ∧
      (Packed blocks → usedSum blocks' = offset ∧ Dense blocks' ∧
        (fileBytes blocks').take (min (usedSum blocks) offset) = (fileBytes blocks).take
          (min (usedSum blocks) offset)) := by
  set j := (offset - 1) / 4084 with hj
  have hrest : blocks.drop j = [] → offset - 4084 * j = 0 := fun h => by
    have := drop_eq_nil_iff.1 h
    omega
  obtain ⟨kept, released, hcut, hkept, hdense, hcontent, hbytes⟩ := cutBlocks_spec (blocks.drop j) (by omega) hrest
  refine ⟨blocks.take j ++ kept, released, ?_, by rw [usedSum_append, hkept], ?_, fun hp => ?_⟩
  · simp only [memBlockRawTruncate, i32_of_lt hlt, skipBlocks_full offset hoff hlt, extendBlocks_zero, bind,
      Except.bind, lt_self_iff_false, if_false, isEmpty_nil, if_true, ← hj, hcut]
  · rw [append_assoc, map_append, hcontent, ← map_append, take_append_drop]
  -- the blocks before the divided one are full
  have hfull : ∀ b ∈ blocks.take j, b.nrUsed = 4084 := by
    rcases Nat.lt_or_ge j blocks.length with hjl | hjl
    · exact hp.take_full hjl
    have hzero : j = 0 := by
      omega
    simp [hzero]
  have hlen : (fileBytes (blocks.take j)).length = 4084 * j := by
    rw [length_fileBytes, usedSum_of_full hfull, length_take]
    omega
  refine ⟨?_, ⟨packed_append hfull hdense.1, forall_mem_append.2 ⟨fun b hb => ?_, hdense.2⟩⟩, ?_⟩
  · rw [usedSum_append, hkept, ← length_fileBytes, hlen]
    omega
  · rw [hfull b hb]
    omega
  have hhead : min (usedSum blocks) offset - 4084 * j ≤ ((blocks.drop j).head?.map Block.nrUsed).getD 0 := by
    rw [← take_append_drop j blocks] at hp
    have hsum : usedSum blocks = 4084 * j + usedSum (blocks.drop j) := by
      rw [← hlen, length_fileBytes, ← usedSum_append, take_append_drop]
    rcases hdrop : blocks.drop j with _ | ⟨b, bs⟩
    · have := hrest hdrop
      omega
    rw [hdrop] at hp hsum
    obtain ⟨-, -, hlast, -⟩ := (packed_append_iff (cons_ne_nil b bs)).1 hp
    rw [usedSum_cons] at hsum
    change _ ≤ b.nrUsed
    rcases eq_or_ne bs [] with rfl | hne
    · have hnil : usedSum [] = 0 := rfl
      omega
    have := hlast hne
    omega
  nth_rewrite 4 [← take_append_drop j blocks]
  rw [fileBytes_append, fileBytes_append, take_append, take_append, hlen, hbytes _ (by omega) hhead]

variable (σ) in
theorem rawTruncate_past (hoff : 4084 * blocks.length < offset) (hlt : offset < 2 ^ 32)
    (hleft : offset - 4084 * blocks.length < 2 ^ 31) :
    (∃ pre b, memBlockRawTruncate blocks σ offset =
          .ok (blocks ++ pre ++ [b], [], fun i => σ (i + (pre.length + 1)), 0) ∧
        (∀ c ∈ pre, c.nrUsed = 4084) ∧ 1 ≤ b.nrUsed ∧ b.nrUsed ≤ 4084 ∧
        4084 * pre.length + b.nrUsed = offset - 4084 * blocks.length ∧ ∀ i ≤ pre.length, σ i ≠ none) ∨
      ∃ pre, memBlockRawTruncate blocks σ offset =
          .ok (blocks ++ pre, [], fun i => σ (i + (pre.length + 1)), -errOutOfMemory) ∧
        (∀ c ∈ pre, c.nrUsed = 4084) ∧ 4084 * pre.length < offset - 4084 * blocks.length ∧ σ pre.length = none ∧
        ∀ i < pre.length, σ i ≠ none := by
  rcases extendBlocks_spec σ (by omega) (by omega) (show offset - 4084 * blocks.length < offset + 1 by omega) with
    ⟨pre, b, hext, hpre, hb1, hb2, hsum, hok⟩ | ⟨pre, hext, hpre, hless, hfail, hok⟩
  · have hu : u32 (b.nrUsed : ℤ) = b.nrUsed := u32_natCast (by omega)
    have hne : (pre ++ [b]).isEmpty = false := by simp
    have hpos : b.nrUsed ≠ 0 := by omega
    refine .inl ⟨pre, b, ?_, hpre, hb1, hb2, hsum, hok⟩
    simp only [memBlockRawTruncate, skipBlocks_beyond hoff hlt, i32_of_lt hleft, hext, bind, Except.bind,
      lt_self_iff_false, if_false, hne, Bool.false_eq_true, dropLast_concat, getLast?_concat,
      Option.toList_some, cutBlocks, hu, if_pos hpos, ne_eq, append_nil]
  · have hpos : (0 : ℤ) < ((offset - 4084 * blocks.length - 4084 * pre.length : ℕ) : ℤ) := by omega
    refine .inr ⟨pre, ?_, hpre, hless, hfail, hok⟩
    simp only [memBlockRawTruncate, skipBlocks_beyond hoff hlt, i32_of_lt hleft, hext, bind, Except.bind, if_pos hpos,
      append_nil]

/-- The blocks hold `n` bytes without gaps, every byte in front of both ends reads as before, each block is kept or
released once, and blocks are appended only if none is released. -/
def TruncatesTo (blocks : List Block) (σ : Supply) (n : ℕ) : Prop :=
  ∃ blocks' released σ' new, memBlockRawTruncate blocks σ n = .ok (blocks', released, σ', 0) ∧
    usedSum blocks' = n ∧ Dense blocks' ∧
    (∀ off < min (usedSum blocks) n, ∀ buffer,
      memBlockRawRead blocks' off buffer 1 = memBlockRawRead blocks off buffer 1) ∧
    (blocks' ++ released).map Block.content = blocks.map Block.content ++ new ∧ (released ≠ [] → new = [])

theorem read_prefix {blocks' : List Block} {m off : ℕ} (hb : Bounded blocks) (hb' : Bounded blocks')
    (h : (fileBytes blocks').take m = (fileBytes blocks).take m) (hoff : off < m) (hlt : m < 2 ^ 31)
    (buffer : ℤ → UInt8) : memBlockRawRead blocks' off buffer 1 = memBlockRawRead blocks off buffer 1 := by
  have hone : ∀ xs : List UInt8, (xs.drop off).take 1 = ((xs.take m).drop off).take 1 := fun xs => by
    rw [drop_take, take_take, min_eq_left (by omega)]
  have hlen : ∀ xs : List UInt8, ((xs.drop off).take 1).length < 2 ^ 31 := fun xs => by
    rw [length_take]
    omega
  rw [← Nat.cast_one, memBlockRawRead_spec hb' (by omega) (hlen _), memBlockRawRead_spec hb (by omega) (hlen _), hone,
    hone (fileBytes blocks), h]

/-- **Truncation sets the length exactly when the blocks have room for it or the last one is full.** -/
theorem truncates_to_iff (blocks : List Block) (σ : Supply) (n : ℕ) (hp : Packed blocks) (hσ : ∀ i, σ i ≠ none)
    (hlt : n < 2 ^ 31) : TruncatesTo blocks σ n ↔ n ≤ 4084 * blocks.length ∨ ∀ b ∈ blocks, b.nrUsed = 4084 := by
  have hb : Bounded blocks := hp.le
  rcases Nat.lt_or_ge (4084 * blocks.length) n with hpast | hinside
  · rcases rawTruncate_past σ hpast (by omega) (by omega) with
      ⟨pre, b, hrun, hpre, hb1, hb2, hleft, -⟩ | ⟨pre, -, -, -, hfail, -⟩
    · have hone : usedSum [b] = b.nrUsed := Nat.add_zero _
      have hsum : usedSum (blocks ++ pre ++ [b]) = usedSum blocks + (n - 4084 * blocks.length) := by
        rw [usedSum_append, usedSum_append, usedSum_of_full hpre, hone]
        omega
      rw [or_iff_right (by omega)]
      constructor
      · rintro ⟨blocks', released, σ', new, hrun', hn, -⟩
        obtain ⟨rfl, -⟩ := Prod.mk.inj (Except.ok.inj (hrun.symm.trans hrun'))
        exact hb.usedSum_eq_iff.1 (by omega)
      intro hfull
      have hsum' := usedSum_of_full hfull
      have hpacked : Packed (blocks ++ pre ++ [b]) := packed_concat.2 ⟨forall_mem_append.2 ⟨hfull, hpre⟩, hb2⟩
      have hdense : Dense (blocks ++ pre ++ [b]) := by
        refine ⟨hpacked, forall_mem_append.2 ⟨forall_mem_append.2 ⟨fun c hc => ?_, fun c hc => ?_⟩,
          forall_mem_singleton.2 hb1⟩⟩
        · rw [hfull c hc]
          omega
        rw [hpre c hc]
        omega
      refine ⟨_, [], _, (pre ++ [b]).map Block.content, hrun, by omega, hdense, fun off hoff buffer => ?_, ?_,
        fun h => absurd rfl h⟩
      · refine read_prefix hb hpacked.le (m := usedSum blocks) ?_ (by omega) (by omega) buffer
        rw [append_assoc, fileBytes_append, ← length_fileBytes, take_left, take_length]
      · rw [append_nil, append_assoc, map_append]
    · exact absurd hfail (hσ _)
  · obtain ⟨blocks', released, hrun, -, hcontent, hpacked⟩ := rawTruncate_inside σ hinside hlt
    obtain ⟨hsum, hdense, hbytes⟩ := hpacked hp
    refine iff_of_true ?_ (.inl hinside)
    refine ⟨blocks', released, σ, [], hrun, hsum, hdense, fun off hoff buffer => ?_, ?_, fun _ => rfl⟩
    · exact read_prefix hb hdense.1.le hbytes hoff (by omega) buffer
    · rw [hcontent, append_nil]

end

def tenBytes : MemBlockHdr := ⟨10, [⟨10, fun _ => 0⟩]⟩

def zeroBlocks : Supply := fun _ => some fun _ => 0

theorem truncates_to_iff_four : Packed tenBytes.blocks ∧ (∀ i, zeroBlocks i ≠ none) ∧
      (TruncatesTo tenBytes.blocks zeroBlocks 4 ↔
        4 ≤ 4084 * tenBytes.blocks.length ∨ ∀ b ∈ tenBytes.blocks, b.nrUsed = 4084) := by
  have hp : Packed tenBytes.blocks := ⟨by decide, by simp, trivial⟩
  have hsome : ∀ i, zeroBlocks i ≠ none := fun _ => Option.some_ne_none _
  exact ⟨hp, hsome, truncates_to_iff _ zeroBlocks 4 hp hsome (by norm_num)⟩

/-- **A file of ten bytes truncated to 4085 holds eleven.** -/
theorem truncate_leaves_gap :
    (memBlockRawTruncate tenBytes.blocks zeroBlocks 4085).toOption.map (fun r => (usedSum r.1, r.2.2.2)) = some
      (11, 0) ∧
      ¬ TruncatesTo tenBytes.blocks zeroBlocks 4085 := by
  have hrun : (memBlockRawTruncate tenBytes.blocks zeroBlocks 4085).toOption.map (fun r => (usedSum r.1, r.2.2.2)) =
      some (11, 0) := by
    decide +kernel
  refine ⟨hrun, ?_⟩
  rintro ⟨blocks', released, σ', new, hrun', hsum, -⟩
  rw [hrun'] at hrun
  have h11 : usedSum blocks' = 11 := (Prod.mk.inj (Option.some.inj hrun)).1
  omega

end ZeldaOS
