import ZeldaOS.Tmpfs.Dense

/-!
# Writes into any list of blocks

`filesystem/memfs_blocking.c` on files whose blocks may be partly filled, when `get_mem_block` may fail.

* `writeRandomLoop_spread`: a write spreads the buffer over the blocks.
-/

namespace ZeldaOS

open Machine List

/-! ## Spreading bytes -/

/-- `w` written from `iptr` on, each block filled before the next. -/
def spread : List (List UInt8) → (iptr : ℕ) → (w : List UInt8) → List UInt8
  | [], _, w => w
  | b :: bs, iptr, w =>
    if w.length ≤ 4084 - iptr then splice b iptr w ++ bs.flatten
    else splice b iptr (w.take (4084 - iptr)) ++ spread bs 0 (w.drop (4084 - iptr))

/-- No byte behind the `left` bytes is moved: no block grows that has others behind it, or nothing is behind them. -/
def Settles : (grown : Bool) → (sizes : List ℕ) → (iptr left : ℕ) → Prop
  | _, [], _, _ => True
  | grown, u :: us, iptr, left =>
    if left ≤ 4084 - iptr then
      if grown then u ≤ iptr + left ∧ us.sum = 0 else iptr + left ≤ u ∨ us.sum = 0
    else Settles (grown || decide (u < 4084)) us 0 (left - (4084 - iptr))

def WriteSettles : (sizes : List ℕ) → (offset left : ℕ) → Prop
  | [], _, _ => True
  | u :: us, offset, left =>
    if offset ≤ u then Settles false (u :: us) offset left else WriteSettles us (offset - u) left

variable {left : ℕ}

section
variable {bs : List (List UInt8)} {iptr : ℕ} {w : List UInt8}

theorem spread_nil (bs : List (List UInt8)) (iptr : ℕ) : spread bs iptr [] = bs.flatten := by
  cases bs with
  | nil => rfl
  | cons b bs => rw [spread, length_nil, if_pos (Nat.zero_le _), splice_nil_right, flatten_cons]

theorem length_flatten_le_spread (hbs : ∀ b ∈ bs, b.length ≤ 4084) (hi : iptr ≤ (bs.head?.map List.length).getD 0) :
    bs.flatten.length ≤ (spread bs iptr w).length ∧ iptr + w.length ≤ (spread bs iptr w).length := by
  induction bs generalizing iptr w with
  | nil =>
    obtain rfl : iptr = 0 := Nat.le_zero.1 hi
    exact ⟨Nat.zero_le _, by rw [spread, Nat.zero_add]⟩
  | cons b bs ih =>
    obtain ⟨hb, hrest⟩ := forall_mem_cons.1 hbs
    have hib : iptr ≤ b.length := hi
    rw [spread, flatten_cons, length_append]
    split_ifs with hk
    · rw [length_append, splice_length hib]
      omega
    obtain ⟨h1, h2⟩ := @ih 0 (w.drop (4084 - iptr)) hrest (Nat.zero_le _)
    rw [length_append, splice_length hib, length_take]
    rw [length_drop] at h2
    omega

theorem spread_length (hbs : ∀ b ∈ bs, b.length ≤ 4084) (hi : iptr ≤ (bs.head?.map List.length).getD 0) :
    (Settles false (bs.map List.length) iptr w.length ↔
        (spread bs iptr w).length = max bs.flatten.length (iptr + w.length)) ∧
      (Settles true (bs.map List.length) iptr w.length ↔ (spread bs iptr w).length = iptr + w.length) := by
  induction bs generalizing iptr w with
  | nil =>
    obtain rfl : iptr = 0 := Nat.le_zero.1 hi
    simp [Settles, spread]
  | cons b bs ih =>
    obtain ⟨hb, hrest⟩ := forall_mem_cons.1 hbs
    have hib : iptr ≤ b.length := hi
    have hsum : (bs.map List.length).sum = bs.flatten.length := length_flatten.symm
    rw [map_cons, Settles, Settles, spread, flatten_cons, length_append, hsum]
    by_cases hk : w.length ≤ 4084 - iptr
    · rw [if_pos hk, if_pos hk, if_pos hk, length_append, splice_length hib]
      constructor
      · rw [if_neg Bool.false_ne_true]
        omega
      rw [if_pos rfl]
      omega
    obtain ⟨hfalse, htrue⟩ := @ih 0 (w.drop (4084 - iptr)) hrest (Nat.zero_le _)
    obtain ⟨h1, h2⟩ := @length_flatten_le_spread bs 0 (w.drop (4084 - iptr)) hrest (Nat.zero_le _)
    rw [length_drop] at hfalse htrue h2
    rw [if_neg hk, if_neg hk, if_neg hk, length_append, splice_length hib, length_take]
    constructor
    · by_cases hfull : b.length < 4084
      · rw [decide_eq_true hfull, Bool.or_true, htrue]
        omega
      rw [decide_eq_false hfull, Bool.or_false, hfalse]
      omega
    · rw [Bool.true_or, htrue]
      omega

theorem flatten_eq_nil_of_sum (h : (bs.map List.length).sum = 0) : bs.flatten = [] := by
  rw [← length_eq_zero_iff, length_flatten, h]

theorem spread_eq (hbs : ∀ b ∈ bs, b.length ≤ 4084) (hi : iptr ≤ (bs.head?.map List.length).getD 0) :
    (Settles false (bs.map List.length) iptr w.length → spread bs iptr w = splice bs.flatten iptr w) ∧
      (iptr = 0 → Settles true (bs.map List.length) iptr w.length → spread bs iptr w = w) := by
  induction bs generalizing iptr w with
  | nil =>
    simp [spread, splice]
  | cons b bs ih =>
    obtain ⟨hb, hrest⟩ := forall_mem_cons.1 hbs
    have hib : iptr ≤ b.length := hi
    rw [map_cons, Settles, Settles, spread, flatten_cons]
    by_cases hk : w.length ≤ 4084 - iptr
    · rw [if_pos hk, if_pos hk, if_pos hk, if_neg Bool.false_ne_true, if_pos rfl]
      refine ⟨fun h => ?_, fun h0 h => ?_⟩
      · exact (splice_append_left hib (h.imp_right flatten_eq_nil_of_sum)).symm
      subst h0
      rw [flatten_eq_nil_of_sum h.2, append_nil, splice, take_zero, nil_append, drop_eq_nil_of_le h.1, append_nil]
    obtain ⟨hfalse, htrue⟩ := @ih 0 (w.drop (4084 - iptr)) hrest (Nat.zero_le _)
    obtain ⟨h1, -⟩ := @length_flatten_le_spread bs 0 (w.drop (4084 - iptr)) hrest (Nat.zero_le _)
    rw [length_drop] at hfalse htrue
    have htake : (w.take (4084 - iptr)).length = 4084 - iptr := by
      rw [length_take]
      omega
    rw [if_neg hk, if_neg hk, if_neg hk]
    constructor
    · intro h
      by_cases hfull : b.length < 4084
      · -- the rest is overwritten
        rw [decide_eq_true hfull, Bool.or_true] at h
        rw [htrue rfl h, length_drop] at h1
        rw [htrue rfl h, splice, splice, htake, take_append_of_le_length hib,
          drop_eq_nil_of_le (by omega), append_nil, append_assoc, take_append_drop,
          drop_eq_nil_of_le (by rw [length_append]; omega), append_nil]
      · rw [decide_eq_false hfull, Bool.or_false] at h
        rw [hfalse h, ← splice_append_split hib (by omega) (.inl (by omega)), take_append_drop]
    · intro h0 h
      subst h0
      rw [htrue rfl h, splice, take_zero, nil_append, drop_eq_nil_of_le (by omega), append_nil, take_append_drop]

theorem settles_of_le {sizes : List ℕ} (grown : Bool) (hsizes : ∀ u ∈ sizes, u ≤ 4084) (hi : iptr ≤ 4084)
    (h : 4084 * sizes.length ≤ iptr + left) : Settles grown sizes iptr left := by
  induction sizes generalizing grown iptr left with
  | nil => trivial
  | cons u us ih =>
    obtain ⟨hu, hus⟩ := forall_mem_cons.1 hsizes
    rw [length_cons] at h
    rw [Settles]
    split_ifs with hk hgrown
    · obtain rfl : us = [] := length_eq_zero_iff.1 (by omega)
      exact ⟨by rw [length_nil] at h; omega, rfl⟩
    · obtain rfl : us = [] := length_eq_zero_iff.1 (by omega)
      exact .inr rfl
    · exact ih _ hus (Nat.zero_le _) (by omega)

end

theorem settles_last (grown : Bool) (u left : ℕ) : Settles grown [u] u left := by
  rw [Settles]
  by_cases hleft : left ≤ 4084 - u
  · rw [if_pos hleft]
    cases grown with
    | false => exact .inr rfl
    | true => exact ⟨Nat.le_add_right u left, rfl⟩
  · rw [if_neg hleft]
    exact trivial

variable {blocks : List Block}

theorem Packed.settles (h : Packed blocks) {iptr : ℕ} (hi : iptr ≤ (blocks.head?.map Block.nrUsed).getD 0) (left : ℕ) :
    Settles false (blocks.map Block.nrUsed) iptr left := by
  induction blocks generalizing iptr left with
  | nil => trivial
  | cons b bs ih =>
    obtain ⟨hb, hfull, hbs⟩ := h
    have hib : iptr ≤ b.nrUsed := hi
    rw [map_cons, Settles, if_neg Bool.false_ne_true]
    rcases eq_or_ne bs [] with rfl | hne
    · split_ifs
      · exact .inr rfl
      · exact trivial
    have h4 := hfull hne
    split_ifs with hk
    · exact .inl (by omega)
    rw [decide_eq_false (by omega), Bool.or_false]
    exact ih hbs (Nat.zero_le _) _

theorem Packed.writeSettles (h : Packed blocks) (offset left : ℕ) :
    WriteSettles (blocks.map Block.nrUsed) offset left := by
  induction blocks generalizing offset with
  | nil => trivial
  | cons b bs ih =>
    rw [map_cons, WriteSettles]
    split_ifs with hle
    · exact h.settles hle left
    · exact ih h.2.2 _

/-! ## Blocks with room -/

def Bounded (blocks : List Block) : Prop := ∀ b ∈ blocks, b.nrUsed ≤ 4084

def usedSum (blocks : List Block) : ℕ := (blocks.map Block.nrUsed).sum

theorem usedSum_cons (b : Block) (bs : List Block) : usedSum (b :: bs) = b.nrUsed + usedSum bs := sum_cons

theorem usedSum_append (xs ys : List Block) : usedSum (xs ++ ys) = usedSum xs + usedSum ys := by
  rw [usedSum, map_append, sum_append]
  rfl

theorem length_fileBytes (blocks : List Block) : (fileBytes blocks).length = usedSum blocks := fileBytes_length blocks

theorem Bounded.bytes (h : Bounded blocks) : ∀ b ∈ blocks.map Block.bytes, b.length ≤ 4084 := fun b hb => by
  obtain ⟨c, hc, rfl⟩ := mem_map.1 hb
  rw [Block.bytes_length]
  exact h c hc

theorem map_length_bytes (blocks : List Block) :
    (blocks.map Block.bytes).map List.length = blocks.map Block.nrUsed := by
  rw [map_map]
  exact map_congr_left fun b _ => b.bytes_length

theorem head_bytes (blocks : List Block) :
    ((blocks.map Block.bytes).head?.map List.length).getD 0 = (blocks.head?.map Block.nrUsed).getD 0 := by
  cases blocks with
  | nil => rfl
  | cons b bs => exact b.bytes_length

theorem Bounded.usedSum_le (h : Bounded blocks) : usedSum blocks ≤ 4084 * blocks.length := by
  induction blocks with
  | nil => exact le_rfl
  | cons b bs ih =>
    obtain ⟨hb, hbs⟩ := forall_mem_cons.1 h
    have := ih hbs
    rw [usedSum_cons, length_cons]
    omega

theorem skip_step (b : Block) (hb : b.nrUsed ≤ 4084) {off : ℕ} (hlt : off < 2 ^ 31) :
    (if (off : ℤ) ≠ 0 then minU off (i32 b.nrUsed) else 0) = ((min off b.nrUsed : ℕ) : ℤ) := by
  rw [i32_of_lt (by omega), minU_natCast hlt (by omega)]
  split_ifs <;> omega

theorem skipBlocks_inside (h : Bounded blocks) (off left : ℕ) (hoff : off ≤ usedSum blocks) (hlt : off < 2 ^ 31) :
    ∃ passed rest iptr, skipBlocks (fun b => i32 b.nrUsed) off blocks = (passed, rest, ((iptr : ℕ) : ℤ), 0) ∧
      blocks = passed ++ rest ∧ off = usedSum passed + iptr ∧ iptr ≤ (rest.head?.map Block.nrUsed).getD 0 ∧
      (WriteSettles (blocks.map Block.nrUsed) off left ↔ Settles false (rest.map Block.nrUsed) iptr left) := by
  induction blocks generalizing off with
  | nil =>
    obtain rfl : off = 0 := Nat.le_zero.1 hoff
    exact ⟨[], [], 0, rfl, rfl, rfl, le_rfl, Iff.rfl⟩
  | cons b bs ih =>
    obtain ⟨hb, hbs⟩ := forall_mem_cons.1 h
    rw [usedSum_cons] at hoff
    rw [skipBlocks, skip_step b hb hlt, map_cons, WriteSettles]
    by_cases hle : off ≤ b.nrUsed
    · rw [min_eq_left hle, subI32_natCast le_rfl, if_pos (by omega), if_pos hle]
      exact ⟨[], b :: bs, off, rfl, rfl, (Nat.zero_add _).symm, hle, Iff.rfl⟩
    obtain ⟨passed, rest, iptr, heq, hsplit, hsum, hhead, hsettles⟩ := ih hbs (off - b.nrUsed) (by omega) (by omega)
    have hleft : off - min off b.nrUsed = off - b.nrUsed := by omega
    rw [subI32_natCast (min_le_left _ _), hleft, if_neg (by omega), if_neg hle, heq]
    refine ⟨b :: passed, rest, iptr, rfl, by rw [hsplit]; rfl, ?_, hhead, hsettles⟩
    rw [usedSum_cons]
    omega

/-- An offset behind the bytes that are skipped: what is left of it, as an `int32_t`. -/
theorem skipBlocks_past (skip : Block → ℤ) (k : Block → ℕ) (hskip : ∀ b ∈ blocks, skip b = k b ∧ k b ≤ 4084) (off : ℕ)
    (hoff : (blocks.map k).sum < off) (hlt : off < 2 ^ 32) :
    skipBlocks skip (i32 off) blocks = (blocks, [], 0, i32 (off - (blocks.map k).sum)) := by
  induction blocks generalizing off with
  | nil => rfl
  | cons b bs ih =>
    obtain ⟨⟨hb, hk⟩, hbs⟩ := forall_mem_cons.1 hskip
    rw [map_cons, sum_cons] at hoff ⊢
    have hne : i32 off ≠ 0 := by
      unfold i32
      split_ifs <;> omega
    have hu : u32 (i32 off) = off := by
      unfold u32 i32
      split_ifs <;> omega
    have hign : (if i32 off ≠ 0 then minU (i32 off) (skip b) else 0) = k b := by
      rw [if_pos hne, hb, minU, hu, u32_natCast (by omega), if_neg (by omega)]
    have hleft : subI32 (i32 off) (k b) = i32 (off - k b) := by
      unfold subI32 i32
      split_ifs <;> omega
    have hrest : i32 (off - k b) ≠ 0 := by
      unfold i32
      split_ifs <;> omega
    rw [skipBlocks, hign, hleft, if_neg hrest, ih hbs (off - k b) (by omega) (by omega), Nat.sub_sub]

theorem extendBlocks_zero (fuel : ℕ) (σ : Supply) : extendBlocks (fuel + 1) σ 0 = .ok ([], σ, 0, 0) := by
  simp [extendBlocks]

variable {fuel : ℕ}

theorem extendBlocks_spec (σ : Supply) (hpos : 0 < left) (hlt : left < 2 ^ 31) (hfuel : left < fuel) :
    (∃ pre b, extendBlocks fuel σ left = .ok (pre ++ [b], fun i => σ (i + (pre.length + 1)), (b.nrUsed : ℤ), 0) ∧
        (∀ c ∈ pre, c.nrUsed = 4084) ∧ 1 ≤ b.nrUsed ∧ b.nrUsed ≤ 4084 ∧ 4084 * pre.length + b.nrUsed = left ∧
        ∀ i ≤ pre.length, σ i ≠ none) ∨ ∃ pre, extendBlocks fuel σ left =
          .ok (pre, fun i => σ (i + (pre.length + 1)), 0, ((left - 4084 * pre.length : ℕ) : ℤ)) ∧
        (∀ c ∈ pre, c.nrUsed = 4084) ∧ 4084 * pre.length < left ∧ σ pre.length = none ∧
        ∀ i < pre.length, σ i ≠ none := by
  induction fuel generalizing σ left with
  | zero => omega
  | succ fuel ih =>
    rw [extendBlocks, if_neg (by omega)]
    cases hσ : σ 0 with
    | none =>
      refine .inr ⟨[], ?_, fun c hc => absurd hc not_mem_nil, ?_, hσ, fun i hi => absurd hi (Nat.not_lt_zero i)⟩
      · rfl
      · exact hpos
    | some content =>
      have hmin : minU ((4084 : ℕ) : ℤ) left = ((min 4084 left : ℕ) : ℤ) := minU_natCast (by norm_num) hlt
      have hsize : blockAvailSize = ((4084 : ℕ) : ℤ) := rfl
      have hused : u32 ((min 4084 left : ℕ) : ℤ) = min 4084 left := u32_natCast (by omega)
      dsimp only
      rw [hsize, hmin, hused]
      have hsome : σ 0 ≠ none := hσ ▸ Option.some_ne_none content
      by_cases hdone : left ≤ 4084
      · rw [if_pos (by omega)]
        refine .inl ⟨[], ⟨min 4084 left, content⟩, rfl, fun c hc => absurd hc not_mem_nil, ?_, ?_, ?_, fun i hi => ?_⟩
        · dsimp only
          omega
        · dsimp only
          omega
        · dsimp only
          rw [length_nil]
          omega
        · rw [Nat.le_zero.1 hi]
          exact hsome
      have hcast : (left : ℤ) - (min 4084 left : ℕ) = ((left - 4084 : ℕ) : ℤ) := by omega
      have hfull : min 4084 left = 4084 := by omega
      rw [if_neg (by omega), hcast, hfull]
      rcases ih σ.rest (show 0 < left - 4084 by omega) (by omega) (by omega) with
        ⟨pre, b, heq, hpre, hb1, hb2, hsum, hok⟩ | ⟨pre, heq, hpre, hsum, hfail, hok⟩
      · rw [heq]
        refine .inl ⟨⟨4084, content⟩ :: pre, b, rfl, forall_mem_cons.2 ⟨rfl, hpre⟩, hb1, hb2, ?_, fun i hi => ?_⟩
        · rw [length_cons]
          omega
        cases i with
        | zero => exact hsome
        | succ i => exact hok i (by rw [length_cons] at hi; omega)
      rw [heq]
      refine .inr ⟨⟨4084, content⟩ :: pre, ?_, forall_mem_cons.2 ⟨rfl, hpre⟩, ?_, hfail, fun i hi => ?_⟩
      · have hleft : left - 4084 * (pre.length + 1) = left - 4084 - 4084 * pre.length := by omega
        simp only [bind, Except.bind, length_cons, hleft]
        rfl
      · rw [length_cons]
        omega
      cases i with
      | zero => exact hsome
      | succ i => exact hok i (by rw [length_cons] at hi; omega)

/-! ## The loops -/

theorem writeSequentialLoop_round (buffer : ℤ → UInt8) (fuel : ℕ) (σ : Supply) (result : ℤ) (hb : Bounded blocks)
    (hleft : 0 < left) :
    (∃ σ', writeSequentialLoop buffer (fuel + 1) blocks σ left result = .ok (blocks, σ', result) ∧ ∃ i, σ i = none) ∨
      ∃ pre b σ', Bounded (pre ++ [b]) ∧ b.nrUsed < 4084 ∧ fileBytes (pre ++ [b]) = fileBytes blocks ∧
        ((∀ i, σ i ≠ none) → ∀ i, σ' i ≠ none) ∧ (Packed blocks → ∀ c ∈ pre, c.nrUsed = 4084) ∧
        writeSequentialLoop buffer (fuel + 1) blocks σ left result =
          fillLastBlock buffer (pre ++ [b]) left result >>= fun r =>
            writeSequentialLoop buffer fuel r.1 σ' (left - r.2) (result + r.2) := by
  have hroom : roomFrom (0 : ℕ) = 4084 := roomFrom_natCast (by omega)
  rcases eq_nil_or_concat' blocks with rfl | ⟨pre, b, rfl⟩
  · rw [writeSequentialLoop, if_neg (by omega)]
    cases hσ : σ 0 with
    | none =>
      refine .inl ⟨σ.rest, ?_, 0, hσ⟩
      simp only [isEmpty_nil, if_true, appendMemBlock, hσ, Option.map_none]
    | some content =>
      refine .inr ⟨[], ⟨0, content⟩, σ.rest, by simp [Bounded], by simp, by simp [Block.bytes],
        fun h i => h (i + 1), by simp, ?_⟩
      have hlast : lastBlock ([] ++ [⟨0, content⟩]) = ⟨0, content⟩ := rfl
      simp only [isEmpty_nil, if_true, appendMemBlock, hσ, Option.map_some, hlast, hroom]
      rfl
  have hbb : b.nrUsed ≤ 4084 := hb b (by simp)
  have hroomb := roomFrom_natCast hbb
  have hne : (pre ++ [b]).isEmpty = false := by simp
  rw [writeSequentialLoop, if_neg (by omega)]
  simp only [hne, Bool.false_eq_true, if_false, lastBlock_concat, hroomb]
  rw [ensure_of (by omega)]
  by_cases hfull : b.nrUsed = 4084
  · rw [if_pos (by omega)]
    cases hσ : σ 0 with
    | none =>
      refine .inl ⟨σ.rest, ?_, 0, hσ⟩
      simp only [appendMemBlock, hσ, Option.map_none, bind, Except.bind]
    | some content =>
      refine .inr ⟨pre ++ [b], ⟨0, content⟩, σ.rest, ?_, by simp, by simp [Block.bytes], fun h i => h (i + 1),
        fun h => ?_, ?_⟩
      · exact forall_mem_append.2 ⟨hb, by simp⟩
      · exact forall_mem_append.2 ⟨(packed_concat.1 h).1, forall_mem_singleton.2 hfull⟩
      · simp only [appendMemBlock, hσ, Option.map_some, bind, Except.bind]
  · rw [if_neg (by omega)]
    exact .inr ⟨pre, b, σ, hb, by omega, rfl, id, fun h => (packed_concat.1 h).1, rfl⟩

theorem writeSequentialLoop_any (buffer : ℤ → UInt8) (σ : Supply) (result : ℤ) (hb : Bounded blocks)
    (hfuel : left < fuel) :
    ∃ blocks' σ' k, writeSequentialLoop buffer fuel blocks σ left result = .ok (blocks', σ', result + (k : ℕ)) ∧
      Bounded blocks' ∧ k ≤ left ∧ fileBytes blocks' = fileBytes blocks ++ window buffer result k ∧
      (k = 0 → blocks' = blocks) ∧ ((∀ i, σ i ≠ none) → k = left ∧ ∀ i, σ' i ≠ none) ∧
      (Dense blocks → Dense blocks') := by
  induction fuel generalizing blocks σ left result with
  | zero => omega
  | succ fuel ih =>
    rcases Nat.eq_zero_or_pos left with rfl | hleft
    · exact ⟨blocks, σ, 0, by simp [writeSequentialLoop], hb, le_rfl, by simp, fun _ => rfl, fun h => ⟨rfl, h⟩, id⟩
    rcases writeSequentialLoop_round buffer fuel σ result hb hleft with
      ⟨σ', hstop, i, hi⟩ | ⟨pre, b, σ', hbounded, hlt, hbytes, hok, hpacked, hstep⟩
    · exact ⟨blocks, σ', 0, by rw [hstop]; simp, hb, Nat.zero_le _, by simp, fun _ => rfl, fun h => absurd hi (h i), id⟩
    rw [fillLastBlock_concat buffer pre result hlt] at hstep
    obtain ⟨n, hn⟩ : ∃ n, n = min (4084 - b.nrUsed) left := ⟨_, rfl⟩
    rw [← hn] at hstep
    have hnext : Bounded (pre ++ [⟨b.nrUsed + n, memcpy b.content b.nrUsed buffer result n⟩]) := by
      refine forall_mem_append.2 ⟨(forall_mem_append.1 hbounded).1, forall_mem_singleton.2 ?_⟩
      dsimp only
      omega
    obtain ⟨blocks', σ'', k, heq, hb', hk, hfile, -, hall, hdense⟩ :=
      ih σ' (result + n) hnext (show left - n < fuel by omega)
    refine ⟨blocks', σ'', n + k, ?_, hb', by omega, ?_, fun h0 => by omega, fun h => ?_, fun h => hdense ?_⟩
    · rw [hstep]
      simp only [bind, Except.bind]
      rw [← Nat.cast_sub (by omega), heq]
      congr 3
      push_cast
      ring
    · have hcopy := bytes_memcpy b buffer result b.nrUsed n _ le_rfl (max_eq_right (by omega)).symm
      rw [← b.bytes_length, splice_length_eq, b.bytes_length] at hcopy
      rw [hfile, ← hbytes]
      simp only [fileBytes_append, fileBytes_cons, fileBytes_nil, append_nil, hcopy, append_assoc]
      rw [← window_add]
    · obtain ⟨hrest, hsupply⟩ := hall (hok h)
      exact ⟨by omega, hsupply⟩
    have hpre := hpacked h.1
    refine ⟨packed_concat.2 ⟨hpre, ?_⟩, forall_mem_append.2 ⟨fun c hc => ?_, forall_mem_singleton.2 ?_⟩⟩
    · dsimp only
      omega
    · rw [hpre c hc]
      omega
    dsimp only
    omega

/-- `k` of the bytes are put over the blocks, as far as `get_mem_block` gives new ones. -/
structure Spreads (σ σ' : Supply) (blocks blocks' : List Block) (iptr left k : ℕ) (w : List UInt8) : Prop where
  bounded : Bounded blocks'
  le : k ≤ left
  bytes : fileBytes blocks' = spread (blocks.map Block.bytes) iptr w
  room : ∀ t, σ t = none → iptr + k ≤ 4084 * (blocks.length + t)
  short : k < left → ∃ t, σ t = none ∧ iptr + k = 4084 * (blocks.length + t)
  same : left = 0 → blocks' = blocks
  supply : (∀ i, σ i ≠ none) → ∀ i, σ' i ≠ none

def KeepsPacked (blocks blocks' : List Block) (left : ℕ) : Prop :=
  Packed blocks → (∀ b ∈ blocks.tail, 1 ≤ b.nrUsed) → Packed blocks' ∧ (0 < left → ∀ b ∈ blocks', 1 ≤ b.nrUsed)

/-- **The loop of `mem_block_raw_write_random` spreads the buffer over the blocks.** -/
theorem writeRandomLoop_spread (buffer : ℤ → UInt8) (fuel : ℕ) (σ : Supply) {iptr : ℕ} (left : ℕ) (result : ℤ)
    (hb : Bounded blocks) (hi : iptr ≤ (blocks.head?.map Block.nrUsed).getD 0)
    (hfuel : blocks.length + 3 * left + (if blocks = [] then 2 else 0) + (if iptr = 4084 then 2 else 0) < fuel) :
    ∃ blocks' σ' k, writeRandomLoop buffer fuel blocks σ iptr left result = .ok (blocks', σ', result + (k : ℕ)) ∧
      Spreads σ σ' blocks blocks' iptr left k (window buffer result k) ∧ KeepsPacked blocks blocks' left := by
  induction fuel generalizing blocks σ iptr left result with
  | zero => omega
  | succ fuel ih =>
    have hroom : iptr ≤ 4084 * blocks.length := by
      cases blocks with
      | nil => exact hi
      | cons b bs =>
        have := hb b mem_cons_self
        have hib : iptr ≤ b.nrUsed := hi
        rw [length_cons]
        omega
    rcases Nat.eq_zero_or_pos left with rfl | hleft
    · refine ⟨blocks, σ, 0, by simp [writeRandomLoop], ⟨hb, le_rfl, ?_, fun t _ => ?_, fun h => absurd h (lt_irrefl 0),
        fun _ => rfl, id⟩, fun h _ => ⟨h, fun h0 => absurd h0 (lt_irrefl 0)⟩⟩
      · rw [window_zero, spread_nil, ← flatMap_def]
        rfl
      · omega
    have hne : left ≠ 0 := Nat.pos_iff_ne_zero.1 hleft
    cases blocks with
    | nil =>
      obtain rfl : iptr = 0 := Nat.le_zero.1 hi
      rw [writeRandomLoop, if_neg (by omega)]
      cases hσ : σ 0 with
      | none =>
        refine ⟨[], σ.rest, 0, ?_, ⟨hb, Nat.zero_le _, rfl, fun t _ => Nat.zero_le _, fun _ => ⟨0, hσ, rfl⟩,
          fun h0 => absurd h0 hne, fun h => absurd hσ (h 0)⟩, fun h _ => ⟨h, by simp⟩⟩
        simp only [appendMemBlock, hσ, Option.map_none, Nat.cast_zero, add_zero]
      | some content =>
        -- a new block, written in the next round
        have hnew : Bounded [⟨0, content⟩] := forall_mem_singleton.2 (Nat.zero_le _)
        obtain ⟨blocks', σ', k, heq, h, hpacked⟩ := @ih [⟨0, content⟩] σ.rest 0 left result hnew le_rfl
          (by simp at hfuel ⊢; omega)
        refine ⟨blocks', σ', k, ?_, ⟨h.bounded, h.le, ?_, fun t ht => ?_, fun hk => ?_, fun h0 => absurd h0 hne,
          fun hok => h.supply fun i => hok (i + 1)⟩, fun _ _ => hpacked (by simp [Packed]) (by simp)⟩
        · simp only [appendMemBlock, hσ, Option.map_some, nil_append]
          exact heq
        · have hempty : spread [[]] 0 (window buffer result k) = window buffer result k := by
            rw [spread]
            split_ifs
            · simp [splice]
            · simp [splice, spread]
          rw [h.bytes]
          exact hempty
        · cases t with
          | zero =>
            rw [hσ] at ht
            cases ht
          | succ t =>
            have := h.room t ht
            rw [length_singleton] at this
            omega
        · obtain ⟨t, ht, heq⟩ := h.short hk
          refine ⟨t + 1, ht, ?_⟩
          rw [length_singleton] at heq
          rw [length_nil]
          omega
    | cons b bs =>
      obtain ⟨hbb, hbs⟩ := forall_mem_cons.1 hb
      have hib : iptr ≤ b.nrUsed := hi
      obtain ⟨n, hn⟩ : ∃ n, n = min (4084 - iptr) left := ⟨_, rfl⟩
      have hmin : min (roomFrom iptr) left = n := by
        rw [roomFrom_natCast (by omega)]
        omega
      have hu : u32 ((iptr : ℤ) + n) = iptr + n := by
        unfold u32
        omega
      have hmax : (if b.nrUsed < iptr + n then iptr + n else b.nrUsed) = max b.nrUsed (iptr + n) := by
        split_ifs <;> omega
      have hcopy := bytes_memcpy b buffer result iptr n (max b.nrUsed (iptr + n)) hib rfl
      obtain ⟨b', hb'⟩ : ∃ b' : Block, ⟨max b.nrUsed (iptr + n), memcpy b.content iptr buffer result n⟩ = b' := ⟨_, rfl⟩
      rw [hb'] at hcopy
      have hnr : b'.nrUsed = max b.nrUsed (iptr + n) := by rw [← hb']
      have hused : b'.nrUsed ≤ 4084 := by omega
      have hpos : 1 ≤ b'.nrUsed := by omega
      rw [writeRandomLoop, if_neg (by omega)]
      simp only [hmin, hu, hmax, hb']
      by_cases hdone : (left : ℤ) - n = 0
      · obtain rfl : n = left := by omega
        rw [if_pos hdone]
        refine ⟨b' :: bs, σ, n, rfl, ⟨forall_mem_cons.2 ⟨hused, hbs⟩, le_rfl, ?_, fun t _ => ?_,
          fun h => absurd h (lt_irrefl _), fun h0 => absurd h0 hne, id⟩, fun h htail => ⟨⟨hused, fun hnil => ?_, h.2.2⟩,
            fun _ => forall_mem_cons.2 ⟨hpos, htail⟩⟩⟩
        · rw [map_cons, spread, window_length, if_pos (by omega), fileBytes_cons, hcopy, ← flatMap_def]
          rfl
        · rw [length_cons]
          omega
        have := h.2.1 hnil
        omega
      rw [if_neg hdone]
      have hfuel' : bs.length + 3 * (left - n) + (if bs = [] then 2 else 0) + (if 0 = 4084 then 2 else 0) < fuel := by
        rw [length_cons, if_neg (cons_ne_nil _ _)] at hfuel
        by_cases hnil : bs = []
        · subst hnil
          by_cases h4 : iptr = 4084 <;> simp [h4] at hfuel ⊢ <;> omega
        rw [if_neg hnil, if_neg (by decide)]
        split_ifs at hfuel <;> omega
      obtain ⟨blocks', σ', k, heq, h, hpacked⟩ := ih σ (left - n) (result + n) hbs (Nat.zero_le _) hfuel'
      rw [← Nat.cast_sub (by omega)]
      simp only [Nat.cast_zero] at heq
      simp only [heq, bind, Except.bind]
      have hk := h.le
      refine ⟨b' :: blocks', σ', n + k, ?_, ⟨forall_mem_cons.2 ⟨hused, h.bounded⟩, by omega, ?_, fun t ht => ?_,
        fun hshort => ?_, fun h0 => absurd h0 hne, h.supply⟩, fun hold htail => ?_⟩
      · push_cast
        rw [add_assoc]
      · have hfull : n = 4084 - iptr := by omega
        rw [map_cons, spread, window_length, fileBytes_cons, hcopy, h.bytes]
        split_ifs with hlast
        · obtain rfl : k = 0 := by omega
          rw [Nat.add_zero, window_zero, spread_nil]
        · rw [window_take, window_drop, ← hfull, min_eq_left (Nat.le_add_right n k), Nat.add_sub_cancel_left]
      · have := h.room t ht
        rw [length_cons]
        omega
      · obtain ⟨t, ht, heq⟩ := h.short (by omega)
        refine ⟨t, ht, ?_⟩
        rw [length_cons]
        omega
      · obtain ⟨hnew, hall⟩ := hpacked hold.2.2 fun c hc => htail c (mem_of_mem_tail hc)
        exact ⟨⟨hused, fun _ => by omega, hnew⟩, fun _ => forall_mem_cons.2 ⟨hpos, hall (by omega)⟩⟩

theorem Spreads.all {σ σ' : Supply} {rest written : List Block} {iptr k : ℕ} {w : List UInt8}
    (h : Spreads σ σ' rest written iptr left k w) (hσ : ∀ i, σ i ≠ none) : k = left := by
  by_contra hne
  obtain ⟨t, ht, -⟩ := h.short (by have := h.le; omega)
  exact hσ t ht

end ZeldaOS
