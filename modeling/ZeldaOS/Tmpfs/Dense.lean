import ZeldaOS.Tmpfs.Blocks
import Mathlib.Data.List.GetD

/-!
# Dense block lists

A block list in which every block but the last is full stands for the bytes of its blocks in order.

* `memBlockRawRead_spec`: what a read delivers.
* `bytes_memcpy`: what is stored in a block.
-/

namespace ZeldaOS

open Machine List

/-! ## Buffers -/

def window (f : ℤ → UInt8) (s : ℤ) (n : ℕ) : List UInt8 := (List.range n).map fun i : ℕ => f (s + i)

@[simp] theorem window_length (f : ℤ → UInt8) (s : ℤ) (n : ℕ) : (window f s n).length = n := by
  simp [window]

@[simp] theorem window_zero (f : ℤ → UInt8) (s : ℤ) : window f s 0 = [] := rfl

theorem window_add (f : ℤ → UInt8) (s : ℤ) (n k : ℕ) : window f s (n + k) = window f s n ++ window f (s + n) k := by
  simp [window, range_add, add_assoc, Function.comp_def]

variable {n : ℕ}

theorem window_congr {f g : ℤ → UInt8} {s t : ℤ} (h : ∀ i : ℕ, i < n → f (s + i) = g (t + i)) :
    window f s n = window g t n :=
  map_congr_left fun i hi => h i (mem_range.mp hi)

theorem window_drop (f : ℤ → UInt8) (s : ℤ) (n k : ℕ) : (window f s n).drop k = window f (s + k) (n - k) := by
  rcases le_total k n with h | h
  · obtain ⟨j, rfl⟩ := Nat.exists_eq_add_of_le h
    rw [window_add, drop_left' (window_length _ _ _), Nat.add_sub_cancel_left]
  · rw [Nat.sub_eq_zero_of_le h, window_zero, drop_eq_nil_of_le (by simpa using h)]

theorem window_take (f : ℤ → UInt8) (s : ℤ) (n k : ℕ) : (window f s n).take k = window f s (min k n) := by
  rcases le_total k n with h | h
  · obtain ⟨j, rfl⟩ := Nat.exists_eq_add_of_le h
    rw [window_add, take_left' (window_length _ _ _), min_eq_left h]
  · rw [min_eq_right h, take_of_length_le (by simpa using h)]

def putBytes (buffer : ℤ → UInt8) (pos : ℤ) (xs : List UInt8) : ℤ → UInt8 := fun i =>
  if pos ≤ i ∧ i < pos + xs.length then xs.getD (i - pos).toNat 0 else buffer i

@[simp] theorem putBytes_nil (buffer : ℤ → UInt8) (pos : ℤ) : putBytes buffer pos [] = buffer := by
  funext i
  rw [putBytes, if_neg (by simp)]

theorem putBytes_append (buffer : ℤ → UInt8) (pos : ℤ) (xs ys : List UInt8) :
    putBytes (putBytes buffer pos xs) (pos + xs.length) ys = putBytes buffer pos (xs ++ ys) := by
  funext i
  simp only [putBytes, length_append, Nat.cast_add]
  by_cases h1 : pos + xs.length ≤ i ∧ i < pos + xs.length + ys.length
  · rw [if_pos h1, if_pos (by omega), getD_append_right _ _ _ _ (by omega)]
    congr 1
    omega
  rw [if_neg h1]
  by_cases h2 : pos ≤ i ∧ i < pos + xs.length
  · rw [if_pos h2, if_pos (by omega), getD_append _ _ _ _ (by omega)]
  · rw [if_neg h2, if_neg (by omega)]

theorem memcpy_eq_putBytes (dst : ℤ → UInt8) (d : ℤ) (src : ℤ → UInt8) (s : ℤ) (n : ℕ) :
    memcpy dst d src s n = putBytes dst d (window src s n) := by
  funext i
  simp only [memcpy, putBytes, window_length]
  split_ifs with h
  · have hi : (i - d).toNat < n := by omega
    rw [getD_eq_getElem _ _ (by simpa using hi)]
    simp only [window, getElem_map, getElem_range]
    congr 1
    omega
  · rfl

theorem window_putBytes (buffer : ℤ → UInt8) (pos : ℤ) (xs : List UInt8) :
    window (putBytes buffer pos xs) pos xs.length = xs := by
  refine ext_getElem (by simp) fun i h1 h2 => ?_
  simp only [window, getElem_map, getElem_range, putBytes]
  rw [if_pos (by omega), getD_eq_getElem _ _ (by omega)]
  congr 1
  omega

/-! ## Bytes of a file -/

/-- `ys` written over `xs` at `pos`. -/
def splice (xs : List UInt8) (pos : ℕ) (ys : List UInt8) : List UInt8 :=
  xs.take pos ++ ys ++ xs.drop (pos + ys.length)

def Block.bytes (b : Block) : List UInt8 := window b.content 0 b.nrUsed

def fileBytes (blocks : List Block) : List UInt8 := blocks.flatMap Block.bytes

@[simp] theorem Block.bytes_length (b : Block) : b.bytes.length = b.nrUsed := window_length _ _ _

@[simp] theorem fileBytes_nil : fileBytes [] = [] := rfl

@[simp] theorem fileBytes_cons (b : Block) (bs : List Block) : fileBytes (b :: bs) = b.bytes ++ fileBytes bs := rfl

@[simp] theorem fileBytes_append (bs cs : List Block) :
    fileBytes (bs ++ cs) = fileBytes bs ++ fileBytes cs := flatMap_append

theorem fileBytes_length (blocks : List Block) : (fileBytes blocks).length = (blocks.map Block.nrUsed).sum := by
  simp [fileBytes, length_flatMap]

/-- All blocks but the last are full. -/
def Packed : List Block → Prop
  | [] => True
  | b :: bs => b.nrUsed ≤ 4084 ∧ (bs ≠ [] → b.nrUsed = 4084) ∧ Packed bs

def Dense (blocks : List Block) : Prop := Packed blocks ∧ ∀ b ∈ blocks, 1 ≤ b.nrUsed

variable {blocks : List Block}

theorem Packed.le (h : Packed blocks) : ∀ b ∈ blocks, b.nrUsed ≤ 4084 := by
  induction blocks with
  | nil => simp
  | cons b bs ih =>
    intro c hc
    rcases mem_cons.mp hc with rfl | hc
    · exact h.1
    · exact ih h.2.2 c hc

variable {bs cs : List Block}

theorem packed_append_iff (hne : cs ≠ []) : Packed (bs ++ cs) ↔ (∀ b ∈ bs, b.nrUsed = 4084) ∧ Packed cs := by
  induction bs with
  | nil => simp
  | cons b bs ih =>
    have hnil : bs ++ cs ≠ [] := append_ne_nil_of_right_ne_nil bs hne
    rw [cons_append, Packed, ih, forall_mem_cons, and_assoc]
    constructor
    · rintro ⟨-, hb, h⟩
      exact ⟨hb hnil, h⟩
    rintro ⟨hb, h⟩
    exact ⟨hb.le, fun _ => hb, h⟩

variable {b : Block}

theorem packed_concat : Packed (bs ++ [b]) ↔ (∀ c ∈ bs, c.nrUsed = 4084) ∧ b.nrUsed ≤ 4084 := by
  rw [packed_append_iff (cons_ne_nil b [])]
  simp [Packed]

theorem packed_append (hbs : ∀ b ∈ bs, b.nrUsed = 4084) (hcs : Packed cs) : Packed (bs ++ cs) := by
  induction bs with
  | nil => exact hcs
  | cons b bs ih =>
    have hb := hbs b mem_cons_self
    exact ⟨by omega, fun _ => hb, ih fun c hc => hbs c (mem_cons_of_mem _ hc)⟩

theorem subI32_natCast {a b : ℕ} (h : b ≤ a) : subI32 a b = ((a - b : ℕ) : ℤ) := by
  rw [subI32, if_neg (by omega), if_neg (by omega)]
  omega

/-! ## Reads -/

/-- The calls of `memcpy` stay inside the blocks, and together they put the bytes from the offset on into the buffer. -/
theorem readLoop_spec (hle : ∀ b ∈ blocks, b.nrUsed ≤ 4084) (off left : ℕ) (result : ℤ) :
    ∃ copies r, readLoop blocks off left result = .ok (copies, r) ∧
      (∀ c ∈ copies, c.block ∈ blocks ∧ 0 ≤ c.start ∧ c.start + c.count ≤ c.block.nrUsed) ∧
      (result + (((fileBytes blocks).drop off).take left).length < 2 ^ 31 →
        r = result + (((fileBytes blocks).drop off).take left).length ∧
          ∀ buffer, copyOut buffer copies = putBytes buffer result (((fileBytes blocks).drop off).take left)) := by
  induction blocks generalizing off left result with
  | nil => exact ⟨[], result, rfl, fun c hc => absurd hc not_mem_nil, fun _ => by simp [copyOut]⟩
  | cons b bs ih =>
    have hb := hle b mem_cons_self
    have ih' := ih fun c hc => hle c (mem_cons_of_mem _ hc)
    have hi : i32 b.nrUsed = b.nrUsed := i32_of_lt (by omega)
    rw [readLoop, ensure_of (by omega)]
    simp only [bind, Except.bind, hi]
    by_cases hleft : (left : ℤ) = 0
    · obtain rfl : left = 0 := by omega
      exact ⟨[], result, rfl, fun c hc => absurd hc not_mem_nil, fun _ => by simp [copyOut]⟩
    rw [if_neg hleft]
    have hign : (if (off : ℤ) ≠ 0 then min (b.nrUsed : ℤ) off else 0) = ((min b.nrUsed off : ℕ) : ℤ) := by
      split_ifs <;> omega
    have hoff : off - min b.nrUsed off = off - b.nrUsed := by omega
    have hblock : b.nrUsed - min b.nrUsed off = b.nrUsed - off := by omega
    rw [hign, subI32_natCast (min_le_right _ _), subI32_natCast (min_le_left _ _), hoff, hblock]
    by_cases hbl : ((b.nrUsed - off : ℕ) : ℤ) = 0
    · -- the whole block is skipped
      rw [if_pos hbl]
      have hskip : (b.bytes ++ fileBytes bs).drop off = (fileBytes bs).drop (off - b.nrUsed) := by
        rw [drop_append, drop_eq_nil_of_le (by simp; omega), Block.bytes_length, nil_append]
      rw [fileBytes_cons, hskip]
      obtain ⟨copies, r, hrun, hinside, hput⟩ := ih' (off - b.nrUsed) left result
      exact ⟨copies, r, hrun, fun c hc => ⟨mem_cons_of_mem _ (hinside c hc).1, (hinside c hc).2⟩, hput⟩
    obtain ⟨n, hn⟩ : ∃ n : ℕ, n = min (b.nrUsed - off) left := ⟨_, rfl⟩
    have hmin : min ((b.nrUsed - off : ℕ) : ℤ) left = n := by omega
    have hz : off - b.nrUsed = 0 := by omega
    have hslice : ((fileBytes (b :: bs)).drop off).take left =
        window b.content (min b.nrUsed off : ℕ) n ++ (fileBytes bs).take (left - n) := by
      rw [fileBytes_cons, drop_append, Block.bytes_length, hz, drop_zero,
        take_append, Block.bytes, window_drop, window_take, window_length]
      congr 2 <;> omega
    rw [if_neg hbl, hmin, ensure_of (by omega), subI32_natCast (show n ≤ left by omega), hz]
    obtain ⟨copies, r, hrun, hinside, hput⟩ := ih' 0 (left - n) (subI32 result (-n))
    rw [hrun]
    refine ⟨_, r, rfl, forall_mem_cons.2 ⟨⟨mem_cons_self, Int.natCast_nonneg _, by dsimp only; omega⟩, fun c hc =>
      ⟨mem_cons_of_mem _ (hinside c hc).1, (hinside c hc).2⟩⟩, fun hfit => ?_⟩
    rw [hslice, length_append, window_length, Nat.cast_add] at hfit ⊢
    have hnext : subI32 result (-n) = result + n := by
      rw [subI32, if_neg (by omega), if_neg (by omega), sub_neg_eq_add]
    rw [hnext, drop_zero] at hput
    obtain ⟨rfl, hbuffer⟩ := hput (by omega)
    refine ⟨by omega, fun buffer => ?_⟩
    have hpos : result + n = result + ((window b.content (min b.nrUsed off : ℕ) n).length : ℤ) := by
      rw [window_length]
    rw [copyOut, hbuffer, hpos, ← putBytes_append, ← memcpy_eq_putBytes]

/-- A read below `2 ^ 31` puts the bytes from the offset on into the buffer. -/
theorem memBlockRawRead_spec (hle : ∀ b ∈ blocks, b.nrUsed ≤ 4084) {off left : ℕ} (hoff : off < 2 ^ 31)
    (hlen : (((fileBytes blocks).drop off).take left).length < 2 ^ 31) (buffer : ℤ → UInt8) :
    memBlockRawRead blocks off buffer left = .ok (putBytes buffer 0 (((fileBytes blocks).drop off).take left),
      ((((fileBytes blocks).drop off).take left).length : ℤ)) := by
  obtain ⟨copies, r, hrun, -, hput⟩ := readLoop_spec hle off left 0
  obtain ⟨rfl, hbuffer⟩ := hput (by omega)
  simp only [memBlockRawRead, readCopies, i32_of_lt hoff, hrun, bind, Except.bind, hbuffer, zero_add]

/-! ## Stores -/

theorem minU_natCast {a b : ℕ} (ha : a < 2 ^ 31) (hb : b < 2 ^ 31) : minU a b = (min a b : ℕ) := by
  unfold minU
  rw [u32_natCast (by omega), u32_natCast (by omega)]
  split_ifs <;> omega

theorem roomFrom_natCast (h : n ≤ 4084) : roomFrom n = ((4084 - n : ℕ) : ℤ) := by
  unfold roomFrom blockAvailSize
  have : u32 ((4096 : ℤ) - 12 - n) = 4084 - n := by
    unfold u32
    omega
  rw [this, i32_of_lt (by omega)]

def supplyOf (g : ℕ → ℤ → UInt8) : Supply := fun n => some (g n)

theorem bytes_memcpy (b : Block) (buffer : ℤ → UInt8) (result : ℤ) (iptr n nrUsed : ℕ)
    (hi : iptr ≤ b.nrUsed) (hn : nrUsed = max b.nrUsed (iptr + n)) :
    (⟨nrUsed, memcpy b.content iptr buffer result n⟩ : Block).bytes = splice b.bytes iptr (window buffer result n) := by
  obtain ⟨k, hk⟩ : ∃ k, nrUsed = iptr + n + k := Nat.exists_eq_add_of_le (by omega)
  have h1 : window (memcpy b.content iptr buffer result n) 0 iptr = window b.content 0 iptr :=
    window_congr fun i hi => by rw [memcpy, if_neg (by omega)]
  have h2 : window (memcpy b.content iptr buffer result n) iptr n = window buffer result n :=
    window_congr fun i hi => by
      rw [memcpy, if_pos (by omega)]
      congr 1
      omega
  have h3 : window (memcpy b.content iptr buffer result n) (iptr + n) k =
      window b.content (iptr + n) (b.nrUsed - (iptr + n)) := by
    rw [show b.nrUsed - (iptr + n) = k by omega]
    exact window_congr fun i hi => by rw [memcpy, if_neg (by omega)]
  simp only [Block.bytes, splice, window_take, window_drop, window_length, hk, window_add,
    min_eq_left hi, zero_add, h1, h2, Nat.cast_add, h3]

theorem lastBlock_concat (pre : List Block) (b : Block) : lastBlock (pre ++ [b]) = b := by
  simp [lastBlock]

theorem fillLastBlock_concat (buffer : ℤ → UInt8) (pre : List Block) {left : ℕ} (result : ℤ) (hb : b.nrUsed < 4084) :
    fillLastBlock buffer (pre ++ [b]) left result =
      .ok (pre ++ [⟨b.nrUsed + min (4084 - b.nrUsed) left,
        memcpy b.content b.nrUsed buffer result (min (4084 - b.nrUsed) left : ℕ)⟩],
        (min (4084 - b.nrUsed) left : ℕ)) := by
  obtain ⟨n, hn⟩ : ∃ n, n = min (4084 - b.nrUsed) left := ⟨_, rfl⟩
  have hmin : min (roomFrom b.nrUsed) left = n := by
    rw [roomFrom_natCast hb.le]
    omega
  have hu : u32 ((b.nrUsed : ℤ) + n) = b.nrUsed + n := by
    unfold u32
    omega
  rw [← hn]
  simp only [fillLastBlock, lastBlock_concat, hmin, hu]
  rw [ensure_of (by rw [roomFrom_natCast hb.le]; omega)]
  simp only [bind, Except.bind]
  rw [ensure_of (by unfold blockAvailSize; omega), dropLast_concat]

theorem splice_length_eq (xs ys : List UInt8) : splice xs xs.length ys = xs ++ ys := by
  simp [splice]

theorem splice_append_right (xs ys w : List UInt8) (p : ℕ) :
    splice (xs ++ ys) (xs.length + p) w = xs ++ splice ys p w := by
  simp only [splice, add_assoc, take_length_add_append, drop_length_add_append, append_assoc]

variable {xs w : List UInt8} {p : ℕ}

theorem splice_length (hp : p ≤ xs.length) : (splice xs p w).length = max xs.length (p + w.length) := by
  simp only [splice, length_append, length_take, length_drop]
  omega

theorem splice_nil_right (xs : List UInt8) (p : ℕ) : splice xs p [] = xs := by simp [splice]

variable {ys : List UInt8}

theorem splice_append_left (hp : p ≤ xs.length) (h : p + w.length ≤ xs.length ∨ ys = []) :
    splice (xs ++ ys) p w = splice xs p w ++ ys := by
  rcases h with h | rfl
  · simp only [splice, take_append_of_le_length hp, drop_append_of_le_length h, append_assoc]
  · simp

theorem splice_append_split {v : List UInt8} (hp : p ≤ xs.length) (hle : xs.length ≤ p + w.length)
    (h : xs.length = p + w.length ∨ ys = []) : splice (xs ++ ys) p (w ++ v) = splice xs p w ++ splice ys 0 v := by
  have hdrop : (xs ++ ys).drop (p + (w ++ v).length) = ys.drop v.length := by
    rw [drop_append, drop_eq_nil_of_le (by simp; omega), nil_append]
    rcases h with h | rfl
    · congr 1
      simp
      omega
    · simp
  have hnil : xs.drop (p + w.length) = [] := drop_eq_nil_of_le (by omega)
  simp only [splice, hdrop, take_append_of_le_length hp, hnil]
  simp

end ZeldaOS
