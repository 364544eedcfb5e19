import ZeldaOS.Machine.Bytes
import ZeldaOS.Posix

/-!
# Memory blocks of tmpfs files

`filesystem/memfs_blocking.c` and the file operations of `filesystem/memfs.c`. A file is a list of blocks of
`BLOCK_AVAIL_SIZE` bytes behind a header that records its size.

* `tmpfsReadFile`, `tmpfsWriteFile`, `tmpfsFileTruncate`: the interface.
-/

namespace ZeldaOS

open Machine

def blockAvailSize : ℤ := 4096 - 12

/-! ## Blocks -/

/-- A memory block: `nr_used` and the bytes from `content` on. -/
structure Block where
  nrUsed : ℕ
  content : ℤ → UInt8

/-- The block that heads a file: `nr_used` is its size. -/
structure MemBlockHdr where
  nrUsed : ℕ
  blocks : List Block

/-- What the coming calls of `malloc_align` return: the bytes found there, or `NULL`. -/
def Supply := ℕ → Option (ℤ → UInt8)

def Supply.rest (σ : Supply) : Supply := fun n => σ (n + 1)

/-- `get_mem_block` and `list_append`; the new header is zeroed. -/
def appendMemBlock (blocks : List Block) (σ : Supply) : Option (List Block) × Supply :=
  ((σ 0).map fun content => blocks ++ [⟨0, content⟩], σ.rest)

def memcpy (dst : ℤ → UInt8) (d : ℤ) (src : ℤ → UInt8) (s n : ℤ) : ℤ → UInt8 := fun i =>
  if d ≤ i ∧ i < d + n then src (s + (i - d)) else dst i

/-- `MIN` of two operands that C compares as unsigned. -/
def minU (a b : ℤ) : ℤ := if u32 a < u32 b then a else b

/-- `BLOCK_AVAIL_SIZE - iptr`, computed unsigned and stored in an `int32_t`. -/
def roomFrom (iptr : ℤ) : ℤ := i32 (u32 (blockAvailSize - iptr))

/-- `a - b` in an `int32_t`, which overflows upwards only if `b` is negative, and downwards only if it is not. -/
def subI32 (a b : ℤ) : ℤ :=
  if b < 0 ∧ 2147483648 ≤ a - b then a - b - 4294967296
  else if 0 ≤ b ∧ a - b < -2147483648 then a - b + 4294967296
  else a - b

theorem subI32_eq_i32 {a b : ℤ} (ha : -2147483648 ≤ a ∧ a < 2147483648) (hb : -2147483648 ≤ b ∧ b < 2147483648) :
    subI32 a b = i32 (u32 (a - b)) := by
  unfold subI32 i32 u32
  split_ifs <;> omega

def lastBlock (blocks : List Block) : Block := blocks.getLastD ⟨0, fun _ => 0⟩

/-- Copy as much of the buffer as fits into the last block, and count the bytes. -/
def fillLastBlock (buffer : ℤ → UInt8) (blocks : List Block) (left result : ℤ) :
    Except Fault (List Block × ℤ) := do
  let block := lastBlock blocks
  ensure (0 < roomFrom block.nrUsed)
  let n := min (roomFrom block.nrUsed) left
  let nrUsed := u32 (block.nrUsed + n)
  ensure (nrUsed ≤ blockAvailSize)
  .ok (blocks.dropLast ++ [⟨nrUsed, memcpy block.content block.nrUsed buffer result n⟩], n)

/-! ## Writes -/

def writeSequentialLoop (buffer : ℤ → UInt8) :
    (fuel : ℕ) → List Block → Supply → (left result : ℤ) → Except Fault (List Block × Supply × ℤ)
  | 0, _, _, _, _ => .error .diverge
  | fuel + 1, blocks, σ, left, result =>
    if left ≤ 0 then .ok (blocks, σ, result)
    else
      -- a first block for an empty list
      match if blocks.isEmpty then appendMemBlock blocks σ else (some blocks, σ) with
      | (none, σ₁) => .ok (blocks, σ₁, result)
      | (some blocks₁, σ₁) => do
        ensure (0 ≤ roomFrom (lastBlock blocks₁).nrUsed)
        -- a new block when the last one is full
        match if roomFrom (lastBlock blocks₁).nrUsed = 0 then appendMemBlock blocks₁ σ₁
          else (some blocks₁, σ₁) with
        | (none, σ₂) => .ok (blocks₁, σ₂, result)
        | (some blocks₂, σ₂) => do
          let (blocks₃, n) ← fillLastBlock buffer blocks₂ left result
          writeSequentialLoop buffer fuel blocks₃ σ₂ (left - n) (result + n)

def memBlockRawWriteSequential (blocks : List Block) (σ : Supply) (buffer : ℤ → UInt8) (size : ℤ) :
    Except Fault (List Block × Supply × ℤ) := do
  ensure (0 ≤ size)
  if size = 0 then .ok (blocks, σ, 0)
  else writeSequentialLoop buffer (size.toNat + 1) blocks σ size 0

/-- The loop that skips `offset_left` bytes: the blocks passed, those from `current_block` on, `block_iptr` and what is
left of the offset. -/
def skipBlocks (skip : Block → ℤ) : ℤ → List Block → List Block × List Block × ℤ × ℤ
  | offsetLeft, [] => ([], [], 0, offsetLeft)
  | offsetLeft, b :: bs =>
    let ignored := if offsetLeft ≠ 0 then minU offsetLeft (skip b) else 0
    if subI32 offsetLeft ignored = 0 then ([], b :: bs, ignored, 0)
    else
      let (passed, rest, iptr, left) := skipBlocks skip (subI32 offsetLeft ignored) bs
      (b :: passed, rest, iptr, left)

/-- The loop that appends blocks: the new blocks, `block_iptr` and what is left of the offset. -/
def extendBlocks : (fuel : ℕ) → Supply → ℤ → Except Fault (List Block × Supply × ℤ × ℤ)
  | 0, _, _ => .error .diverge
  | fuel + 1, σ, offsetLeft =>
    if offsetLeft ≤ 0 then .ok ([], σ, 0, offsetLeft)
    else
      match σ 0 with
      | none => .ok ([], σ.rest, 0, offsetLeft)
      | some content =>
        let ignored := minU blockAvailSize offsetLeft
        let block : Block := ⟨u32 ignored, content⟩
        if offsetLeft - ignored = 0 then .ok ([block], σ.rest, ignored, 0)
        else do
          let (blocks, σ', iptr, left) ← extendBlocks fuel σ.rest (offsetLeft - ignored)
          .ok (block :: blocks, σ', iptr, left)

def writeRandomLoop (buffer : ℤ → UInt8) :
    (fuel : ℕ) → List Block → Supply → (iptr left result : ℤ) → Except Fault (List Block × Supply × ℤ)
  | 0, _, _, _, _, _ => .error .diverge
  | fuel + 1, blocks, σ, iptr, left, result =>
    if left ≤ 0 then .ok (blocks, σ, result)
    else
      match blocks with
      | b :: bs =>
        let n := min (roomFrom iptr) left
        let nrUsed := if b.nrUsed < u32 (iptr + n) then u32 (iptr + n) else b.nrUsed
        let b' : Block := ⟨nrUsed, memcpy b.content iptr buffer result n⟩
        if left - n = 0 then .ok (b' :: bs, σ, result + n)
        else do
          let (bs', σ', result') ← writeRandomLoop buffer fuel bs σ 0 (left - n) (result + n)
          .ok (b' :: bs', σ', result')
      | [] =>
        match appendMemBlock [] σ with
        | (none, σ₁) => .ok ([], σ₁, result)
        | (some blocks₁, σ₁) => writeRandomLoop buffer fuel blocks₁ σ₁ 0 left result

def memBlockRawWriteRandom (blocks : List Block) (σ : Supply) (offset : ℕ) (buffer : ℤ → UInt8)
    (size : ℤ) : Except Fault (List Block × Supply × ℤ) := do
  let (passed, rest, iptr, left) := skipBlocks (fun b => i32 b.nrUsed) (i32 offset) blocks
  let (new, σ₁, iptr₁, left₁) ← extendBlocks (offset + 1) σ left
  if left₁ ≠ 0 then .ok (passed ++ rest ++ new, σ₁, 0)
  else do
    -- the current block is the last of the new ones, or the one found in the list
    let (passed₁, rest₁, iptr₂) :=
      if new.isEmpty then (passed, rest, iptr)
      else (passed ++ rest ++ new.dropLast, new.getLast?.toList, iptr₁)
    let (written, σ₂, result) ← writeRandomLoop buffer (rest₁.length + 3 * size.toNat + 5) rest₁ σ₁ iptr₂ size 0
    .ok (passed₁ ++ written, σ₂, result)

/-! ## Reads -/

/-- A `memcpy` out of a block: where the bytes go, the index of the first one and their number. -/
structure BlockCopy where
  block : Block
  dest : ℤ
  start : ℤ
  count : ℤ

/-- The loop of `mem_block_raw_read`: the calls of `memcpy`, and the result. -/
def readLoop : List Block → (offsetLeft left result : ℤ) → Except Fault (List BlockCopy × ℤ)
  | [], _, _, result => .ok ([], result)
  | b :: bs, offsetLeft, left, result => do
    ensure (0 ≤ left)
    if left = 0 then .ok ([], result)
    else
      let ignored := if offsetLeft ≠ 0 then min (i32 b.nrUsed) offsetLeft else 0
      let blockLeft := subI32 (i32 b.nrUsed) ignored
      if blockLeft = 0 then readLoop bs (subI32 offsetLeft ignored) left result
      else do
        let n := min blockLeft left
        ensure (n ≠ 0)
        let (copies, r) ← readLoop bs (subI32 offsetLeft ignored) (subI32 left n) (subI32 result (-n))
        .ok (⟨b, result, ignored, n⟩ :: copies, r)

/-- The buffer after the calls of `memcpy`. -/
def copyOut (buffer : ℤ → UInt8) : List BlockCopy → ℤ → UInt8
  | [] => buffer
  | c :: cs => copyOut (memcpy buffer c.dest c.block.content c.start c.count) cs

/-- The calls of `memcpy` that `mem_block_raw_read` makes, and its result. -/
def readCopies (blocks : List Block) (offset : ℕ) (size : ℤ) : Except Fault (List BlockCopy × ℤ) :=
  readLoop blocks (i32 offset) size 0

/-- `mem_block_raw_read`: the buffer and the number of bytes read. -/
def memBlockRawRead (blocks : List Block) (offset : ℕ) (buffer : ℤ → UInt8) (size : ℤ) :
    Except Fault ((ℤ → UInt8) × ℤ) := do
  let (copies, result) ← readCopies blocks offset size
  .ok (copyOut buffer copies, result)

/-! ## Truncation -/

/-- The last part of `mem_block_raw_truncate`: cut the current block and release what follows, and the block itself when
nothing of it is left. -/
def cutBlocks : List Block → (iptr : ℤ) → List Block × List Block
  | [], _ => ([], [])
  | b :: bs, iptr =>
    if u32 iptr ≠ 0 then ([{ b with nrUsed := u32 iptr }], bs)
    else ([], { b with nrUsed := u32 iptr } :: bs)

/-- `mem_block_raw_truncate`: the blocks, the blocks released, and the result. -/
def memBlockRawTruncate (blocks : List Block) (σ : Supply) (offset : ℕ) :
    Except Fault (List Block × List Block × Supply × ℤ) := do
  let (passed, rest, iptr, left) := skipBlocks (fun _ => blockAvailSize) (i32 offset) blocks
  let (new, σ₁, iptr₁, left₁) ← extendBlocks (offset + 1) σ left
  if 0 < left₁ then .ok (passed ++ rest ++ new, [], σ₁, -errOutOfMemory)
  else
    let (passed₁, rest₁, iptr₂) :=
      if new.isEmpty then (passed, rest, iptr)
      else (passed ++ rest ++ new.dropLast, new.getLast?.toList, iptr₁)
    let (kept, released) := cutBlocks rest₁ iptr₂
    .ok (passed₁ ++ kept, released, σ₁, 0)

def tmpfsReadFile (priv : Option MemBlockHdr) (offset : ℕ) (buffer : ℤ → UInt8) (size : ℤ) :
    Except Fault ((ℤ → UInt8) × ℤ) :=
  match priv with
  | none => .ok (buffer, -errGeneric)
  | some hdr => memBlockRawRead hdr.blocks offset buffer size

def tmpfsFileSize (priv : Option MemBlockHdr) : ℕ := (priv.map MemBlockHdr.nrUsed).getD 0

def tmpfsWriteFile (priv : Option MemBlockHdr) (σ : Supply) (offset : ℕ) (buffer : ℤ → UInt8)
    (size : ℤ) : Except Fault (Option MemBlockHdr × Supply × ℤ) :=
  match priv with
  | none => .ok (none, σ, -errGeneric)
  | some hdr => do
    let (blocks, σ₁, result) ←
      if hdr.nrUsed = offset then memBlockRawWriteSequential hdr.blocks σ buffer size
      else memBlockRawWriteRandom hdr.blocks σ offset buffer size
    let nrUsed := if 0 ≤ result then max (u32 (offset + result)) hdr.nrUsed else hdr.nrUsed
    .ok (some ⟨nrUsed, blocks⟩, σ₁, result)

def tmpfsFileTruncate (priv : Option MemBlockHdr) (σ : Supply) (offset : ℕ) :
    Except Fault (Option MemBlockHdr × Supply × ℤ) :=
  match priv with
  | none => .ok (none, σ, -errGeneric)
  | some hdr => do
    let (blocks, _, σ₁, result) ← memBlockRawTruncate hdr.blocks σ offset
    if result ≠ 0 then .ok (some { hdr with blocks := blocks }, σ₁, -errGeneric)
    else .ok (some ⟨offset, blocks⟩, σ₁, 0)

end ZeldaOS
