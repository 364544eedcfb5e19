import ZeldaOS.Machine.Bytes

/-!
# The kernel heap

`malloc_align` and `free` of `memory/malloc.c` over byte memory, with the recycle bins in a static array below the
heap.

* `mallocAlign` and `free`: the interface.
-/

set_option autoImplicit false
set_option linter.style.nameCheck false

namespace ZeldaOS

open Machine

def kernelHeapBottom : ℕ := 0x8000000

def kernelHeapTop : ℕ := 0x1F000000

def mallocMagic : ℕ := 0x5555

def recycleBinSize : ℕ := 13

def miscBin : ℕ := 12

/-- Where the linker puts `_recycle_bins`: in the kernel image. -/
structure Bins where
  base : ℕ
  pos : 0 < base
  below : base + recycleBinSize * 16 ≤ kernelHeapBottom

def Bins.addr (b : Bins) (idx : ℕ) : ℕ := b.base + 16 * idx

/-! ## Headers

`struct malloc_header` is `prev`, `next`, `size` and the four bytes of a `struct padding_header`:
a 16-bit `padding` and a 16-bit word with `free` in its lowest bit and `magic` above. -/

def padPadding (m : Mem) (p : ℕ) : ℕ := m.read p 2
def padFree (m : Mem) (p : ℕ) : ℕ := m.read (p + 2) 2 % 2
def padMagic (m : Mem) (p : ℕ) : ℕ := m.read (p + 2) 2 / 2
def setPadPadding (m : Mem) (p v : ℕ) : Mem := m.write p 2 v
def setPadFree (m : Mem) (p v : ℕ) : Mem := m.write (p + 2) 2 (padMagic m p * 2 + v)
def setPadMagic (m : Mem) (p v : ℕ) : Mem := m.write (p + 2) 2 (v * 2 + padFree m p)

def hdrPrev (m : Mem) (hdr : ℕ) : ℕ := m.read hdr 4
def hdrNext (m : Mem) (hdr : ℕ) : ℕ := m.read (hdr + 4) 4
def hdrSize (m : Mem) (hdr : ℕ) : ℕ := m.read (hdr + 8) 4
def hdrFree (m : Mem) (hdr : ℕ) : ℕ := padFree m (hdr + 12)
def hdrMagic (m : Mem) (hdr : ℕ) : ℕ := padMagic m (hdr + 12)
def setPrev (m : Mem) (hdr v : ℕ) : Mem := m.write hdr 4 v
def setNext (m : Mem) (hdr v : ℕ) : Mem := m.write (hdr + 4) 4 v
def setSize (m : Mem) (hdr v : ℕ) : Mem := m.write (hdr + 8) 4 v
def setPadding (m : Mem) (hdr v : ℕ) : Mem := setPadPadding m (hdr + 12) v
def setFree (m : Mem) (hdr v : ℕ) : Mem := setPadFree m (hdr + 12) v
def setMagic (m : Mem) (hdr v : ℕ) : Mem := setPadMagic m (hdr + 12) v

def binLen : List ℤ :=
  [0x10, 0x20, 0x40, 0x80, 0x100, 0x200, 0x400, 0x800, 0x1000, 0x2000, 0x4000, 0x8000]

def lengthToRecycleBinIndex (len : ℤ) : ℕ := binLen.findIdx fun l => decide (len ≤ l)

def nextBlock (m : Mem) (hdr : ℕ) : ℕ :=
  if u32 (hdrSize m hdr + hdr) < kernelHeapTop then u32 (hdrSize m hdr + hdr) else 0

/-- `VALIDATE_ALIGNMENT`: the lowest bit set must be the only one. -/
def validateAlignment (align : ℕ) : Bool :=
  align != 0 && match (List.range 32).find? fun idx => align.testBit idx with
    | none => true
    | some idx => align == 2 ^ idx

/-! ## Freeing -/

/-- Take a chunk out of its bin, as `__malloc` and `__free` both do. -/
def detachChunk (m : Mem) (hdr : ℕ) : Except Fault Mem := do
  let next := hdrNext m hdr
  let prev := hdrPrev m hdr
  ensure (prev ≠ 0)
  let m₁ := setNext m prev (hdrNext m hdr)
  .ok (if next ≠ 0 then setPrev m₁ next (hdrPrev m₁ hdr) else m₁)

/-- The bound for list walks: no bin holds more chunks than the heap has bytes. -/
def walkFuel : ℕ := kernelHeapTop - kernelHeapBottom

/-- The first loop of `__free`: the first chunk that is not smaller. -/
def findNotSmaller (m : Mem) (size : ℕ) : (fuel ptr : ℕ) → Except Fault ℕ
  | 0, _ => .error .diverge
  | fuel + 1, ptr =>
    if ptr = 0 then .ok 0
    else if size ≤ hdrSize m ptr then .ok ptr
    else findNotSmaller m size fuel (hdrNext m ptr)

/-- The second loop of `__free`: the last chunk of the bin, or the bin itself. -/
def findLast (m : Mem) : (fuel ptr : ℕ) → Except Fault ℕ
  | 0, _ => .error .diverge
  | fuel + 1, ptr => if hdrNext m ptr = 0 then .ok ptr else findLast m fuel (hdrNext m ptr)

/-- The first part of `__free`: absorb the next block when it is free. -/
def coalesce (m : Mem) (hdr : ℕ) : Except Fault Mem := do
  let nextHdr := nextBlock m hdr
  ensure (16 ≤ hdrSize m hdr)
  if nextHdr ≠ 0 ∧ hdrFree m nextHdr ≠ 0 then do
    ensure (hdrMagic m nextHdr = mallocMagic)
    let m₁ ← detachChunk m nextHdr
    .ok (setSize m₁ hdr (u32 (hdrSize m₁ hdr + hdrSize m₁ nextHdr)))
  else .ok m

/-- The second part of `__free`: insert the chunk in the bin of its available size. -/
def recycle (b : Bins) (m : Mem) (hdr : ℕ) : Except Fault Mem := do
  let availSize := i32 (u32 (hdrSize m hdr - 16 - 4))
  let bin := b.addr (lengthToRecycleBinIndex availSize)
  let ptr ← findNotSmaller m (hdrSize m hdr) walkFuel (hdrNext m bin)
  let m₁ := setPadding (setFree m hdr 1) hdr 0
  if ptr ≠ 0 then
    let m₂ := setNext (setPrev m₁ hdr (hdrPrev m₁ ptr)) hdr ptr
    let m₃ := setPrev m₂ ptr hdr
    .ok (setNext m₃ (hdrPrev m₃ hdr) hdr)
  else do
    let last ← findLast m₁ walkFuel bin
    .ok (setNext (setNext (setPrev m₁ hdr last) hdr 0) last hdr)

def __free (b : Bins) (m : Mem) (hdr : ℕ) : Except Fault Mem :=
  coalesce m hdr >>= fun m₁ => recycle b m₁ hdr

def free (b : Bins) (m : Mem) (mem : ℕ) : Except Fault Mem := do
  let paddingHdr := u32 (mem - 4)
  ensure (padMagic m paddingHdr = mallocMagic)
  let mallocHdr := u32 (paddingHdr - padPadding m paddingHdr - 16)
  if hdrFree m mallocHdr ≠ 0 then .ok m else __free b m mallocHdr

/-! ## Allocating -/

/-- The space before the user pointer of a chunk, step 2 of `__malloc`. -/
def alignPadding (hdr align : ℕ) : ℕ :=
  let mask := u32 (align - 1)
  let usrPtr := u32 (hdr + 16 + 4)
  if usrPtr &&& mask ≠ 0 then u32 (align - (usrPtr &&& mask : ℕ)) else 0

/-- The headers of the split-off bottom half; its size is taken from the chunk. -/
def splitChunk (m : Mem) (hdr hdr1 left : ℕ) : Mem :=
  let m₁ := setPadding (setFree (setMagic m hdr1 mallocMagic) hdr1 1) hdr1 0
  let m₂ := setNext (setPrev (setSize m₁ hdr1 left) hdr1 0) hdr1 0
  setSize m₂ hdr (u32 (hdrSize m₂ hdr - left))

def occupyChunk (m : Mem) (hdr padding : ℕ) : Mem :=
  let m₁ := setFree (setPadding (setNext (setPrev m hdr 0) hdr 0) hdr padding) hdr 0
  let paddingHdr := u32 (hdr + 16 + padding)
  setPadMagic (setPadFree (setPadPadding m₁ paddingHdr padding) paddingHdr 0) paddingHdr mallocMagic

def carveChunk (freeNull : Mem → Except Fault Mem) (b : Bins) (m : Mem)
    (hdr padding left : ℕ) : Except Fault Mem := do
  let m₁ ← detachChunk m hdr
  let hdr1 := if left > 16 + 4 then u32 (hdr + hdrSize m₁ hdr - left) else 0
  let m₂ := if left > 16 + 4 then splitChunk m₁ hdr hdr1 left else m₁
  let m₃ := occupyChunk m₂ hdr padding
  if hdr1 = 0 then freeNull m₃ else __free b m₃ hdr1

def __malloc (freeNull : Mem → Except Fault Mem) (b : Bins) (m : Mem) (hdr len align : ℕ) :
    Except Fault (Mem × ℕ) := do
  ensure (hdrFree m hdr ≠ 0)
  ensure (hdrMagic m hdr = mallocMagic)
  ensure (validateAlignment align)
  if u32 (len + 16 + 4) > hdrSize m hdr then return (m, 0)
  let padding := alignPadding hdr align
  let usrPtr := u32 (u32 (hdr + 16 + 4) + padding)
  ensure (usrPtr &&& u32 (align - 1) = 0)
  if u32 (len + 16 + 4 + padding) > hdrSize m hdr then return (m, 0)
  let left := u32 (hdrSize m hdr - 16 - 4 - padding - len)
  let m₁ ← carveChunk freeNull b m hdr padding left
  return (m₁, usrPtr)

/-- The inner loop of `malloc_align`: the chunks of one bin, from `addr` on. -/
def mallocFromBin (freeNull : Mem → Except Fault Mem) (b : Bins) (len align : ℕ) (m : Mem) :
    (fuel addr : ℕ) → Except Fault (Mem × ℕ)
  | 0, _ => .error .diverge
  | fuel + 1, addr =>
    if addr = 0 then .ok (m, 0)
    else do
      let (m₁, usrPtr) ← __malloc freeNull b m addr len align
      if usrPtr ≠ 0 then .ok (m₁, usrPtr)
      else mallocFromBin freeNull b len align m₁ fuel (hdrNext m₁ addr)

/-- The outer loop of `malloc_align`, over the `n` bins from `bin` on. -/
def mallocFromBins (freeNull : Mem → Except Fault Mem) (b : Bins) (len align : ℕ) (m : Mem) :
    (n bin : ℕ) → Except Fault (Mem × ℕ)
  | 0, _ => .ok (m, 0)
  | n + 1, bin => do
    let (m₁, usrPtr) ← mallocFromBin freeNull b len align m walkFuel (hdrNext m (b.addr bin))
    if usrPtr ≠ 0 then .ok (m₁, usrPtr) else mallocFromBins freeNull b len align m₁ n (bin + 1)

/-- `malloc_align`; `len` and `align` are the words passed as `int`. -/
def mallocAlign (freeNull : Mem → Except Fault Mem) (b : Bins) (m : Mem) (len align : ℕ) :
    Except Fault (Mem × ℕ) :=
  let binIdx := lengthToRecycleBinIndex (i32 len)
  mallocFromBins freeNull b len align m (recycleBinSize - binIdx) binIdx

def mallocInit (b : Bins) (m : Mem) : Mem :=
  let m₁ := (m.fill b.base (recycleBinSize * 16) 0).fill kernelHeapBottom 16 0
  let m₂ := setNext (setPrev m₁ kernelHeapBottom 0) kernelHeapBottom 0
  let m₃ := setPadding (setSize m₂ kernelHeapBottom (kernelHeapTop - kernelHeapBottom)) kernelHeapBottom 0
  let m₄ := setMagic (setFree m₃ kernelHeapBottom 1) kernelHeapBottom mallocMagic
  setNext (setPrev m₄ kernelHeapBottom (b.addr miscBin)) (b.addr miscBin) kernelHeapBottom

end ZeldaOS
