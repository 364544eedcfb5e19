import ZeldaOS.Machine.Bitmap
import ZeldaOS.Machine.Bytes
import ZeldaOS.Posix

/-!
# Page tables and base pages

`memory/paging.c` and `kernel/task_paging.c` over one byte memory, with the allocator of the pages that hold the
tables.

* `userspaceMapPage` and `userspaceEvictPage`: the tables of a task.
-/

namespace ZeldaOS

open Machine

def pageSize : ℕ := 4096

/-- `PAGE_SPACE_BOTTOM` and `PAGE_SPACE_TOP`: the range of the base pages. -/
def pageSpaceBottom : ℕ := 0x4000000
@[inherit_doc pageSpaceBottom] def pageSpaceTop : ℕ := 0x8000000

def userspaceBottom : ℕ := 0x40000000

/-! ## Base pages -/

/-- A set bit is an occupied page; with `fast_base_page_addr`. -/
structure BasePages where
  bitmap : Bitmap
  fastBasePageAddr : ℕ

def basePageOffset (page : ℕ) : ℕ := (page - pageSpaceBottom) >>> 12

/-- The loop of the two searches: the first page whose bit is clear, or one beyond the range. -/
def searchBasePage (bitmap : Bitmap) : (fuel page : ℕ) → Except Fault ℕ
  | 0, _ => .error .diverge
  | fuel + 1, page =>
    if page < pageSpaceTop then
      if bitmap.test (basePageOffset page) then searchBasePage bitmap fuel (page + pageSize)
      else .ok page
    else .ok page

def basePageFuel : ℕ := (pageSpaceTop - pageSpaceBottom) / pageSize + 1

/-- `get_base_page_fast`. The cursor stays at the page it hands out. -/
def getBasePageFast (b : BasePages) : Except Fault (BasePages × ℕ) := do
  let start :=
    if b.fastBasePageAddr < pageSpaceBottom ∨ pageSpaceTop ≤ b.fastBasePageAddr then pageSpaceBottom
    else b.fastBasePageAddr
  let page ← searchBasePage b.bitmap basePageFuel start
  if page < pageSpaceTop then .ok (⟨b.bitmap.set (basePageOffset page), page⟩, page)
  else .ok (⟨b.bitmap, page⟩, 0)

def getBasePageSlow (b : BasePages) : Except Fault (BasePages × ℕ) := do
  let page ← searchBasePage b.bitmap basePageFuel pageSpaceBottom
  if page < pageSpaceTop then
    .ok (⟨b.bitmap.set (basePageOffset page), b.fastBasePageAddr⟩, page)
  else .ok (b, 0)

def getBasePage (b : BasePages) : Except Fault (BasePages × ℕ) := do
  let (b, page) ← getBasePageFast b
  if page = 0 then getBasePageSlow b else .ok (b, page)

def freeBasePage (b : BasePages) (page : ℕ) : BasePages :=
  if page < pageSpaceBottom ∨ pageSpaceTop ≤ page then b
  else ⟨b.bitmap.clear (basePageOffset page), b.fastBasePageAddr⟩

/-! ## Entries -/

/-- Both `create_pte32` and `create_pde32`; a bit field keeps the low bit. -/
def createEntry32 (writePermission supervisorPermission writethrough cachedisable frame : ℕ) : ℕ :=
  1 + writePermission % 2 * 2 + supervisorPermission % 2 * 4 + writethrough % 2 * 8 +
    cachedisable % 2 * 16 + (frame >>> 12) % 2 ^ 20 * 4096

def createPte32 := createEntry32

def createPde32 := createEntry32

def present (entry : ℕ) : Prop := entry % 2 = 1

instance (entry : ℕ) : Decidable (present entry) := inferInstanceAs (Decidable (_ = _))

def frameAddr (entry : ℕ) : ℕ := (entry >>> 12) <<< 12

def entryAt (m : Mem) (page i : ℕ) : ℕ := m.read (page + 4 * i) 4

def setEntry (m : Mem) (page i entry : ℕ) : Mem := m.write (page + 4 * i) 4 entry

def pdIndex (virt : UInt32) : ℕ := (virt.toNat >>> 22) &&& 0x3ff
def ptIndex (virt : UInt32) : ℕ := (virt.toNat >>> 12) &&& 0x3ff

def virt2phy (m : Mem) (pageDirectory : ℕ) (virt : UInt32) : ℕ :=
  let pde := entryAt m pageDirectory (pdIndex virt)
  if present pde then
    let pte := entryAt m (frameAddr pde) (ptIndex virt)
    if present pte then frameAddr pte ||| (virt.toNat &&& 0xfff) else 0
  else 0

/-! ## Areas and tasks -/

structure VmArea where
  virtAddr : ℕ
  phyAddr : ℕ
  length : ℕ
  isExact : Bool
  writePermission : Bool
  pageWritethrough : Bool
  pageCachedisable : Bool
  deriving DecidableEq

/-- `search_userspace_vma_by_addr`; the end of an area is a `uint64_t`. -/
def searchUserspaceVmaByAddr (vmas : List VmArea) (vaddr : ℕ) : Option VmArea :=
  vmas.find? fun vma =>
    decide (vma.virtAddr ≤ vaddr) && decide (vaddr < (vma.virtAddr + vma.length) % 2 ^ 64)

structure TaskMem where
  pageDirectory : ℕ
  vmaList : List VmArea

/-- A call of the base page allocator: a page it returned, or a page passed to it. -/
inductive BaseCall where
  | got (page : ℕ)
  | freed (page : ℕ)

/-- The memory, the two bitmaps, and the calls of the base page allocator, last call first. -/
structure PagingState where
  mem : Mem
  base : BasePages
  freePageBitmap : Bitmap
  calls : List BaseCall

def freePage (bitmap : Bitmap) (page : ℕ) : Bitmap := bitmap.clear (page >>> 12)

/-- The branch that supplies a missing page table; `false` without a base page. -/
def providePageTable (s : PagingState) (task : TaskMem) (virt : UInt32) :
    Except Fault (PagingState × Bool) :=
  if present (entryAt s.mem task.pageDirectory (pdIndex virt)) then .ok (s, true)
  else do
    let (base, pageTable) ← getBasePage s.base
    if pageTable = 0 then .ok ({ s with base }, false)
    else
      let mem := s.mem.fill pageTable pageSize 0
      .ok ({ s with
        base
        calls := .got pageTable :: s.calls
        mem := setEntry mem task.pageDirectory (pdIndex virt) (createPde32 1 1 0 0 pageTable) }, true)

def userspaceMapPage (s : PagingState) (task : TaskMem) (virt phy : UInt32)
    (writePermission writethrough cachedisable : UInt8) : Except Fault (PagingState × ℤ) := do
  ensure (task.pageDirectory ≠ 0)
  if virt.toNat < userspaceBottom then .ok (s, -errInvalidArg)
  else
    let (s, provided) ← providePageTable s task virt
    if provided then
      let pde := entryAt s.mem task.pageDirectory (pdIndex virt)
      ensure (present pde)
      let mem := setEntry s.mem (frameAddr pde) (ptIndex virt)
        (createPte32 writePermission.toNat 1 writethrough.toNat cachedisable.toNat phy.toNat)
      let pte := entryAt mem (frameAddr pde) (ptIndex virt)
      ensure (present pte)
      ensure (frameAddr pte = phy.toNat / 4096 * 4096)
      .ok ({ s with mem }, 0)
    else .ok (s, -errOutOfMemory)

def tableInUse (m : Mem) (pageTable : ℕ) : Bool :=
  (List.range 1024).any fun i => decide (present (entryAt m pageTable i))

def reclaimPageTable (s : PagingState) (task : TaskMem) (virt : UInt32) :
    Except Fault (PagingState × ℤ) := do
  ensure (task.pageDirectory ≠ 0)
  let pde := entryAt s.mem task.pageDirectory (pdIndex virt)
  if present pde then
    if tableInUse s.mem (frameAddr pde) then .ok (s, -errBusy)
    else
      .ok ({ s with
        base := freeBasePage s.base (frameAddr pde)
        calls := .freed (frameAddr pde) :: s.calls
        mem := setEntry s.mem task.pageDirectory (pdIndex virt) 0 }, 0)
  else .ok (s, -errNotPresent)

def userspaceEvictPage (s : PagingState) (task : TaskMem) (virt : UInt32) (reclaim : Bool) :
    Except Fault (PagingState × ℤ) := do
  ensure (task.pageDirectory ≠ 0)
  match searchUserspaceVmaByAddr task.vmaList virt.toNat with
  | none => .ok (s, -errNotPresent)
  | some vma =>
    let pde := entryAt s.mem task.pageDirectory (pdIndex virt)
    if present pde then
      let pte := entryAt s.mem (frameAddr pde) (ptIndex virt)
      if present pte then
        let freePageBitmap :=
          if vma.isExact then s.freePageBitmap else freePage s.freePageBitmap (frameAddr pte)
        let s := { s with freePageBitmap, mem := setEntry s.mem (frameAddr pde) (ptIndex virt) 0 }
        if reclaim then do
          let (s, _) ← reclaimPageTable s task virt
          .ok (s, 0)
        else .ok (s, 0)
      else .ok (s, -errNotPresent)
    else .ok (s, -errNotPresent)

end ZeldaOS
