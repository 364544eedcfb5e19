import ZeldaOS.Machine.Runs
import ZeldaOS.Paging.Frames
import ZeldaOS.Paging.Run

/-!
# Frames behind the areas of a task

`userspace_map_vm_area`, `handle_userspace_page_fault` and `userspace_evict_page`, where a task gets and loses frames.

* `userspaceMapVmArea` and `handleUserspacePageFault`: frames for pages.
-/

namespace ZeldaOS

open Machine

/-- With a record: the frames that `get_page` handed out and that were not passed to `free_page` since. -/
structure FrameState where
  paging : PagingState
  fastPageAddr : ℕ
  handed : List ℕ

def FrameState.getPage (p : PhysicalMemory) (s : FrameState) : Except Fault (FrameState × ℕ) := do
  let (f, page) ← ZeldaOS.getPage p.start p.boundary ⟨s.paging.freePageBitmap, s.fastPageAddr⟩
  .ok (⟨{ s.paging with freePageBitmap := f.bitmap }, f.fastPageAddr,
    if page = 0 then s.handed else page :: s.handed⟩, page)

def FrameState.freePage (s : FrameState) (page : ℕ) : FrameState :=
  { s with
    paging := { s.paging with freePageBitmap := ZeldaOS.freePage s.paging.freePageBitmap page }
    handed := s.handed.erase page }

def VmArea.exactAddr (vma : VmArea) (addr : ℕ) : ℕ := (vma.phyAddr + addr - vma.virtAddr) % 2 ^ 32

/-- The physical address for an address of an area; nothing when `get_page` fails. -/
def areaPage (p : PhysicalMemory) (s : FrameState) (vma : VmArea) (addr : ℕ) :
    Except Fault (FrameState × Option ℕ) :=
  if vma.isExact then .ok (s, some (vma.exactAddr addr))
  else do
    let (s, page) ← s.getPage p
    .ok (s, if page = 0 then none else some page)

/-- One page of an area: get the physical address, map it, give the frame back when that fails. -/
def mapAreaPage (p : PhysicalMemory) (s : FrameState) (task : TaskMem) (vma : VmArea) (addr : ℕ) :
    Except Fault (FrameState × Option ℤ) := do
  let (s, page) ← areaPage p s vma addr
  match page with
  | none => .ok (s, none)
  | some page => do
    let (paging, rc) ← userspaceMapPage s.paging task (.ofNat addr) (.ofNat page)
      vma.writePermission.toUInt8 vma.pageWritethrough.toUInt8 vma.pageCachedisable.toUInt8
    if rc = 0 ∨ vma.isExact = true then .ok ({ s with paging }, some rc)
    else .ok (FrameState.freePage { s with paging } page, some rc)

/-- The loop of `userspace_map_vm_area`; the addresses are of type `uint64_t`. -/
def mapVmAreaLoop (p : PhysicalMemory) (task : TaskMem) (vma : VmArea) :
    (fuel : ℕ) → FrameState → (addr : ℕ) → (partiallyMapped : Bool) → Except Fault (FrameState × ℤ)
  | 0, _, _, _ => .error .diverge
  | fuel + 1, s, addr, partiallyMapped =>
    if addr < (vma.virtAddr + vma.length) % 2 ^ 64 then do
      let (s, rc) ← mapAreaPage p s task vma addr
      if rc = some 0 then mapVmAreaLoop p task vma fuel s (addr + pageSize) true
      else .ok (s, if partiallyMapped then -errPartial else -errOutOfMemory)
    else .ok (s, 0)

def userspaceMapVmArea (p : PhysicalMemory) (s : FrameState) (task : TaskMem) (vma : VmArea) :
    Except Fault (FrameState × ℤ) :=
  if vma ∈ task.vmaList then
    mapVmAreaLoop p task vma (vma.length / pageSize + 1) s vma.virtAddr false
  else .ok (s, -errInvalidArg)

/-- `handle_userspace_page_fault`. It does not look at the error code. -/
def handleUserspacePageFault (p : PhysicalMemory) (s : FrameState) (task : TaskMem)
    (privilegeLevel : ℕ) (linearAddr : UInt32) : Except Fault (FrameState × ℤ) := do
  ensure (task.pageDirectory ≠ 0)
  ensure (privilegeLevel = 3)
  ensure (userspaceBottom ≤ linearAddr.toNat)
  match searchUserspaceVmaByAddr task.vmaList linearAddr.toNat with
  | none => .ok (s, -errNotFound)
  | some vma => do
    let (s, rc) ← mapAreaPage p s task vma linearAddr.toNat
    .ok (s, rc.getD (-errOutOfResource))

def freedFrame (s : PagingState) (task : TaskMem) (virt : UInt32) : Option ℕ :=
  match searchUserspaceVmaByAddr task.vmaList virt.toNat with
  | none => none
  | some vma => if vma.isExact then none else lookup s.mem task.pageDirectory (pageOf virt)

def FrameState.evictPage (s : FrameState) (task : TaskMem) (virt : UInt32) (reclaim : Bool) :
    Except Fault (FrameState × ℤ) := do
  let (paging, rc) ← userspaceEvictPage s.paging task virt reclaim
  .ok ({ s with
    paging
    handed := ((freedFrame s.paging task virt).map s.handed.erase).getD s.handed }, rc)

variable {τ : Type} [DecidableEq τ]

/-- With the cursor of `get_page`, and the frames that each task was handed. -/
structure FrameSystem (τ : Type) where
  paging : PagingState
  fastPageAddr : ℕ
  handed : τ → List ℕ

inductive FrameOp (τ : Type) where
  | mapVmArea (t : τ) (vma : VmArea)
  | fault (t : τ) (linearAddr : UInt32)
  | evict (t : τ) (virt : UInt32) (reclaim : Bool)

def FrameState.within (r : FrameState) (handed : τ → List ℕ) (t : τ) : FrameSystem τ :=
  ⟨r.paging, r.fastPageAddr, Function.update handed t r.handed⟩

def FrameSystem.call (s : FrameSystem τ) (t : τ) (f : FrameState → Except Fault (FrameState × ℤ)) :
    Except Fault (FrameSystem τ) := do
  let (r, _) ← f ⟨s.paging, s.fastPageAddr, s.handed t⟩
  .ok (r.within s.handed t)

def FrameSystem.step (p : PhysicalMemory) (task : τ → TaskMem) (s : FrameSystem τ) :
    FrameOp τ → Except Fault (FrameSystem τ)
  | .mapVmArea t vma => s.call t fun r => userspaceMapVmArea p r (task t) vma
  | .fault t linearAddr => s.call t fun r => handleUserspacePageFault p r (task t) 3 linearAddr
  | .evict t virt reclaim => s.call t fun r => r.evictPage (task t) virt reclaim

def Boot.frames {τ : Type} (b : Boot τ) (fastPageAddr : ℕ) : FrameSystem τ :=
  ⟨b.start.state, fastPageAddr, fun _ => []⟩

end ZeldaOS
