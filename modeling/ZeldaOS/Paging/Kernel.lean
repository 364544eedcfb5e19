import ZeldaOS.Paging.Sound

/-!
# Pages of the kernel

The areas of the kernel in `memory/kernel_vma.c`, and `kernel_map_page` of `memory/paging.c`.

* `Sound.kernelMapPage`: a page of the kernel is mapped.
-/

namespace ZeldaOS

open Machine

structure KernelVma where
  present : Bool
  isExact : Bool
  writePermission : Bool
  pageWritethrough : Bool
  pageCachedisable : Bool
  virtAddr : UInt32
  phyAddr : UInt32
  length : UInt32
  deriving DecidableEq

/-- The first MiB, the kernel image, the page inventory and the heap. -/
def kernelVmaInit (sysMemStart : UInt32) : List KernelVma :=
  [⟨true, true, true, false, false, 0, 0, 0x100000⟩,
    ⟨true, true, true, false, false, 0x100000, 0x100000, sysMemStart - 0x100000⟩,
    ⟨true, true, true, false, false, 0x4000000, 0x4000000, 0x8000000 - 0x4000000⟩,
    ⟨true, false, true, false, false, 0x8000000, 0, 0x1F000000 - 0x8000000⟩]

/-- The address is in the area; the end of an area is a `uint32_t`. -/
def KernelVma.Covers (vma : KernelVma) (addr : UInt32) : Prop :=
  vma.present = true ∧ vma.virtAddr ≤ addr ∧ addr < vma.virtAddr + vma.length

instance KernelVma.decidableCovers (vma : KernelVma) (addr : UInt32) : Decidable (vma.Covers addr) :=
  inferInstanceAs (Decidable (_ ∧ _))

def searchKernelVma (vmas : List KernelVma) (virtAddr : UInt32) : Option KernelVma :=
  vmas.find? fun vma => decide (vma.Covers virtAddr)

theorem exists_find? {α : Type} {q : α → Bool} {l : List α} (h : ∃ a ∈ l, q a = true) :
    ∃ a ∈ l, q a = true ∧ l.find? q = some a := by
  obtain ⟨a, ha⟩ := Option.isSome_iff_exists.1 (List.find?_isSome.2 h)
  exact ⟨a, List.mem_of_find?_eq_some ha, List.find?_some ha, ha⟩

theorem searchKernelVma_some {vmas : List KernelVma} {addr : UInt32} (h : ∃ vma ∈ vmas, vma.Covers addr) :
    ∃ vma ∈ vmas, vma.Covers addr ∧ searchKernelVma vmas addr = some vma := by
  obtain ⟨vma, hv, hc, hfind⟩ := exists_find? (q := fun vma : KernelVma => decide (vma.Covers addr)) (by simpa using h)
  exact ⟨vma, hv, of_decide_eq_true hc, hfind⟩

/-- The branch of `kernel_map_page` that supplies a missing page table. -/
def provideKernelTable (s : PagingState) (kernelPageDirectory : ℕ) (virt : UInt32) :
    Except Fault PagingState :=
  if present (entryAt s.mem kernelPageDirectory (pdIndex virt)) then .ok s
  else do
    let (base, pageTable) ← getBasePage s.base
    ensure (pageTable ≠ 0)
    let mem := s.mem.fill pageTable pageSize 0
    .ok { s with
      base
      calls := .got pageTable :: s.calls
      mem := setEntry mem kernelPageDirectory (pdIndex virt) (createPde32 1 0 0 0 pageTable) }

def kernelMapPage (s : PagingState) (kernelPageDirectory : ℕ) (virt phy : UInt32)
    (writePermission pageWritethrough pageCachedisable : UInt32) : Except Fault PagingState := do
  let s ← provideKernelTable s kernelPageDirectory virt
  let pde := entryAt s.mem kernelPageDirectory (pdIndex virt)
  ensure (present pde)
  let mem := setEntry s.mem (frameAddr pde) (ptIndex virt)
    (createPte32 writePermission.toNat 0 pageWritethrough.toNat pageCachedisable.toNat phy.toNat)
  let pte := entryAt mem (frameAddr pde) (ptIndex virt)
  ensure (present pte)
  ensure (frameAddr pte = phy.toNat / 4096 * 4096)
  .ok { s with mem }

section
variable {τ : Type} {dir : τ → ℕ} {s : PagingState}

def TakesBasePage (b b' : BasePages) : Prop :=
  b' = b ∨ ∃ q, IsBasePage q ∧ ¬occupied b q ∧ b'.bitmap = b.bitmap.set (basePageOffset q)

theorem Sound.provideKernelTable (h : Sound dir s.mem s.base s.calls)
    (hbase : ∃ q, IsBasePage q ∧ ¬occupied s.base q) (t : τ) (virt : UInt32) :
    ∃ s', ZeldaOS.provideKernelTable s (dir t) virt = .ok s' ∧ Sound dir s'.mem s'.base s'.calls ∧
      present (entryAt s'.mem (dir t) (pageOf virt / 1024)) ∧ s'.freePageBitmap = s.freePageBitmap ∧
      TakesBasePage s.base s'.base := by
  have hlt := pageOf_lt virt
  rw [ZeldaOS.provideKernelTable, pdIndex_eq]
  by_cases hp : present (entryAt s.mem (dir t) (pageOf virt / 1024))
  · exact ⟨s, if_pos hp, h, hp, rfl, .inl rfl⟩
  rw [if_neg hp]
  obtain ⟨b', p, hget, hspec⟩ := getBasePage_spec h.cursor
  have hp0 : p ≠ 0 := by
    intro h0
    obtain ⟨q, hq, hfree⟩ := hbase
    exact hfree ((hspec.full h0).2 q hq)
  have hframe := frameAddr_createPde32 0 (hspec.found hp0).1
  obtain ⟨hsound, hpresent, -⟩ := h.addTable (by omega) hp hspec hp0
    (createEntry32_lt 1 0 0 0 p) (present_createEntry32 1 0 0 0 p) hframe
  simp only [hget, ensure_of hp0, bind, Except.bind]
  exact ⟨_, rfl, hsound, hpresent, rfl, .inr ⟨p, hspec.found hp0⟩⟩

theorem Sound.kernelMapPage (h : Sound dir s.mem s.base s.calls)
    (hbase : ∃ q, IsBasePage q ∧ ¬occupied s.base q) (t : τ) (virt phy : UInt32)
    (writePermission pageWritethrough pageCachedisable : UInt32) :
    ∃ s', ZeldaOS.kernelMapPage s (dir t) virt phy writePermission pageWritethrough pageCachedisable = .ok s' ∧
      MapsTo s'.mem (dir t) (pageOf virt) (createPte32 writePermission.toNat 0 pageWritethrough.toNat
        pageCachedisable.toNat phy.toNat) ∧
      Sound dir s'.mem s'.base s'.calls ∧ s'.freePageBitmap = s.freePageBitmap ∧ TakesBasePage s.base s'.base := by
  obtain ⟨s1, hprov, h1, hpde, hbitmap, htakes⟩ := h.provideKernelTable hbase t virt
  set e := createPte32 writePermission.toNat 0 pageWritethrough.toNat pageCachedisable.toNat phy.toNat
  have hlt : e < 2 ^ 32 := createEntry32_lt _ _ _ _ _
  have hep : present e := present_createEntry32 _ _ _ _ _
  have hframe : frameAddr e = phy.toNat / 4096 * 4096 := frameAddr_createEntry32 _ _ _ _ phy.toNat_lt
  have hread := h1.read_setPte (pageOf_lt virt) hpde hlt
  refine ⟨⟨setEntry s1.mem (tableOf s1.mem (dir t) (pageOf virt / 1024)) (pageOf virt % 1024) e,
    s1.base, s1.freePageBitmap, s1.calls⟩, ?_, h1.setPte_mapsTo (pageOf_lt virt) hpde hlt,
    (h1.setPte (pageOf_lt virt) hpde hlt).1, hbitmap, htakes⟩
  rw [tableOf] at hread
  simp [ZeldaOS.kernelMapPage, hprov, bind, Except.bind, pdIndex_eq, ptIndex_eq, ensure_of hpde, e, hread,
    ensure_of hep, ensure_of hframe, tableOf]

end

end ZeldaOS
