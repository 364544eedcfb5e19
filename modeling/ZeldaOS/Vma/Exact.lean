import ZeldaOS.Vma.Layout
import ZeldaOS.Vma.Premap

/-!
# Exact areas and their pages

Runs of `kernel_map_vma` with lengths in whole pages.

* `exact_areas_consistent`: exact mappings are page consistent.
-/

namespace ZeldaOS

open Machine List

/-! ## Runs -/

/-- The table, and the calls with the addresses that they returned. -/
structure MapHistory where
  memory : KernelMemory
  calls : List (MapVmaArgs × UInt32)

def MapHistory.step (p : PhysicalMemory) (kernelPageDirectory : ℕ) (h : MapHistory) (args : MapVmaArgs) :
    Except Fault MapHistory := do
  let (memory, virtAddr) ← kernelMapVma p kernelPageDirectory h.memory args
  .ok ⟨memory, (args, virtAddr) :: h.calls⟩

def TouchesPage (vma : KernelVma) (page : ℕ) : Prop := ∃ a, vma.Contains a ∧ a / 4096 = page

/-- A page fault at `a` ends with `a` mapped to `phy`, for all page tables with a base page left. -/
def FaultMaps (p : PhysicalMemory) (vmas : List VmaSlot) (a phy : UInt32) : Prop :=
  ∀ (τ : Type) (dir : τ → ℕ) (t : τ) (sigReturn errorcode : UInt32) (s : FaultState) (esp : Frame),
    Sound dir s.frames.paging.mem s.frames.paging.base s.frames.paging.calls →
    (∃ q, IsBasePage q ∧ ¬occupied s.frames.paging.base q) → errorcode &&& 1 = 0 →
    ∃ s', handleKernelPageFault ⟨p, vmas.map VmaSlot.toKernelVma, dir t, sigReturn⟩ s esp errorcode a =
        .ok (s', esp, 0) ∧ virt2phy s'.frames.paging.mem (dir t) a = phy.toNat

/-- The areas returned begin with a page, no page is in two, and a fault maps the address that belongs to it. -/
structure PageConsistent (p : PhysicalMemory) (h : MapHistory) : Prop where
  aligned : ∀ args virtAddr, (args, virtAddr) ∈ h.calls → virtAddr ≠ 0 → 4096 ∣ virtAddr.toNat
  pages : ∀ (i j : ℕ) (v w : VmaSlot) (page : ℕ), h.memory.vmas[i]? = some v → h.memory.vmas[j]? = some w →
    v.present = true → w.present = true → TouchesPage v.toKernelVma page → TouchesPage w.toKernelVma page → i = j
  faults : ∀ args virtAddr, (args, virtAddr) ∈ h.calls → virtAddr ≠ 0 → ∀ a : UInt32, virtAddr ≤ a →
    a.toNat < virtAddr.toNat + args.length.toNat → FaultMaps p h.memory.vmas a (args.phyAddr + (a - virtAddr))

/-! ## Whole pages -/

structure WholePages (args : MapVmaArgs) : Prop where
  length_pos : 1 ≤ args.length
  length_le : args.length ≤ 0x3fffffff
  phyAddr_aligned : 4096 ∣ args.phyAddr.toNat
  length_aligned : 4096 ∣ args.length.toNat
  phyAddr_pos : 0 < args.phyAddr.toNat
  below : args.phyAddr.toNat + args.length.toNat ≤ 2 ^ 32

variable {s : KernelMemory} {h : MapHistory} {v w : VmaSlot} {a : UInt32}

section
variable {p : PhysicalMemory} {kernelPageDirectory : ℕ} {s' : KernelMemory} {front : List VmaSlot} {args : MapVmaArgs}
  {virtAddr : UInt32}

theorem LayoutInv.kernelMapVma_ok (h : LayoutInv s front) (hlen : args.length ≤ 0xfffff000)
    (hcall : ZeldaOS.kernelMapVma p kernelPageDirectory s args = .ok (s', virtAddr)) :
    (virtAddr = 0 ∧ s' = s) ∨ LayoutInv s' (front ++ [(args.vma virtAddr).entered .zero]) ∧
      ∃ v ∈ front, virtAddr.toNat = v.stop := by
  obtain ⟨found, hsearch, hgap⟩ := h.freeAddressFrom (pageRounded args.length) [] s.vmas rfl
  have hsearch' : searchFreeKernelVirtualAddress s.vmas args.length = .ok found := hsearch
  have hcall' := hcall
  rw [ZeldaOS.kernelMapVma, hsearch'] at hcall'
  by_cases h0 : found = 0
  · have hnone := (if_pos h0).symm.trans hcall'
    cases hnone
    exact .inl ⟨h0, rfl⟩
  have hplace : ∃ v ∈ front, found.toNat = v.stop := by
    rcases freeAddressFrom_behind hsearch with hzero | ⟨v, hv, hpresent, rfl⟩
    · exact absurd hzero h0
    have hmem := h.mem_iff.1 ⟨hv, hpresent⟩
    exact ⟨v, hmem, h.stop_eq hmem⟩
  by_cases hroom : front.length < kernelVmaArrayLength
  · obtain ⟨s1, hcall1, hinv, -⟩ := h.mapAt p kernelPageDirectory hroom hlen hsearch' h0 (hgap.resolve_left h0)
    rw [hcall] at hcall1
    cases hcall1
    exact .inr ⟨hinv, hplace⟩
  -- no slot is left, and the registration fails
  have hfull : ∀ w ∈ s.vmas, w.present = true := by
    rw [h.vmas_eq, Nat.sub_eq_zero_of_le (by omega), replicate_zero, append_nil]
    exact h.present
  obtain ⟨⟨s1, ret⟩, hreg, hcall'⟩ := bind_eq_ok ((if_neg h0).symm.trans hcall')
  obtain ⟨⟨⟩, hret, -⟩ := bind_eq_ok hcall'
  rcases registerKernelVma_cases hreg with ⟨-, rfl, -⟩ | ⟨-, -, rfl, -⟩ | ⟨-, target, old, hget, hfind, -⟩
  · exact absurd hret (by decide)
  · exact absurd hret (by decide)
  have habsent := find?_some hfind
  rw [hfull old (mem_of_getElem? hget)] at habsent
  cases habsent

structure AlignedInv (h : MapHistory) (front : List VmaSlot) : Prop where
  layout : LayoutInv h.memory front
  start : ∀ v ∈ front, 4096 ∣ v.virtAddr.toNat
  length : ∀ v ∈ front, 4096 ∣ v.length.toNat
  asked : ∀ args virtAddr, (args, virtAddr) ∈ h.calls → WholePages args
  entered : ∀ args virtAddr, (args, virtAddr) ∈ h.calls → virtAddr ≠ 0 →
    ∃ v ∈ front, v.isExact = true ∧ v.virtAddr = virtAddr ∧ v.phyAddr = args.phyAddr ∧ v.length = args.length

theorem WholePages.length_le_max (h : WholePages args) : args.length ≤ 0xfffff000 :=
  UInt32.le_trans h.length_le (by decide)

theorem AlignedInv.step {h' : MapHistory} (hinv : AlignedInv h front) (hargs : WholePages args)
    (hstep : h.step p kernelPageDirectory args = .ok h') : ∃ front', AlignedInv h' front' := by
  obtain ⟨⟨memory, virtAddr⟩, hcall, hstep⟩ := bind_eq_ok hstep
  cases hstep
  have hasked : ∀ args' virtAddr', (args', virtAddr') ∈ (args, virtAddr) :: h.calls → WholePages args' := by
    intro args' virtAddr' hmem
    rcases mem_cons.1 hmem with heq | hmem
    · cases heq
      exact hargs
    · exact hinv.asked args' virtAddr' hmem
  rcases hinv.layout.kernelMapVma_ok hargs.length_le_max hcall with ⟨rfl, rfl⟩ | ⟨hlayout, v, hv, hplace⟩
  · refine ⟨front, hinv.layout, hinv.start, hinv.length, hasked, fun args' virtAddr' hmem hne => ?_⟩
    rcases mem_cons.1 hmem with heq | hmem
    · cases heq
      exact absurd rfl hne
    · exact hinv.entered args' virtAddr' hmem hne
  have hstart : 4096 ∣ virtAddr.toNat := by
    rw [hplace]
    exact (hinv.start v hv).add (hinv.length v hv)
  refine ⟨_, hlayout, forall_mem_append.2 ⟨hinv.start, forall_mem_singleton.2 hstart⟩,
    forall_mem_append.2 ⟨hinv.length, forall_mem_singleton.2 hargs.length_aligned⟩, hasked,
    fun args' virtAddr' hmem hne => ?_⟩
  rcases mem_cons.1 hmem with heq | hmem
  · cases heq
    exact ⟨_, mem_append_right _ mem_cons_self, rfl, rfl, rfl, rfl⟩
  obtain ⟨w, hw, hrest⟩ := hinv.entered args' virtAddr' hmem hne
  exact ⟨w, mem_append_left _ hw, hrest⟩

theorem not_touches_both (hv : 4096 ∣ v.virtAddr.toNat ∧ 4096 ∣ v.length.toNat)
    (hw : 4096 ∣ w.virtAddr.toNat ∧ 4096 ∣ w.length.toNat) (h : VmaApart v w) (page : ℕ)
    (htv : TouchesPage v.toKernelVma page) : ¬TouchesPage w.toKernelVma page := by
  rintro ⟨a, ⟨hwa, haw⟩, ha⟩
  obtain ⟨c, ⟨hvc, hcv⟩, hc⟩ := htv
  unfold VmaApart KernelVma.stop at h
  omega

theorem AlignedInv.pages (hinv : AlignedInv h front) {i j : ℕ} {page : ℕ} (hi : h.memory.vmas[i]? = some v)
    (hj : h.memory.vmas[j]? = some w) (hv : v.present = true) (hw : w.present = true)
    (htv : TouchesPage v.toKernelVma page) (htw : TouchesPage w.toKernelVma page) : i = j := by
  obtain ⟨hi', rfl⟩ := List.getElem?_eq_some_iff.1 (hinv.layout.getElem_eq hi hv)
  obtain ⟨hj', rfl⟩ := List.getElem?_eq_some_iff.1 (hinv.layout.getElem_eq hj hw)
  have hwhole : ∀ k (hk : k < front.length), 4096 ∣ front[k].virtAddr.toNat ∧ 4096 ∣ front[k].length.toNat :=
    fun k hk => ⟨hinv.start _ (getElem_mem hk), hinv.length _ (getElem_mem hk)⟩
  rcases Nat.lt_trichotomy i j with hlt | heq | hgt
  · have hapart := pairwise_iff_getElem.1 hinv.layout.apart i j hi' hj' hlt
    exact absurd htw (not_touches_both (hwhole i hi') (hwhole j hj') hapart page htv)
  · exact heq
  have hapart := pairwise_iff_getElem.1 hinv.layout.apart j i hj' hi' hgt
  exact absurd htv (not_touches_both (hwhole j hj') (hwhole i hi') hapart page htw)

theorem LayoutInv.searchKernelVma_eq (h : LayoutInv s front) (hv : v ∈ front) (ha : v.Contains a.toNat) :
    searchKernelVma (s.vmas.map VmaSlot.toKernelVma) a = some v.toKernelVma := by
  have hbelow := h.below v hv
  unfold KernelVma.stop userspaceBottom at hbelow
  have hmem := (h.mem_iff.2 hv).1
  have hcovers : v.Covers a := (KernelVma.covers_iff (by omega)).2 ⟨h.present v hv, ha⟩
  obtain ⟨w', hw', hcovers', hsearch⟩ :=
    searchKernelVma_some ⟨v.toKernelVma, mem_map_of_mem hmem, hcovers⟩
  obtain ⟨w, hw, rfl⟩ := mem_map.1 hw'
  obtain ⟨i, hi⟩ := getElem?_of_mem hmem
  obtain ⟨j, hj⟩ := getElem?_of_mem hw
  have hij := h.layout.unique a i j v w hi hj hcovers hcovers'
  rw [hij, hj] at hi
  cases hi
  exact hsearch

theorem LayoutInv.faultMaps (h : LayoutInv s front) (hv : v ∈ front) (hexact : v.isExact = true)
    (hstart : 4096 ∣ v.virtAddr.toNat) (hphy : 4096 ∣ v.phyAddr.toNat) (hpos : 0 < v.phyAddr.toNat)
    (hend : v.phyAddr.toNat + v.length.toNat ≤ 2 ^ 32) (ha : v.Contains a.toNat) :
    FaultMaps p s.vmas a (v.phyAddr + (a - v.virtAddr)) := by
  intro τ dir t sigReturn errorcode fs esp hsound hbase herror
  have hbelow := h.below v hv
  unfold KernelVma.stop at hbelow
  obtain ⟨hge, hlt⟩ := ha
  have hsub := UInt32.toNat_sub_of_le _ _ (UInt32.le_iff_toNat_le.2 hge)
  have hadd : (a - v.virtAddr + v.phyAddr).toNat = a.toNat - v.virtAddr.toNat + v.phyAddr.toNat := by
    rw [UInt32.toNat_add, hsub, Nat.mod_eq_of_lt (by omega)]
  have hne : a - v.virtAddr + v.phyAddr ≠ 0 := by
    intro h0
    rw [h0] at hadd
    change 0 = _ at hadd
    omega
  obtain ⟨paging, hmap, -⟩ := hsound.kernelMapPage hbase t a (a - v.virtAddr + v.phyAddr)
    v.writePermission.toUInt32 v.pageWritethrough.toUInt32 v.pageCachedisable.toUInt32
  obtain ⟨-, hlookup⟩ := hsound.kernelMapPage_ok hmap
  have hnow := (hlookup (pageOf a) (pageOf_lt a)).trans (if_pos rfl)
  refine ⟨{ fs with frames := { fs.frames with paging } }, ?_, ?_⟩
  · have hlow : a.toNat < userspaceBottom := by omega
    simp only [handleKernelPageFault, inPaging, ensure_of hlow, h.searchKernelVma_eq hv ⟨hge, hlt⟩, kernelAreaPage,
      if_pos hexact, if_pos herror, ensure_of hne, hmap, Except.mapError, bind, Except.bind]
  · rw [virt2phy_of_lookup hnow, hadd, UInt32.add_comm v.phyAddr, hadd]
    omega

theorem AlignedInv.consistent (hinv : AlignedInv h front) : PageConsistent p h where
  aligned args virtAddr hmem hne := by
    obtain ⟨v, hv, -, rfl, -⟩ := hinv.entered args virtAddr hmem hne
    exact hinv.start v hv
  pages i j v w page hi hj hv hw htv htw := hinv.pages hi hj hv hw htv htw
  faults args virtAddr hmem hne a hge hlt := by
    obtain ⟨v, hv, hexact, rfl, hphy, hlen⟩ := hinv.entered args virtAddr hmem hne
    have hargs := hinv.asked args _ hmem
    rw [← hlen] at hlt
    rw [← hphy]
    exact hinv.layout.faultMaps hv hexact (hinv.start v hv) (hphy ▸ hargs.phyAddr_aligned) (hphy ▸ hargs.phyAddr_pos)
      (hphy ▸ hlen ▸ hargs.below) ⟨UInt32.le_iff_toNat_le.1 hge, hlt⟩

end

theorem alignedInv_start {sysMemStart : UInt32} (haligned : 4096 ∣ sysMemStart.toNat) (hlow : 0x100000 ≤ sysMemStart)
    (h : LayoutInv s ((kernelVmaInit sysMemStart).map KernelVma.initSlot)) :
    AlignedInv ⟨s, []⟩ ((kernelVmaInit sysMemStart).map KernelVma.initSlot) := by
  have himage : 4096 ∣ (sysMemStart - 0x100000).toNat := by
    rw [UInt32.toNat_sub_of_le _ _ hlow]
    exact Nat.dvd_sub haligned (by decide)
  refine ⟨h, ?_, ?_, fun args virtAddr hmem => absurd hmem not_mem_nil,
    fun args virtAddr hmem => absurd hmem not_mem_nil⟩
  · simp only [kernelVmaInit, map_cons, map_nil, forall_mem_cons, KernelVma.initSlot, VmaSlot.entered]
    exact ⟨by decide, by decide, by decide, by decide, forall_mem_nil _⟩
  simp only [kernelVmaInit, map_cons, map_nil, forall_mem_cons, KernelVma.initSlot, VmaSlot.entered]
  exact ⟨by decide, himage, by decide, by decide, forall_mem_nil _⟩

/-- **Exact mappings of whole pages are page consistent.** -/
theorem exact_areas_consistent (p : PhysicalMemory) (kernelPageDirectory : ℕ) (frames : FrameState)
    (sysMemStart : UInt32) (haligned : 4096 ∣ sysMemStart.toNat) (hlow : 0x100000 ≤ sysMemStart)
    (hhigh : sysMemStart ≤ 0x4000000) (s₀ : KernelMemory)
    (hstart : kernelVmaStart p kernelPageDirectory frames sysMemStart = .ok s₀) (ops : List MapVmaArgs)
    (hops : ∀ args ∈ ops, WholePages args) (h : MapHistory)
    (hrun : runSteps (MapHistory.step p kernelPageDirectory) ⟨s₀, []⟩ ops = .ok h) : PageConsistent p h := by
  obtain ⟨s, hs, hlayout⟩ := layoutInv_start p kernelPageDirectory frames hlow hhigh
  rw [hstart] at hs
  cases hs
  have hends : Ends (fun h => ∃ front, AlignedInv h front) (fun _ => True)
      (runSteps (MapHistory.step p kernelPageDirectory) ⟨s₀, []⟩ ops) := by
    refine ends_run (fun h args hinv hargs => ?_) ⟨_, alignedInv_start haligned hlow hlayout⟩ (along_of_forall hops)
    obtain ⟨front, hinv⟩ := hinv
    cases hstep : h.step p kernelPageDirectory args with
    | error e => trivial
    | ok h' => exact hinv.step hargs hstep
  rw [hrun] at hends
  obtain ⟨front, hinv⟩ := hends
  exact hinv.consistent

/-- Three areas, of two pages and of one page each. -/
def wholePageAreas : List MapVmaArgs :=
  [⟨1, 0, 0x400000, 0x2000, 1, 0, 0⟩, ⟨1, 0, 0x500000, 0x1000, 1, 0, 0⟩, ⟨1, 0, 0x600000, 0x1000, 1, 0, 0⟩]

theorem exact_areas_consistent_three : ∃ s₀ h, kernelVmaStart smallMemory 0x4000000 bareFrames 0x101000 = .ok s₀ ∧
      runSteps (MapHistory.step smallMemory 0x4000000) ⟨s₀, []⟩ wholePageAreas = .ok h ∧
      h.calls.map Prod.snd = [0x103000, 0x1F000000, 0x101000] ∧ PageConsistent smallMemory h := by
  have heval : ((kernelVmaStart smallMemory 0x4000000 bareFrames 0x101000 >>= fun s₀ =>
      runSteps (MapHistory.step smallMemory 0x4000000) ⟨s₀, []⟩ wholePageAreas).toOption.map fun h =>
      h.calls.map Prod.snd) = some [0x103000, 0x1F000000, 0x101000] := by decide +kernel
  obtain ⟨h, hrun, hcalls⟩ := exists_ok_of_map heval
  obtain ⟨s₀, hstart, hrun⟩ := bind_eq_ok hrun
  have hops : ∀ args ∈ wholePageAreas, WholePages args := by
    refine forall_mem_cons.2 ⟨?_, forall_mem_cons.2 ⟨?_, forall_mem_singleton.2 ?_⟩⟩ <;>
      exact ⟨by decide, by decide, by decide, by decide, by decide, by decide⟩
  exact ⟨s₀, h, hstart, hrun, hcalls, exact_areas_consistent smallMemory 0x4000000 bareFrames 0x101000 (by decide)
    (by decide) (by decide) s₀ hstart _ hops h hrun⟩

/-- **A length of one page and a half moves a later area off the pages.** -/
theorem unaligned_area : ∃ s₀ h, kernelVmaStart smallMemory 0x4000000 bareFrames 0x101000 = .ok s₀ ∧
      runSteps (MapHistory.step smallMemory 0x4000000) ⟨s₀, []⟩ [⟨1, 0, 0x400000, 0x1800, 1, 0, 0⟩,
        ⟨1, 0, 0x500000, 0x1000, 1, 0, 0⟩, ⟨1, 0, 0x600000, 0x1000, 1, 0, 0⟩] = .ok h ∧
      h.calls.map Prod.snd = [0x102800, 0x1F000000, 0x101000] ∧ ¬PageConsistent smallMemory h := by
  have heval : ((kernelVmaStart smallMemory 0x4000000 bareFrames 0x101000 >>= fun s₀ =>
      runSteps (MapHistory.step smallMemory 0x4000000) ⟨s₀, []⟩ [⟨1, 0, 0x400000, 0x1800, 1, 0, 0⟩,
        ⟨1, 0, 0x500000, 0x1000, 1, 0, 0⟩, ⟨1, 0, 0x600000, 0x1000, 1, 0, 0⟩]).toOption.map fun h =>
      h.calls.map Prod.snd) = some [0x102800, 0x1F000000, 0x101000] := by decide +kernel
  obtain ⟨h, hrun, hcalls⟩ := exists_ok_of_map heval
  obtain ⟨s₀, hstart, hrun⟩ := bind_eq_ok hrun
  refine ⟨s₀, h, hstart, hrun, hcalls, fun hcons => ?_⟩
  have hmem : (0x102800 : UInt32) ∈ h.calls.map Prod.snd := by
    rw [hcalls]
    exact mem_cons_self
  obtain ⟨⟨args, virtAddr⟩, hcall, hvirt⟩ := mem_map.1 hmem
  have hdvd := hcons.aligned args virtAddr hcall
  rw [show virtAddr = 0x102800 from hvirt] at hdvd
  exact absurd (hdvd (by decide)) (by decide)

end ZeldaOS
