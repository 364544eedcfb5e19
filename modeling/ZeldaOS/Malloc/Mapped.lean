import ZeldaOS.Malloc.Limits
import ZeldaOS.Paging.Area
import ZeldaOS.Paging.Kernel
import ZeldaOS.Vma.Premap

/-!
# Blocks with their pages

`malloc_align_mapped` walks from its block in steps of a page, and maps the pages it comes across.

* `block_mapped_iff`: when the whole block is mapped.
-/

namespace ZeldaOS

open Machine

/-! ## The call -/

/-- Both entries for an address have their present bit. -/
def pagePresent (m : Mem) (pageDirectory : ℕ) (virt : UInt32) : Bool :=
  decide (present (entryAt m pageDirectory (pdIndex virt))) &&
    decide (present (entryAt m (frameAddr (entryAt m pageDirectory (pdIndex virt))) (ptIndex virt)))

/-- The loop of `malloc_align_mapped` over the pages that it meets. -/
def mapBlockLoop (p : PhysicalMemory) (kernelPageDirectory endAddr : ℕ) :
    (fuel : ℕ) → FrameState → (virtAddr : ℕ) → Except Fault FrameState
  | 0, _, _ => .error .diverge
  | fuel + 1, s, virtAddr =>
    if virtAddr < endAddr then
      if pagePresent s.paging.mem kernelPageDirectory (.ofNat virtAddr) then
        mapBlockLoop p kernelPageDirectory endAddr fuel s (virtAddr + pageSize)
      else do
        let (f, page) ← getPage p.start p.boundary ⟨s.paging.freePageBitmap, s.fastPageAddr⟩
        ensure (page ≠ 0)
        let paging ← kernelMapPage { s.paging with freePageBitmap := f.bitmap } kernelPageDirectory
          (.ofNat virtAddr) (.ofNat page) 1 0 0
        ensure (pagePresent paging.mem kernelPageDirectory (.ofNat virtAddr) = true)
        mapBlockLoop p kernelPageDirectory endAddr fuel { s with paging, fastPageAddr := f.fastPageAddr }
          (virtAddr + pageSize)
    else .ok s

/-- `malloc_align_mapped`; `s` is what the page tables hold when the loop begins. -/
def Bins.mallocAlignMapped (b : Bins) (p : PhysicalMemory) (kernelPageDirectory : ℕ) (m : Mem) (s : FrameState)
    (len align : ℕ) : Except Fault (Mem × FrameState × ℕ) := do
  let (m, addr) ← mallocAlign (freeOfNull b) b m len align
  if addr ≠ 0 then do
    let s ← mapBlockLoop p kernelPageDirectory (u32 (addr + len)) (len / pageSize + 2) s addr
    .ok (m, s, addr)
  else .ok (m, s, 0)

/-! ## The pages of a block -/

def BlockMapped (m : Mem) (kernelPageDirectory addr len : ℕ) : Prop :=
  ∀ x, addr ≤ x → x < addr + len → pagePresent m kernelPageDirectory (.ofNat x) = true

/-- The loop visits every page of the block, or the last one is present before. -/
def ReachesLastPage (m : Mem) (kernelPageDirectory addr len : ℕ) : Prop :=
  addr % 4096 + (len - 1) % 4096 < 4096 ∨ pagePresent m kernelPageDirectory (.ofNat (addr + len - 1)) = true

section
variable {τ : Type} {p : PhysicalMemory} {dir : τ → ℕ} {t : τ} {s s' : FrameState} {endAddr fuel a len : ℕ}

theorem pagePresent_eq (m : Mem) (d : ℕ) (virt : UInt32) :
    pagePresent m d virt = (lookup m d (pageOf virt)).isSome := by
  rw [pagePresent, pdIndex_eq, ptIndex_eq]
  by_cases hpde : present (entryAt m d (pageOf virt / 1024))
  · rw [lookup_of_present hpde, decide_eq_true hpde, Bool.true_and, ← tableOf, frameOf]
    split_ifs with hpte
    · exact decide_eq_true hpte
    · exact decide_eq_false hpte
  · rw [lookup_eq_none hpde, decide_eq_false hpde]
    rfl

theorem pagePresent_ofNat (m : Mem) (d : ℕ) {x : ℕ} (hx : x < 2 ^ 32) :
    pagePresent m d (.ofNat x) = (lookup m d (x / 4096)).isSome := by
  rw [pagePresent_eq, pageOf_ofNat hx]

theorem mapBlockLoop_ok (h : Sound dir s.paging.mem s.paging.base s.paging.calls) (hend : endAddr ≤ 2 ^ 32)
    (hrun : mapBlockLoop p (dir t) endAddr fuel s a = .ok s') {page : ℕ} (hpage : page < 2 ^ 20) :
    (lookup s'.paging.mem (dir t) page).isSome = true ↔
      (lookup s.paging.mem (dir t) page).isSome = true ∨ ∃ i, a + 4096 * i < endAddr ∧ page = a / 4096 + i := by
  induction fuel generalizing s a with
  | zero => cases hrun
  | succ fuel ih =>
    rw [mapBlockLoop] at hrun
    by_cases hlt : a < endAddr
    · rw [if_pos hlt] at hrun
      -- the first page that is visited, and the later ones
      have hsplit : (∃ i, a + 4096 * i < endAddr ∧ page = a / 4096 + i) ↔
          page = a / 4096 ∨ ∃ i, a + pageSize + 4096 * i < endAddr ∧ page = (a + pageSize) / 4096 + i := by
        unfold pageSize
        constructor
        · rintro ⟨i, hi, rfl⟩
          rcases Nat.eq_zero_or_pos i with rfl | hpos
          · exact .inl rfl
          · exact .inr ⟨i - 1, by omega, by omega⟩
        · rintro (rfl | ⟨i, hi, rfl⟩)
          · exact ⟨0, by omega, rfl⟩
          · exact ⟨i + 1, by omega, by omega⟩
      rw [hsplit]
      by_cases hpresent : pagePresent s.paging.mem (dir t) (.ofNat a) = true
      · rw [if_pos hpresent] at hrun
        rw [pagePresent_ofNat _ _ (by omega)] at hpresent
        rw [ih h hrun]
        constructor
        · rintro (hold | hvisit)
          · exact .inl hold
          · exact .inr (.inr hvisit)
        rintro (hold | rfl | hvisit)
        · exact .inl hold
        · exact .inl hpresent
        · exact .inr hvisit
      rw [if_neg hpresent] at hrun
      obtain ⟨⟨f, frame⟩, -, hrun⟩ := bind_eq_ok hrun
      obtain ⟨⟨⟩, -, hrun⟩ := bind_eq_ok hrun
      obtain ⟨paging, hmap, hrun⟩ := bind_eq_ok hrun
      obtain ⟨⟨⟩, -, hrun⟩ := bind_eq_ok hrun
      obtain ⟨hsound, hlookup⟩ :=
        Sound.kernelMapPage_ok (s := { s.paging with freePageBitmap := f.bitmap }) h hmap
      have hnow := hlookup page hpage
      rw [pageOf_ofNat (by omega)] at hnow
      rw [ih hsound hrun, hnow]
      by_cases heq : page = a / 4096
      · rw [if_pos heq]
        exact iff_of_true (.inl rfl) (.inr (.inl heq))
      rw [if_neg heq]
      exact or_congr_right (or_iff_right heq).symm
    · rw [if_neg hlt] at hrun
      cases hrun
      refine (or_iff_left ?_).symm
      omega

theorem blockMapped_loop_iff (h : Sound dir s.paging.mem s.paging.base s.paging.calls) (hlen : 0 < len)
    (hend : a + len ≤ 2 ^ 32) (hrun : mapBlockLoop p (dir t) (a + len) fuel s a = .ok s') :
    BlockMapped s'.paging.mem (dir t) a len ↔ ReachesLastPage s.paging.mem (dir t) a len := by
  have hpages : ∀ x < a + len, (pagePresent s'.paging.mem (dir t) (.ofNat x) = true ↔
      pagePresent s.paging.mem (dir t) (.ofNat x) = true ∨ ∃ i, 4096 * i < len ∧ x / 4096 = a / 4096 + i) := by
    intro x hx
    rw [pagePresent_ofNat _ _ (by omega), pagePresent_ofNat _ _ (by omega), mapBlockLoop_ok h hend hrun (by omega)]
    simp only [Nat.add_lt_add_iff_left]
  constructor
  · intro hall
    by_contra hc
    rw [ReachesLastPage, not_or, not_lt] at hc
    rcases (hpages (a + len - 1) (by omega)).1 (hall (a + len - 1) (by omega) (by omega)) with hold | ⟨i, hi, heq⟩
    · exact hc.2 hold
    · omega
  intro hlast x hge hlt
  rw [hpages x hlt]
  by_cases hvisit : 4096 * (x / 4096 - a / 4096) < len
  · exact .inr ⟨_, hvisit, by omega⟩
  -- only the last page is not visited
  rcases hlast with hsmall | hold
  · omega
  have hsame : x / 4096 = (a + len - 1) / 4096 := by omega
  rw [pagePresent_ofNat _ _ (by omega)] at hold ⊢
  exact .inl (hsame ▸ hold)

end

/-- **When `malloc_align_mapped` maps the whole block.** -/
theorem block_mapped_iff (b : Bins) (p : PhysicalMemory) (m : Mem) (cs : List Chunk) (bin : ℕ → List ℕ)
    (h : Inv b m cs bin) {τ : Type} (dir : τ → ℕ) (t : τ) (s : FrameState)
    (hsound : Sound dir s.paging.mem s.paging.base s.paging.calls) (len k : ℕ) (hpos : 0 < len) (hlen : len < 2 ^ 31)
    (hk : k ≤ 12) (m' : Mem) (s' : FrameState) (addr : ℕ)
    (hret : b.mallocAlignMapped p (dir t) m s len (2 ^ k) = .ok (m', s', addr)) (hne : addr ≠ 0) :
    BlockMapped s'.paging.mem (dir t) addr len ↔ ∀ c, (searchOrder cs bin).find? (hasRoom len (2 ^ k)) = some c →
        ReachesLastPage s.paging.mem (dir t) (c.addr + 20 + alignPadding c.addr (2 ^ k)) len := by
  obtain ⟨⟨m1, addr1⟩, hmalloc, hret⟩ := bind_eq_ok hret
  rw [h.malloc_align_eq (freeOfNull b) (by omega) (by omega)] at hmalloc
  cases hfind : (searchOrder cs bin).find? (hasRoom len (2 ^ k)) with
  | none =>
    rw [firstFit, hfind] at hmalloc
    cases hmalloc
    cases hret
    exact absurd rfl hne
  | some c =>
    obtain ⟨hc, -⟩ := h.mem_searchOrder.1 (List.mem_of_find?_eq_some hfind)
    have hroom := (h.hasRoom_iff hlen (by omega) hc).1 (List.find?_some hfind)
    have hbound := (h.tiles.bounds hc).2
    unfold kernelHeapTop at hbound
    rw [firstFit_of_some _ hfind] at hmalloc
    obtain ⟨m2, -, hptr⟩ := bind_eq_ok hmalloc
    cases hptr
    dsimp only at hret
    rw [if_pos (by omega)] at hret
    obtain ⟨s1, hloop, hret⟩ := bind_eq_ok hret
    cases hret
    have hend : u32 (((c.addr + 20 + alignPadding c.addr (2 ^ k) : ℕ) : ℤ) + len) =
        c.addr + 20 + alignPadding c.addr (2 ^ k) + len := by
      unfold u32
      omega
    rw [hend] at hloop
    rw [blockMapped_loop_iff hsound hpos (by omega) hloop]
    constructor
    · intro hlast d hd
      cases hd
      exact hlast
    · intro hlast
      exact hlast c rfl

theorem block_mapped_iff_page :
    ∃ m' s', imageBins.mallocAlignMapped smallMemory 0x4000000 (mallocInit imageBins vectorMem) bareFrames 64 (2 ^ 12) =
        .ok (m', s', 0x8001000) ∧ BlockMapped s'.paging.mem 0x4000000 0x8001000 64 := by
  have heval : ((imageBins.mallocAlignMapped smallMemory 0x4000000 (mallocInit imageBins vectorMem) bareFrames 64
      (2 ^ 12)).toOption.map fun r => r.2.2) = some 0x8001000 := by decide +kernel
  obtain ⟨⟨m', s', addr⟩, hret, rfl⟩ := exists_ok_of_map heval
  refine ⟨m', s', hret, (block_mapped_iff imageBins smallMemory _ _ _ (mallocInit_spec imageBins vectorMem)
    (fun _ : Unit => 0x4000000) () bareFrames sound_bareFrames 64 12 (by decide) (by decide) (by decide) m' s' _ hret
    (by decide)).2 fun c hc => .inl ?_⟩
  obtain rfl := List.mem_singleton.1 (List.mem_of_find?_eq_some hc)
  decide

/-- A free chunk of 4124 bytes whose user pointer is the last word of a page. -/
def pageEndHeap : Except Fault Mem := do
  let (m, _) ← imageBins.malloc (mallocInit imageBins vectorMem) 4052
  let (m, mem) ← imageBins.malloc m 4104
  let (m, _) ← imageBins.malloc m 1
  free imageBins m mem

/-- The pages with a header in them, at `0x8000000` and `0x8002000`, are present. -/
def headerPages : Except Fault FrameState := do
  let s ← mapBlockLoop smallMemory 0x4000000 0x8001000 2 bareFrames 0x8000000
  mapBlockLoop smallMemory 0x4000000 0x8003000 2 s 0x8002000

/-- **A block of a page at the last word of a page**: the second page is not mapped. -/
theorem last_page_missed : ∃ m s m' s', pageEndHeap = .ok m ∧ headerPages = .ok s ∧
      imageBins.mallocAlignMapped smallMemory 0x4000000 m s 4096 4 = .ok (m', s', 0x8000FFC) ∧
      ¬BlockMapped s'.paging.mem 0x4000000 0x8000FFC 4096 := by
  have heval : ((pageEndHeap >>= fun m => headerPages >>= fun s =>
      imageBins.mallocAlignMapped smallMemory 0x4000000 m s 4096 4).toOption.map fun r =>
        (r.2.2, pagePresent r.2.1.paging.mem 0x4000000 0x8001FFB)) = some (0x8000FFC, false) := by decide +kernel
  obtain ⟨⟨m', s', addr⟩, hrun, hval⟩ := exists_ok_of_map heval
  obtain ⟨m, hm, hrun⟩ := bind_eq_ok hrun
  obtain ⟨s, hs, hrun⟩ := bind_eq_ok hrun
  obtain ⟨rfl, habsent⟩ := Prod.mk.inj hval
  refine ⟨m, s, m', s', hm, hs, hrun, fun hall => ?_⟩
  have hlast := hall 0x8001FFB (by decide) (by decide)
  exact Bool.noConfusion (habsent.symm.trans hlast)

end ZeldaOS
