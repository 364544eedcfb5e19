import ZeldaOS.Machine.RunScan
import ZeldaOS.Paging.Model

/-!
# Page frames

The allocator of the frames behind the pages, `get_page`, `get_pages` and `free_pages` of `memory/paging.c`.

* `getPage_spec`: `get_page` finds a frame if there is one.
-/

namespace ZeldaOS

open Machine

/-! ## The calls -/

/-- The kernel image lies below the start, and the last page of the address space is not memory. -/
structure PhysicalMemory where
  start : ℕ
  boundary : ℕ
  aligned : 4096 ∣ start
  start_pos : 0 < start
  boundary_le : boundary ≤ 2 ^ 32 - 4096

/-- `free_page_bitmap`, a set bit being an occupied frame, and `fast_page_addr`. -/
structure FramePool where
  bitmap : Bitmap
  fastPageAddr : ℕ

def isPageFree (bitmap : Bitmap) (page : ℕ) : Bool := !bitmap.test (page >>> 12)

def markPageAsOccupied (bitmap : Bitmap) (page : ℕ) : Except Fault Bitmap := do
  let bitmap := bitmap.set (page >>> 12)
  ensure (isPageFree bitmap page = false)
  .ok bitmap

/-- The loop of `get_page_fast`: the first free frame, or an address beyond the memory. -/
def searchPage (bitmap : Bitmap) (boundary : ℕ) : (fuel addr : ℕ) → Except Fault ℕ
  | 0, _ => .error .diverge
  | fuel + 1, addr =>
    if addr < boundary then
      if isPageFree bitmap addr then .ok addr else searchPage bitmap boundary fuel (addr + pageSize)
    else .ok addr

def pageFuel (boundary : ℕ) : ℕ := boundary / pageSize + 2

/-- `get_page_fast`; `0` when there is no free frame from the cursor on. -/
def getPageFast (start boundary : ℕ) (f : FramePool) : Except Fault (FramePool × ℕ) := do
  let addr ← searchPage f.bitmap boundary (pageFuel boundary)
    (if f.fastPageAddr < start ∨ boundary ≤ f.fastPageAddr then start else f.fastPageAddr)
  if addr < boundary then
    let bitmap ← markPageAsOccupied f.bitmap addr
    .ok (⟨bitmap, addr + pageSize⟩, addr)
  else .ok (⟨f.bitmap, addr⟩, 0)

/-- Frame `idx` of a run that begins at `addr`; addresses are 32-bit words. -/
def runPage (addr idx : ℕ) : ℕ := u32 (addr + idx * pageSize)

/-- The inner loop of `get_pages`: how many of the `n` frames are free before the first that is not. -/
def freeRun (bitmap : Bitmap) (addr n : ℕ) : ℕ := leadingRun (fun idx => isPageFree bitmap (runPage addr idx)) n

/-- The loop of `get_pages`, which jumps behind the first frame that is occupied. -/
def searchPages (bitmap : Bitmap) (boundary : ℕ) (nrPages : ℤ) : (fuel addr : ℕ) → Except Fault (Option ℕ)
  | 0, _ => .error .diverge
  | fuel + 1, addr =>
    if addr < boundary then
      if boundary ≤ u32 (addr + pageSize * nrPages) then .ok none
      else if (freeRun bitmap addr nrPages.toNat : ℤ) = nrPages then .ok (some addr)
      else searchPages bitmap boundary nrPages fuel (runPage addr (freeRun bitmap addr nrPages.toNat + 1))
    else .ok none

/-- A scan that visits more addresses than there are frames does not end. -/
def pagesFuel : ℕ := 2 ^ 20 + 1

def markRun (bitmap : Bitmap) (addr n : ℕ) : Except Fault Bitmap :=
  (List.range n).foldlM (fun bitmap idx => do
    ensure (isPageFree bitmap (runPage addr idx) = true)
    markPageAsOccupied bitmap (runPage addr idx)) bitmap

/-- `get_pages`; `0` when there are no `nrPages` free frames in a row. -/
def getPages (start boundary : ℕ) (bitmap : Bitmap) (nrPages : ℤ) : Except Fault (Bitmap × ℕ) := do
  ensure (start % pageSize = 0)
  match ← searchPages bitmap boundary nrPages pagesFuel start with
  | none => .ok (bitmap, 0)
  | some addr => do
    let bitmap ← markRun bitmap addr nrPages.toNat
    .ok (bitmap, addr)

def getPage (start boundary : ℕ) (f : FramePool) : Except Fault (FramePool × ℕ) := do
  let (f, page) ← getPageFast start boundary f
  if page = 0 then do
    let (bitmap, page) ← getPages start boundary f.bitmap 1
    .ok (⟨bitmap, f.fastPageAddr⟩, page)
  else .ok (f, page)

def freePages (bitmap : Bitmap) (page : ℕ) (nrPages : ℤ) : Bitmap :=
  (List.range nrPages.toNat).foldl (fun bitmap idx => freePage bitmap (runPage page idx)) bitmap

/-! ## Single frames -/

structure IsFrame (p : PhysicalMemory) (page : ℕ) : Prop where
  aligned : 4096 ∣ page
  start_le : p.start ≤ page
  lt_boundary : page < p.boundary

section
variable {p : PhysicalMemory} {bitmap : Bitmap}

theorem IsFrame.pos {page : ℕ} (h : IsFrame p page) : 0 < page := p.start_pos.trans_le h.start_le

theorem shiftRight_inj {a b : ℕ} (ha : 4096 ∣ a) (hb : 4096 ∣ b) : a >>> 12 = b >>> 12 ↔ a = b := by
  omega

theorem markPageAsOccupied_eq (bitmap : Bitmap) (page : ℕ) :
    markPageAsOccupied bitmap page = .ok (bitmap.set (page >>> 12)) := by
  have hset : isPageFree (bitmap.set (page >>> 12)) page = false := by
    simp [isPageFree, Bitmap.test_set]
  simp only [markPageAsOccupied, ensure_of hset, bind, Except.bind]

theorem next_page {addr r : ℕ} (haddr : 4096 ∣ addr) (hr : 4096 ∣ r) (h : addr ≤ r) :
    r = addr ∨ addr + pageSize ≤ r := by
  unfold pageSize
  omega

theorem searchPage_spec (bitmap : Bitmap) (boundary fuel addr : ℕ) (haligned : 4096 ∣ addr)
    (hfuel : boundary ≤ addr + 4096 * fuel) :
    ∃ q, searchPage bitmap boundary (fuel + 1) addr = .ok q ∧ 4096 ∣ q ∧ addr ≤ q ∧
      (q < boundary → isPageFree bitmap q = true) ∧ ∀ r, 4096 ∣ r → addr ≤ r → r < q → isPageFree bitmap r = false := by
  induction fuel generalizing addr with
  | zero =>
    refine ⟨addr, ?_, haligned, le_rfl, fun h => absurd h (by omega), fun r _ h1 h2 => by omega⟩
    rw [searchPage, if_neg (by omega)]
  | succ fuel ih =>
    rw [searchPage]
    by_cases hb : addr < boundary
    · rw [if_pos hb]
      by_cases hfree : isPageFree bitmap addr = true
      · rw [if_pos hfree]
        exact ⟨addr, rfl, haligned, le_rfl, fun _ => hfree, fun r _ h1 h2 => by omega⟩
      rw [if_neg hfree]
      obtain ⟨q, hq, hal, hle, hf, hall⟩ := ih (addr + pageSize)
        (haligned.add (by unfold pageSize; exact dvd_rfl)) (by unfold pageSize; omega)
      refine ⟨q, hq, hal, by unfold pageSize at hle; omega, hf, fun r hr h1 h2 => ?_⟩
      rcases next_page haligned hr h1 with rfl | hnext
      · simpa using hfree
      · exact hall r hr hnext h2
    · rw [if_neg hb]
      exact ⟨addr, rfl, haligned, le_rfl, fun h => absurd h hb, fun r _ h1 h2 => by omega⟩

theorem runPage_of_lt {addr idx : ℕ} (h : addr + idx * 4096 < 2 ^ 32) : runPage addr idx = addr + idx * 4096 := by
  unfold runPage u32 pageSize
  omega

theorem freeRun_one (bitmap : Bitmap) {addr : ℕ} (h : addr < 2 ^ 32) :
    freeRun bitmap addr 1 = if isPageFree bitmap addr then 1 else 0 := by
  have hfirst : runPage addr 0 = addr := by
    rw [runPage_of_lt (by omega)]
    omega
  cases hfree : isPageFree bitmap addr <;>
    simp [freeRun, leadingRun, List.range_succ, List.findIdx_cons, hfirst, hfree]

theorem searchPages_one_spec (bitmap : Bitmap) (boundary fuel addr : ℕ) (haligned : 4096 ∣ addr)
    (hboundary : boundary ≤ 2 ^ 32 - 4096) (hfuel : boundary ≤ addr + 4096 * fuel) :
    ∃ o, searchPages bitmap boundary 1 (fuel + 1) addr = .ok o ∧
      (∀ q ∈ o, 4096 ∣ q ∧ addr ≤ q ∧ q < boundary ∧ isPageFree bitmap q = true) ∧
      (o = none → ∀ r, 4096 ∣ r → addr ≤ r → r + pageSize < boundary → isPageFree bitmap r = false) := by
  induction fuel generalizing addr with
  | zero =>
    refine ⟨none, ?_, (fun q hq => by cases hq), fun _ r _ h1 h2 => by omega⟩
    rw [searchPages, if_neg (by omega)]
  | succ fuel ih =>
    rw [searchPages]
    by_cases hb : addr < boundary
    · have hrun : freeRun bitmap addr (1 : ℤ).toNat = if isPageFree bitmap addr then 1 else 0 :=
        freeRun_one bitmap (by omega)
      have hend : u32 ((addr : ℤ) + pageSize * 1) = addr + pageSize := by
        unfold u32 pageSize
        omega
      rw [if_pos hb, hend, hrun]
      by_cases hlast : boundary ≤ addr + pageSize
      · rw [if_pos hlast]
        exact ⟨none, rfl, (fun q hq => by cases hq), fun _ r _ h1 h2 => by omega⟩
      rw [if_neg hlast]
      by_cases hfree : isPageFree bitmap addr = true
      · rw [if_pos hfree, if_pos (by decide)]
        refine ⟨some addr, rfl, fun q hq => ?_, fun hc => by cases hc⟩
        cases hq
        exact ⟨haligned, le_rfl, hb, hfree⟩
      have hnext : runPage addr (0 + 1) = addr + pageSize := by
        rw [runPage_of_lt (by omega)]
        unfold pageSize
        omega
      rw [if_neg hfree, if_neg (by decide), hnext]
      obtain ⟨o, ho, hspec, hall⟩ := ih (addr + pageSize)
        (haligned.add (by unfold pageSize; exact dvd_rfl)) (by unfold pageSize; omega)
      refine ⟨o, ho, fun q hq => ?_, fun hnone r hr h1 h2 => ?_⟩
      · obtain ⟨hal, hle, hlt, hf⟩ := hspec q hq
        exact ⟨hal, by unfold pageSize at hle; omega, hlt, hf⟩
      rcases next_page haligned hr h1 with rfl | hnext
      · simpa using hfree
      · exact hall hnone r hr (by simpa using hnext) h2
    · rw [if_neg hb]
      exact ⟨none, rfl, (fun q hq => by cases hq), fun _ r _ h1 h2 => by omega⟩

structure GetsPage (p : PhysicalMemory) (f f' : FramePool) (page : ℕ) : Prop where
  cursor : 4096 ∣ f'.fastPageAddr
  full : page = 0 → f'.bitmap = f.bitmap ∧ ∀ q, IsFrame p q → isPageFree f.bitmap q = false
  found : page ≠ 0 → IsFrame p page ∧ isPageFree f.bitmap page = true ∧ f'.bitmap = f.bitmap.set (page >>> 12)

theorem PhysicalMemory.fuel_le (p : PhysicalMemory) (addr : ℕ) :
    p.boundary ≤ addr + 4096 * (p.boundary / pageSize + 1) := by
  unfold pageSize
  omega

theorem getPageFast_spec {f : FramePool} (hcursor : 4096 ∣ f.fastPageAddr) :
    ∃ f' page, getPageFast p.start p.boundary f = .ok (f', page) ∧ 4096 ∣ f'.fastPageAddr ∧
      (page = 0 → f'.bitmap = f.bitmap ∧ ∀ q, IsFrame p q → isPageFree f.bitmap q = true → q + pageSize < p.boundary) ∧
      (page ≠ 0 → IsFrame p page ∧ isPageFree f.bitmap page = true ∧ f'.bitmap = f.bitmap.set (page >>> 12)) := by
  obtain ⟨start, hstart, hal, hle, hlow⟩ : ∃ start,
      (if f.fastPageAddr < p.start ∨ p.boundary ≤ f.fastPageAddr then p.start
        else f.fastPageAddr) = start ∧ 4096 ∣ start ∧ p.start ≤ start ∧
        (start = p.start ∨ start < p.boundary) := by
    split_ifs with h
    · exact ⟨p.start, rfl, p.aligned, le_rfl, .inl rfl⟩
    · exact ⟨f.fastPageAddr, rfl, hcursor, by omega, .inr (by omega)⟩
  obtain ⟨q, hq, hqal, hqle, hfree, hall⟩ := searchPage_spec f.bitmap p.boundary
    (p.boundary / pageSize + 1) start hal (p.fuel_le start)
  have hsearch : searchPage f.bitmap p.boundary (pageFuel p.boundary) start = .ok q := hq
  rw [getPageFast]
  simp only [hstart, hsearch, bind, Except.bind]
  by_cases hlt : q < p.boundary
  · rw [if_pos hlt, markPageAsOccupied_eq]
    have hframe : IsFrame p q := ⟨hqal, hle.trans hqle, hlt⟩
    refine ⟨_, q, rfl, ?_, fun h0 => absurd h0 hframe.pos.ne', fun _ => ⟨hframe, hfree hlt, rfl⟩⟩
    exact hqal.add (by unfold pageSize; exact dvd_rfl)
  rw [if_neg hlt]
  refine ⟨_, 0, rfl, hqal, fun _ => ⟨rfl, fun r hr hrf => ?_⟩, fun h0 => absurd rfl h0⟩
  have hbelow : r < start := by
    by_contra hc
    have hrb := hr.lt_boundary
    rw [hall r hr.aligned (by omega) (by omega)] at hrf
    cases hrf
  have hrs := hr.start_le
  have hnext := next_page hr.aligned hal hbelow.le
  omega

theorem getPages_one_spec (p : PhysicalMemory) (bitmap : Bitmap) :
    ∃ bitmap' page, getPages p.start p.boundary bitmap 1 = .ok (bitmap', page) ∧ (page = 0 → bitmap' = bitmap ∧
        ∀ q, IsFrame p q → q + pageSize < p.boundary → isPageFree bitmap q = false) ∧
      (page ≠ 0 → IsFrame p page ∧ isPageFree bitmap page = true ∧ bitmap' = bitmap.set (page >>> 12)) := by
  have hboundary := p.boundary_le
  obtain ⟨o, ho, hspec, hall⟩ := searchPages_one_spec bitmap p.boundary (2 ^ 20) p.start p.aligned hboundary (by omega)
  have hsearch : searchPages bitmap p.boundary 1 pagesFuel p.start = .ok o := ho
  have haligned : p.start % pageSize = 0 := Nat.mod_eq_zero_of_dvd p.aligned
  rw [getPages]
  simp only [hsearch, ensure_of haligned, bind, Except.bind]
  cases o with
  | none =>
    exact ⟨_, 0, rfl, fun _ => ⟨rfl, fun q hq => hall rfl q hq.aligned hq.start_le⟩, fun h0 => absurd rfl h0⟩
  | some q =>
    obtain ⟨hal, hle, hlt, hfree⟩ := hspec q rfl
    have hframe : IsFrame p q := ⟨hal, hle, hlt⟩
    have hq : runPage q 0 = q := by
      rw [runPage_of_lt (by omega)]
      omega
    have hmark : markRun bitmap q (1 : ℤ).toNat = .ok (bitmap.set (q >>> 12)) := by
      have hrange : List.range (1 : ℤ).toNat = [0] := rfl
      simp only [markRun, hrange, List.foldlM_cons, List.foldlM_nil, hq, ensure_of hfree, markPageAsOccupied_eq, bind,
        Except.bind, pure, Except.pure]
    simp only [hmark]
    exact ⟨_, q, rfl, fun h0 => absurd h0 hframe.pos.ne', fun _ => ⟨hframe, hfree, rfl⟩⟩

theorem getPage_spec {f : FramePool} (hcursor : 4096 ∣ f.fastPageAddr) :
    ∃ f' page, getPage p.start p.boundary f = .ok (f', page) ∧ GetsPage p f f' page := by
  obtain ⟨f', page, hfast, hcur, hempty, hfound⟩ := getPageFast_spec (p := p) hcursor
  rw [getPage]
  simp only [hfast, bind, Except.bind]
  by_cases h0 : page = 0
  · rw [if_pos h0]
    obtain ⟨bitmap, page', hslow, hnone, hsome⟩ := getPages_one_spec p f'.bitmap
    simp only [hslow]
    obtain ⟨hbitmap, hlast⟩ := hempty h0
    rw [hbitmap] at hnone hsome
    refine ⟨_, page', rfl, hcur, fun h0' => ⟨(hnone h0').1, fun q hq => ?_⟩, hsome⟩
    by_contra hc
    have hf := eq_true_of_ne_false hc
    exact hc ((hnone h0').2 q hq (hlast q hq hf))
  · rw [if_neg h0]
    exact ⟨f', page, rfl, hcur, fun h => absurd h h0, hfound⟩

end

end ZeldaOS
