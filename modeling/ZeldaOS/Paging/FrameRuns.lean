import ZeldaOS.Machine.Runs
import ZeldaOS.Paging.Frames

/-!
# Single frames

`get_page` after any history of the frame allocator.

* `get_page_exact`: `get_page` after any history.
-/

namespace ZeldaOS

open Machine

inductive PoolOp where
  | getPage
  | getPages (nrPages : ℤ)
  | freePages (page : UInt32) (nrPages : ℤ)

/-- One call; only `get_page` moves the cursor. -/
def poolStep (start boundary : ℕ) (f : FramePool) : PoolOp → Except Fault FramePool
  | .getPage => (getPage start boundary f).map Prod.fst
  | .getPages nrPages => (getPages start boundary f.bitmap nrPages).map fun r => ⟨r.1, f.fastPageAddr⟩
  | .freePages page nrPages => .ok ⟨freePages f.bitmap page.toNat nrPages, f.fastPageAddr⟩

structure InMemory (start boundary page : ℕ) : Prop where
  aligned : 4096 ∣ page
  start_le : start ≤ page
  lt_boundary : page < boundary

/-- `get_page` returned `page` for `bitmap`, and left `bitmap'`. -/
structure ExactPage (start boundary : ℕ) (bitmap bitmap' : Bitmap) (page : ℕ) : Prop where
  zero_iff : page = 0 ↔ ∀ q, InMemory start boundary q → isPageFree bitmap q = false
  found : page ≠ 0 → InMemory start boundary page ∧ isPageFree bitmap page = true
  marked : ∀ i, bitmap'.test i = if page ≠ 0 ∧ i = page >>> 12 then true else bitmap.test i

theorem GetsPage.exact {p : PhysicalMemory} {f f' : FramePool} {page : ℕ} (h : GetsPage p f f' page) :
    ExactPage p.start p.boundary f.bitmap f'.bitmap page where
  zero_iff := by
    constructor
    · intro h0 q hq
      exact (h.full h0).2 q ⟨hq.aligned, hq.start_le, hq.lt_boundary⟩
    intro hall
    by_contra h0
    obtain ⟨hframe, hfree, -⟩ := h.found h0
    rw [hall page ⟨hframe.aligned, hframe.start_le, hframe.lt_boundary⟩] at hfree
    cases hfree
  found h0 := by
    obtain ⟨hframe, hfree, -⟩ := h.found h0
    exact ⟨⟨hframe.aligned, hframe.start_le, hframe.lt_boundary⟩, hfree⟩
  marked i := by
    by_cases h0 : page = 0
    · rw [(h.full h0).1, if_neg fun hc => hc.1 h0]
    rw [(h.found h0).2.2, Bitmap.test_set]
    simp only [ne_eq, h0, not_false_eq_true, true_and]

theorem cursor_aligned_step (p : PhysicalMemory) (f : FramePool) (op : PoolOp) (f' : FramePool)
    (hcursor : 4096 ∣ f.fastPageAddr) (hstep : poolStep p.start p.boundary f op = .ok f') : 4096 ∣ f'.fastPageAddr := by
  cases op with
  | getPage =>
    obtain ⟨f2, page, hget, hspec⟩ := getPage_spec hcursor
    rw [poolStep, hget] at hstep
    cases hstep
    exact hspec.cursor
  | getPages nrPages =>
    rw [poolStep] at hstep
    cases hget : getPages p.start p.boundary f.bitmap nrPages with
    | error e =>
      rw [hget] at hstep
      cases hstep
    | ok r =>
      rw [hget] at hstep
      cases hstep
      exact hcursor
  | freePages page nrPages =>
    cases hstep
    exact hcursor

/-- **`get_page` is exact.** -/
theorem get_page_exact (start boundary : ℕ) (haligned : 4096 ∣ start) (hpos : 0 < start)
    (hboundary : boundary ≤ 0xFFFFF000) (bitmap₀ : Bitmap) (ops : List PoolOp) (f : FramePool)
    (hrun : runSteps (poolStep start boundary) ⟨bitmap₀, 0⟩ ops = .ok f) (bitmap : Bitmap) :
    ∃ f' page, getPage start boundary ⟨bitmap, f.fastPageAddr⟩ = .ok (f', page) ∧
      ExactPage start boundary bitmap f'.bitmap page := by
  let p : PhysicalMemory := ⟨start, boundary, haligned, hpos, hboundary⟩
  have hcursor : 4096 ∣ f.fastPageAddr :=
    inv_of_run (cursor_aligned_step p) (dvd_zero 4096) hrun
  obtain ⟨f', page, hget, hspec⟩ := getPage_spec (p := p) (f := ⟨bitmap, f.fastPageAddr⟩) hcursor
  exact ⟨f', page, hget, hspec.exact⟩

theorem get_page_exact_two :
    ∃ f, runSteps (poolStep 0x400000 0x402000) ⟨fun _ => 0, 0⟩ [.getPage, .getPage, .freePages 0x400000 1] = .ok f ∧
      ∃ f' page, getPage 0x400000 0x402000 ⟨fun _ => 0, f.fastPageAddr⟩ = .ok (f', page) ∧
        ExactPage 0x400000 0x402000 (fun _ => 0) f'.bitmap page := by
  obtain ⟨f, hrun⟩ : ∃ f, runSteps (poolStep 0x400000 0x402000) ⟨fun _ => 0, 0⟩
    [.getPage, .getPage, .freePages 0x400000 1] = .ok f := ⟨_, rfl⟩
  exact ⟨f, hrun, get_page_exact 0x400000 0x402000 (by decide) (by decide) (by decide) (fun _ => 0) _ f hrun fun _ => 0⟩

/-- **At address 0, `get_page` marks frame 0 and says that there is none.** -/
theorem frame_zero_lost : ∃ f', getPage 0 0x2000 ⟨fun _ => 0, 0⟩ = .ok (f', 0) ∧ isPageFree (fun _ => 0) 0 = true ∧
      isPageFree f'.bitmap 0 = false ∧ ¬ExactPage 0 0x2000 (fun _ => 0) f'.bitmap 0 := by
  refine ⟨_, rfl, rfl, rfl, fun h => ?_⟩
  have hfree := h.zero_iff.1 rfl 0 ⟨dvd_zero _, le_rfl, by decide⟩
  cases hfree

end ZeldaOS
