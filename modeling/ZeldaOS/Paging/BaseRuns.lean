import ZeldaOS.Machine.Runs
import ZeldaOS.Paging.Tables

/-!
# Runs of the base page allocator

`get_base_page` and `free_base_page` from the bitmap that `paging_init` clears.

* `base_pages_exact`: the base page allocator is exact.
-/

namespace ZeldaOS

open Machine

/-! ## Runs -/

/-- The address that is freed can be any word. -/
inductive BaseOp where
  | getBasePage
  | freeBasePage (page : UInt32)

structure BaseHistory where
  pages : BasePages
  held : List ℕ

def pageAt (addr : ℕ) : ℕ := addr / 4096 * 4096

def baseStep (s : BaseHistory) : BaseOp → Except Fault BaseHistory
  | .getBasePage => do
    let (pages, page) ← getBasePage s.pages
    .ok ⟨pages, if page = 0 then s.held else page :: s.held⟩
  | .freeBasePage page =>
    .ok ⟨freeBasePage s.pages page.toNat, s.held.filter fun q => q ≠ pageAt page.toNat⟩

/-- The bitmap that `paging_init` clears; the cursor is a static variable. -/
def baseStart : BaseHistory := ⟨⟨fun _ => 0, 0⟩, []⟩

structure HistoryOk (s : BaseHistory) : Prop where
  cursor : 4096 ∣ s.pages.fastBasePageAddr
  occupied_iff : ∀ q, IsBasePage q → (occupied s.pages q ↔ q ∈ s.held)

/-- `get_base_page` marks `page`, which was free; `0` says that there is none. -/
structure ExactGet (b b' : BasePages) (page : ℕ) : Prop where
  zero_iff : page = 0 ↔ ∀ q, IsBasePage q → occupied b q
  found : page ≠ 0 → IsBasePage page ∧ ¬occupied b page
  marked : ∀ i, b'.bitmap.test i = if page ≠ 0 ∧ i = basePageOffset page then true else b.bitmap.test i

/-- `free_base_page` clears the bit of the page, and changes nothing outside the range. -/
structure ExactFree (b b' : BasePages) (addr : ℕ) : Prop where
  outside : addr < pageSpaceBottom ∨ pageSpaceTop ≤ addr → b' = b
  inside : pageSpaceBottom ≤ addr → addr < pageSpaceTop → IsBasePage (pageAt addr) ∧
    ∀ i, b'.bitmap.test i = if i = basePageOffset (pageAt addr) then false else b.bitmap.test i

/-! ## The calls -/

theorem GetsBasePage.exact {b b' : BasePages} {page : ℕ} (h : GetsBasePage b b' page) : ExactGet b b' page where
  zero_iff := by
    constructor
    · exact fun h0 => (h.full h0).2
    intro hall
    by_contra h0
    obtain ⟨hbase, hfree, -⟩ := h.found h0
    exact hfree (hall page hbase)
  found h0 := ⟨(h.found h0).1, (h.found h0).2.1⟩
  marked i := by
    by_cases h0 : page = 0
    · rw [(h.full h0).1, if_neg fun hc => hc.1 h0]
    rw [(h.found h0).2.2, Bitmap.test_set]
    simp only [ne_eq, h0, not_false_eq_true, true_and]

theorem isBasePage_pageAt {addr : ℕ} (h1 : pageSpaceBottom ≤ addr) (h2 : addr < pageSpaceTop) :
    IsBasePage (pageAt addr) ∧ basePageOffset (pageAt addr) = basePageOffset addr := by
  rw [basePageOffset_eq, basePageOffset_eq]
  unfold pageAt pageSpaceBottom pageSpaceTop at *
  refine ⟨⟨Dvd.intro_left _ rfl, ?_, ?_⟩, ?_⟩
  · change 0x4000000 ≤ addr / 4096 * 4096
    omega
  · change addr / 4096 * 4096 < 0x8000000
    omega
  · omega

theorem freeBasePage_exact (b : BasePages) (addr : ℕ) : ExactFree b (freeBasePage b addr) addr where
  outside h := if_pos h
  inside h1 h2 := by
    obtain ⟨hbase, hoff⟩ := isBasePage_pageAt h1 h2
    refine ⟨hbase, fun i => ?_⟩
    rw [freeBasePage, if_neg (by omega), Bitmap.test_clear, hoff]

theorem HistoryOk.get {s : BaseHistory} (h : HistoryOk s) {b' : BasePages} {page : ℕ}
    (hget : GetsBasePage s.pages b' page) : HistoryOk ⟨b', if page = 0 then s.held else page :: s.held⟩ := by
  refine ⟨hget.cursor, fun q hq => ?_⟩
  have hmarked := hget.exact.marked (basePageOffset q)
  change b'.bitmap.test (basePageOffset q) = true ↔ _
  rw [hmarked]
  by_cases h0 : page = 0
  · rw [if_neg fun hc => hc.1 h0, if_pos h0]
    exact h.occupied_iff q hq
  rw [if_neg h0, List.mem_cons]
  by_cases heq : q = page
  · rw [if_pos ⟨h0, by rw [heq]⟩]
    exact iff_of_true rfl (.inl heq)
  rw [if_neg fun hc => heq (hq.offset_inj (hget.found h0).1 hc.2)]
  exact (h.occupied_iff q hq).trans (or_iff_right heq).symm

theorem HistoryOk.free {s : BaseHistory} (h : HistoryOk s) (addr : ℕ) :
    HistoryOk ⟨freeBasePage s.pages addr, s.held.filter fun q => q ≠ pageAt addr⟩ := by
  have hexact := freeBasePage_exact s.pages addr
  have hmem : ∀ q, q ∈ s.held.filter (fun q => q ≠ pageAt addr) ↔ q ∈ s.held ∧ q ≠ pageAt addr := fun q => by
    rw [List.mem_filter, decide_eq_true_iff]
  by_cases hout : addr < pageSpaceBottom ∨ pageSpaceTop ≤ addr
  · rw [hexact.outside hout]
    refine ⟨h.cursor, fun q hq => ?_⟩
    have hne : q ≠ pageAt addr := by
      have h1 := hq.bottom_le
      have h2 := hq.lt_top
      unfold pageAt pageSpaceBottom pageSpaceTop at *
      omega
    rw [hmem]
    exact (h.occupied_iff q hq).trans (and_iff_left hne).symm
  obtain ⟨hbase, hbits⟩ := hexact.inside (by omega) (by omega)
  refine ⟨?_, fun q hq => ?_⟩
  · rw [freeBasePage, if_neg hout]
    exact h.cursor
  change (freeBasePage s.pages addr).bitmap.test (basePageOffset q) = true ↔ _
  rw [hbits, hmem]
  by_cases heq : q = pageAt addr
  · rw [if_pos (by rw [heq])]
    exact iff_of_false (by decide) fun hc => hc.2 heq
  rw [if_neg fun hc => heq (hq.offset_inj hbase hc)]
  exact (h.occupied_iff q hq).trans (and_iff_left heq).symm

theorem historyOk_step (s : BaseHistory) (op : BaseOp) (h : HistoryOk s) :
    ∃ s', baseStep s op = .ok s' ∧ HistoryOk s' := by
  cases op with
  | getBasePage =>
    obtain ⟨b', page, hrun, hget⟩ := getBasePage_spec h.cursor
    refine ⟨_, ?_, h.get hget⟩
    rw [baseStep, hrun]
    rfl
  | freeBasePage page => exact ⟨_, rfl, h.free page.toNat⟩

theorem historyOk_start : HistoryOk baseStart := by
  refine ⟨dvd_zero 4096, fun q _ => iff_of_false ?_ List.not_mem_nil⟩
  rw [occupied, Bitmap.test_eq_testBit]
  change ¬Nat.testBit 0 _ = true
  rw [Nat.zero_testBit]
  decide

/-- **The base page allocator is exact.** -/
theorem base_pages_exact (ops : List BaseOp) : ∃ s, runSteps baseStep baseStart ops = .ok s ∧
      (∀ q, IsBasePage q → (occupied s.pages q ↔ q ∈ s.held)) ∧
      (∃ b' page, getBasePage s.pages = .ok (b', page) ∧ ExactGet s.pages b' page) ∧
      ∀ page : UInt32, ExactFree s.pages (freeBasePage s.pages page.toNat) page.toNat := by
  obtain ⟨s, hrun, h⟩ := inv_run (fun s op => historyOk_step s op) historyOk_start ops
  obtain ⟨b', page, hget, hspec⟩ := getBasePage_spec h.cursor
  exact ⟨s, hrun, h.occupied_iff, ⟨b', page, hget, hspec.exact⟩, fun page => freeBasePage_exact s.pages page.toNat⟩

end ZeldaOS
