import ZeldaOS.Paging.Frames

/-!
# Frames in a row

`get_pages`, for every bitmap of the frames and every number of pages that the memory has room for.

* `get_pages_exact_iff`: when contiguous allocation is exact.
-/

namespace ZeldaOS

open Machine

/-! ## The scan -/

/-- The `n` frames from `page` on are free and inside the memory. -/
structure FreeRunAt (start boundary : ℕ) (bitmap : Bitmap) (n page : ℕ) : Prop where
  aligned : 4096 ∣ page
  start_le : start ≤ page
  le_boundary : page + 4096 * n ≤ boundary
  free : ∀ i < n, isPageFree bitmap (page + 4096 * i) = true

/-- `get_pages` returned `page` for `bitmap`, and left `bitmap'`. -/
structure ExactPages (start boundary : ℕ) (bitmap bitmap' : Bitmap) (n page : ℕ) : Prop where
  zero_iff : page = 0 ↔ ¬∃ a, FreeRunAt start boundary bitmap n a
  lowest : page ≠ 0 → FreeRunAt start boundary bitmap n page ∧ ∀ a, FreeRunAt start boundary bitmap n a → page ≤ a
  marked : ∀ i, bitmap'.test i =
    if page ≠ 0 ∧ page >>> 12 ≤ i ∧ i < page >>> 12 + n then true else bitmap.test i

/-- Without a run, the scan ends: the first probe reaches the end of the memory, or an occupied frame is there behind
which a run would reach it and not wrap around, or that is the last frame or behind the memory. -/
def ScanEnds (start boundary : ℕ) (bitmap : Bitmap) (n : ℕ) : Prop :=
  start + 4096 * n = boundary ∨ ∃ f, 4096 ∣ f ∧ f < 2 ^ 32 ∧ isPageFree bitmap f = false ∧
    (boundary ≤ f + 4096 * (n + 1) ∧ f + 4096 * (n + 1) < 2 ^ 32 ∨ boundary ≤ f + 4096 ∧ f + 4096 < 2 ^ 32)

def frameFree (bitmap : Bitmap) (k : ℕ) : Bool := !bitmap.test k

theorem shiftRight_page (k : ℕ) : (4096 * k) >>> 12 = k := by
  omega

theorem isPageFree_page (bitmap : Bitmap) (k : ℕ) : isPageFree bitmap (4096 * k) = frameFree bitmap k := by
  rw [isPageFree, shiftRight_page, frameFree]

theorem runPage_page (a idx : ℕ) : runPage (4096 * a) idx = 4096 * ((a + idx) % 2 ^ 20) := by
  unfold runPage u32 pageSize
  omega

theorem searchPages_eq (bitmap : Bitmap) (stop n fuel a : ℕ) : searchPages bitmap (4096 * stop) n fuel (4096 * a) =
      (scanRing (frameFree bitmap) (2 ^ 20) stop n fuel a).map (Option.map (4096 * ·)) := by
  induction fuel generalizing a with
  | zero => rfl
  | succ fuel ih =>
    have hcheck : u32 (((4096 * a : ℕ) : ℤ) + pageSize * (n : ℤ)) = 4096 * ((a + n) % 2 ^ 20) := by
      unfold u32 pageSize
      omega
    have hrun : freeRun bitmap (4096 * a) (n : ℤ).toNat =
        leadingRun (fun i => frameFree bitmap ((a + i) % 2 ^ 20)) n := by
      rw [freeRun, Int.toNat_natCast]
      simp only [runPage_page, isPageFree_page]
    rw [searchPages, scanRing, hcheck, hrun]
    by_cases hbelow : a < stop
    · rw [if_pos (by omega), if_pos hbelow]
      by_cases hend : stop ≤ (a + n) % 2 ^ 20
      · rw [if_pos (by omega), if_pos hend]
        rfl
      rw [if_neg (by omega), if_neg hend]
      by_cases hall : leadingRun (fun i => frameFree bitmap ((a + i) % 2 ^ 20)) n = n
      · rw [if_pos (by rw [hall]), if_pos hall]
        rfl
      · rw [if_neg (fun hc => hall (Int.natCast_inj.1 hc)), if_neg hall, runPage_page, ih, add_assoc]
    · rw [if_neg (by omega), if_neg hbelow]
      rfl

variable {start stop n k : ℕ}

theorem freeRunAt_iff (bitmap : Bitmap) :
    FreeRunAt (4096 * start) (4096 * stop) bitmap n (4096 * k) ↔ RunIn (frameFree bitmap) start stop n k := by
  have hpage : ∀ i, isPageFree bitmap (4096 * k + 4096 * i) = frameFree bitmap (k + i) := fun i => by
    rw [← mul_add, isPageFree_page]
  constructor
  · intro h
    have h1 := h.start_le
    have h2 := h.le_boundary
    exact ⟨by omega, by omega, fun i hi => hpage i ▸ h.free i hi⟩
  intro h
  have h1 := h.start_le
  have h2 := h.le_stop
  exact ⟨Dvd.intro _ rfl, by omega, by omega, fun i hi => (hpage i).trans (h.free i hi)⟩

variable {bitmap : Bitmap}

theorem markRun_spec (hlt : k + n ≤ 2 ^ 20) (hfree : ∀ i < n, frameFree bitmap (k + i) = true) :
    ∃ bitmap', markRun bitmap (4096 * k) n = .ok bitmap' ∧
      ∀ i, bitmap'.test i = if k ≤ i ∧ i < k + n then true else bitmap.test i := by
  induction n with
  | zero =>
    refine ⟨bitmap, rfl, fun i => ?_⟩
    rw [if_neg (by omega)]
  | succ n ih =>
    obtain ⟨bitmap', hmark, hbits⟩ := ih (by omega) fun i hi => hfree i (by omega)
    have hpage : runPage (4096 * k) n = 4096 * (k + n) := by
      rw [runPage_page, Nat.mod_eq_of_lt (by omega)]
    have hstill : isPageFree bitmap' (4096 * (k + n)) = true := by
      rw [isPageFree_page, frameFree, hbits, if_neg (by omega)]
      exact hfree n (Nat.lt_succ_self n)
    refine ⟨bitmap'.set (k + n), ?_, fun i => ?_⟩
    · unfold markRun at hmark ⊢
      rw [List.range_succ, List.foldlM_append, hmark]
      simp only [List.foldlM_cons, List.foldlM_nil, hpage, ensure_of hstill, markPageAsOccupied_eq, shiftRight_page,
        bind, Except.bind, pure, Except.pure]
    rw [Bitmap.test_set, hbits]
    by_cases heq : i = k + n
    · rw [if_pos heq, if_pos (by omega)]
    rw [if_neg heq]
    exact if_congr (by omega) rfl rfl

section
variable {bitmap' : Bitmap}

theorem getPages_eq_ok_iff {page : ℕ} : getPages (4096 * start) (4096 * stop) bitmap n = .ok (bitmap', page) ↔
      scanRing (frameFree bitmap) (2 ^ 20) stop n pagesFuel start = .ok none ∧ bitmap' = bitmap ∧ page = 0 ∨
      ∃ k, scanRing (frameFree bitmap) (2 ^ 20) stop n pagesFuel start = .ok (some k) ∧
        markRun bitmap (4096 * k) n = .ok bitmap' ∧ page = 4096 * k := by
  have haligned : 4096 * start % pageSize = 0 := Nat.mul_mod_right 4096 start
  rw [getPages, ensure_of haligned, searchPages_eq, Int.toNat_natCast]
  cases hscan : scanRing (frameFree bitmap) (2 ^ 20) stop n pagesFuel start with
  | error e => simp [bind, Except.bind, Except.map]
  | ok r =>
    cases r with
    | none =>
      simp only [bind, Except.bind, Except.map, Option.map, Except.ok.injEq, Prod.mk.injEq, true_and, reduceCtorEq,
        false_and, exists_false, or_false]
      exact and_congr eq_comm eq_comm
    | some k =>
      cases hmark : markRun bitmap (4096 * k) n with
      | error e => simp [bind, Except.bind, Except.map, hmark]
      | ok bitmap1 =>
        simp only [bind, Except.bind, Except.map, Option.map, hmark, Except.ok.injEq, Prod.mk.injEq, reduceCtorEq,
          false_and, false_or, Option.some.injEq]
        constructor
        · rintro ⟨rfl, rfl⟩
          exact ⟨k, rfl, hmark, rfl⟩
        rintro ⟨k', rfl, hmark', rfl⟩
        rw [hmark] at hmark'
        exact ⟨Except.ok.inj hmark', rfl⟩

/-! ## The results -/

theorem ExactPages.of_least (hk : k ≠ 0) (hrun : RunIn (frameFree bitmap) start stop n k)
    (hleast : ∀ s, RunIn (frameFree bitmap) start stop n s → k ≤ s)
    (hbits : ∀ i, bitmap'.test i = if k ≤ i ∧ i < k + n then true else bitmap.test i) :
    ExactPages (4096 * start) (4096 * stop) bitmap bitmap' n (4096 * k) := by
  refine ⟨⟨fun h => by omega, fun h => absurd ⟨_, (freeRunAt_iff bitmap).2 hrun⟩ h⟩, fun _ => ⟨?_, ?_⟩, ?_⟩
  · exact (freeRunAt_iff bitmap).2 hrun
  · intro a ha
    obtain ⟨s, rfl⟩ := ha.aligned
    exact Nat.mul_le_mul_left 4096 (hleast s ((freeRunAt_iff bitmap).1 ha))
  intro i
  rw [hbits, shiftRight_page]
  exact if_congr ⟨fun h => ⟨by omega, h⟩, And.right⟩ rfl rfl

theorem ExactPages.of_none (hnone : ¬∃ a, FreeRunAt (4096 * start) (4096 * stop) bitmap n a) :
    ExactPages (4096 * start) (4096 * stop) bitmap bitmap n 0 :=
  ⟨⟨fun _ => hnone, fun _ => rfl⟩, fun h => absurd rfl h, fun i => by rw [if_neg (fun h => h.1 rfl)]⟩

theorem ends_before_stop (hsize : stop < 2 ^ 20) (hle : k + n ≤ stop)
    (hscan : scanRing (frameFree bitmap) (2 ^ 20) stop n pagesFuel start = .ok (some k)) : k + n < stop := by
  have hlt := (scanRing_some hscan).1
  rwa [Nat.mod_eq_of_lt (by omega)] at hlt

theorem not_exact_zero (hn : 0 < n) (hsize : n ≤ 2 ^ 20)
    (hscan : scanRing (frameFree bitmap) (2 ^ 20) stop n pagesFuel start = .ok (some 0))
    (hmark : markRun bitmap (4096 * 0) n = .ok bitmap') :
    ¬ExactPages (4096 * start) (4096 * stop) bitmap bitmap' n 0 := by
  intro h
  have hfree : ∀ i < n, frameFree bitmap (0 + i) = true := by
    intro i hi
    have hat := (scanRing_some hscan).2 i hi
    rwa [Nat.mod_eq_of_lt (by omega)] at hat
  obtain ⟨bitmap1, hmark1, hbits⟩ := markRun_spec (by omega) hfree
  rw [hmark] at hmark1
  cases hmark1
  have hset := h.marked 0
  rw [hbits, if_pos ⟨le_rfl, by omega⟩, if_neg (fun hc => hc.1 rfl)] at hset
  have h0 := hfree 0 hn
  rw [frameFree, zero_add, ← hset] at h0
  cases h0

theorem exact_iff_of_seen (hsize : stop < 2 ^ 20) (hn : 0 < n)
    (hseen : ∃ k, RunIn (frameFree bitmap) start stop n k ∧ k + n < stop) :
    (∃ bitmap' page, getPages (4096 * start) (4096 * stop) bitmap n = .ok (bitmap', page) ∧
      ExactPages (4096 * start) (4096 * stop) bitmap bitmap' n page) ↔
      ¬FreeRunAt (4096 * start) (4096 * stop) bitmap n 0 := by
  have hfuel : stop < start + pagesFuel := by
    unfold pagesFuel
    omega
  obtain ⟨k, hscan, hrun, hleast⟩ := scanRing_least hsize hfuel le_rfl (fun s hs => hs.start_le) hseen
  have hle := hrun.le_stop
  obtain ⟨bitmap1, hmark, hbits⟩ := markRun_spec (by omega) hrun.free
  have hget := getPages_eq_ok_iff.2 (.inr ⟨k, hscan, hmark, rfl⟩)
  constructor
  · rintro ⟨bitmap', page, hget', hexact⟩ hzero
    rw [hget] at hget'
    cases hget'
    have hk := hleast 0 ((freeRunAt_iff bitmap).1 hzero)
    obtain rfl : k = 0 := by omega
    exact not_exact_zero hn (by omega) hscan hmark hexact
  · intro hzero
    refine ⟨bitmap1, 4096 * k, hget, ExactPages.of_least (fun hk => hzero ?_) hrun hleast hbits⟩
    subst hk
    exact (freeRunAt_iff bitmap).2 hrun

theorem exact_iff_of_not_seen (hsize : stop < 2 ^ 20) (hn : 0 < n) (hroom : start + n ≤ stop)
    (hnone : ∀ s, RunIn (frameFree bitmap) start stop n s → stop ≤ s + n) :
    (∃ bitmap' page, getPages (4096 * start) (4096 * stop) bitmap n = .ok (bitmap', page) ∧
      ExactPages (4096 * start) (4096 * stop) bitmap bitmap' n page) ↔
      (¬∃ a, FreeRunAt (4096 * start) (4096 * stop) bitmap n a) ∧
        scanRing (frameFree bitmap) (2 ^ 20) stop n pagesFuel start = .ok none := by
  constructor
  · rintro ⟨bitmap', page, hget, hexact⟩
    rcases getPages_eq_ok_iff.1 hget with ⟨hscan, rfl, rfl⟩ | ⟨k, hscan, hmark, rfl⟩
    · exact ⟨hexact.zero_iff.1 rfl, hscan⟩
    exfalso
    by_cases hk : k = 0
    · subst hk
      exact not_exact_zero hn (by omega) hscan hmark hexact
    have hrun := (freeRunAt_iff bitmap).1 (hexact.lowest (by omega)).1
    have hlt := ends_before_stop hsize hrun.le_stop hscan
    have hge := hnone k hrun
    omega
  · rintro ⟨hno, hscan⟩
    exact ⟨bitmap, 0, getPages_eq_ok_iff.2 (.inl ⟨hscan, rfl, rfl⟩), ExactPages.of_none hno⟩

theorem scanEnds_iff : ScanEnds (4096 * start) (4096 * stop) bitmap n ↔
    start + n = stop ∨ ∃ f < 2 ^ 20, StopsScan (frameFree bitmap) (2 ^ 20) stop n f := by
  refine or_congr (by omega) ⟨?_, ?_⟩
  · rintro ⟨f, ⟨k, rfl⟩, hlt, hfree, hstop⟩
    rw [isPageFree_page] at hfree
    exact ⟨k, by omega, hfree, by omega⟩
  · rintro ⟨k, hlt, hfree, hstop⟩
    exact ⟨4096 * k, Dvd.intro _ rfl, by omega, by rwa [isPageFree_page], by omega⟩

end

/-- **When contiguous allocation is exact.** -/
theorem get_pages_exact_iff (start boundary : ℕ) (hstart : 4096 ∣ start) (hboundary : 4096 ∣ boundary)
    (hlt : start < boundary) (hle : boundary ≤ 0xFFFFF000) (bitmap : Bitmap) (n : ℕ) (hn : 1 ≤ n)
    (hroom : n ≤ (boundary - start) / 4096) : (∃ bitmap' page, getPages start boundary bitmap n = .ok (bitmap', page) ∧
      ExactPages start boundary bitmap bitmap' n page) ↔
    (∃ a, FreeRunAt start boundary bitmap n a ∧ a + 4096 * n < boundary) ∧ ¬FreeRunAt start boundary bitmap n 0 ∨
      (¬∃ a, FreeRunAt start boundary bitmap n a) ∧ ScanEnds start boundary bitmap n := by
  obtain ⟨s, rfl⟩ := hstart
  obtain ⟨stop, rfl⟩ := hboundary
  have hsize : stop < 2 ^ 20 := by omega
  have hroom' : s + n ≤ stop := by omega
  by_cases hseen : ∃ k, RunIn (frameFree bitmap) s stop n k ∧ k + n < stop
  · obtain ⟨k, hrun, hk⟩ := hseen
    have hat := (freeRunAt_iff bitmap).2 hrun
    rw [exact_iff_of_seen hsize hn ⟨k, hrun, hk⟩]
    constructor
    · intro hzero
      exact .inl ⟨⟨4096 * k, hat, by omega⟩, hzero⟩
    rintro (⟨-, hzero⟩ | ⟨hno, -⟩)
    · exact hzero
    · exact absurd ⟨_, hat⟩ hno
  have hnone : ∀ k, RunIn (frameFree bitmap) s stop n k → stop ≤ k + n := fun k hk =>
    not_lt.1 fun hc => hseen ⟨k, hk, hc⟩
  rw [exact_iff_of_not_seen hsize hn hroom' hnone, scanEnds_iff, pagesFuel,
    scanRing_none_iff hsize hn hroom' le_rfl hnone]
  constructor
  · exact .inr
  rintro (⟨⟨a, ha, hend⟩, -⟩ | h)
  · obtain ⟨k, rfl⟩ := ha.aligned
    have hge := hnone k ((freeRunAt_iff bitmap).1 ha)
    omega
  · exact h

theorem get_pages_exact_one : ∃ bitmap' page, getPages 0x400000 0x402000 (fun _ => 0) (1 : ℕ) = .ok (bitmap', page) ∧
      ExactPages 0x400000 0x402000 (fun _ => 0) bitmap' 1 page := by
  refine (get_pages_exact_iff 0x400000 0x402000 (by decide) (by decide) (by decide) (by decide) (fun _ => 0) 1 le_rfl
    (by decide)).2 (.inl ⟨⟨0x400000, ⟨by decide, le_rfl, by decide, by decide⟩, by decide⟩, fun h => ?_⟩)
  exact absurd h.start_le (by decide)

/-- **A run that ends with the memory is not found.** -/
theorem last_run_missed : getPages 0x400000 0x402000 (fun _ => 0) (2 : ℕ) = .ok (fun _ => 0, 0) ∧
      FreeRunAt 0x400000 0x402000 (fun _ => 0) 2 0x400000 ∧
      ¬ExactPages 0x400000 0x402000 (fun _ => 0) (fun _ => 0) 2 0 := by
  have hrun : FreeRunAt 0x400000 0x402000 (fun _ => 0) 2 0x400000 := ⟨by decide, le_rfl, by decide, by decide⟩
  exact ⟨rfl, hrun, fun h => h.zero_iff.1 rfl ⟨_, hrun⟩⟩

end ZeldaOS
