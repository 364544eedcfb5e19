import ZeldaOS.Paging.Evict

/-!
# Page tables are given back

`reclaim_task` evicts the areas of a task page by page. A page table is given back exactly when the eviction that takes
its last page asks for it, at the last page of an area or of the table.

* `table_returned_iff`: when a page table is given back.
* `page_tables_returned_iff`: when all tables of a task are.
-/

namespace ZeldaOS

open Machine List

variable {τ : Type} {dir : τ → ℕ} {task : TaskMem} {t : τ}

/-! ## Runs of evictions -/

structure Shrinks (d : ℕ) (s s' : PagingState) : Prop where
  page : ∀ page < 2 ^ 20, lookup s'.mem d page = none ∨ lookup s'.mem d page = lookup s.mem d page
  entry : ∀ i < 1024, entryAt s'.mem d i = 0 ∨ entryAt s'.mem d i = entryAt s.mem d i
  base : ∀ q, IsBasePage q → occupied s'.base q → occupied s.base q

theorem Shrinks.refl (d : ℕ) (s : PagingState) : Shrinks d s s :=
  ⟨fun _ _ => .inr rfl, fun _ _ => .inr rfl, fun _ _ => id⟩

variable {d : ℕ}

theorem Shrinks.trans {s1 s2 s3 : PagingState} (h : Shrinks d s1 s2) (h' : Shrinks d s2 s3) : Shrinks d s1 s3 where
  page page hpage := by
    rcases h'.page page hpage with h0 | heq
    · exact .inl h0
    rw [heq]
    exact h.page page hpage
  entry i hi := by
    rcases h'.entry i hi with h0 | heq
    · exact .inl h0
    rw [heq]
    exact h.entry i hi
  base q hq ho := h.base q hq (h'.base q hq ho)

variable {b : BasePages} {page : ℕ}

theorem occupied_of_freeBasePage {q : ℕ} (h : occupied (freeBasePage b page) q) : occupied b q := by
  rw [occupied, freeBasePage] at h
  split_ifs at h
  · exact h
  rw [Bitmap.test_clear] at h
  split_ifs at h
  exact h

theorem not_occupied_freeBasePage (h : IsBasePage page) : ¬occupied (freeBasePage b page) page := by
  have hrange : ¬(page < pageSpaceBottom ∨ pageSpaceTop ≤ page) := by
    have := h.bottom_le
    have := h.lt_top
    omega
  rw [occupied, freeBasePage, if_neg hrange, Bitmap.test_clear, if_pos rfl]
  exact Bool.false_ne_true

theorem Evicts.shrinks {reclaim : Bool} {s s' : PagingState} (h : Evicts d page reclaim s s') : Shrinks d s s' where
  page page' hlt := by
    by_cases hp : page' = page
    · exact .inl (hp ▸ h.gone)
    · exact .inr (h.other page' hlt hp)
  entry i hi := by
    rcases h.tables with ⟨hsame, -, -⟩ | ⟨-, hzero, hsame, -⟩
    · exact .inr (hsame i hi)
    by_cases heq : i = page / 1024
    · exact .inl (heq ▸ hzero)
    · exact .inr (hsame i hi heq)
  base q _ ho := by
    rcases h.tables with ⟨-, hbase, -⟩ | ⟨-, -, -, hbase⟩
    · rwa [hbase] at ho
    rw [hbase] at ho
    exact occupied_of_freeBasePage ho

def Visits (task : TaskMem) (a : ℕ × Bool) : Prop :=
  a.1 < 2 ^ 32 ∧ (searchUserspaceVmaByAddr task.vmaList a.1).isSome

variable {s : FrameState} {a : ℕ × Bool}

theorem evictAt_evicts (h : Sound dir s.paging.mem s.paging.base s.paging.calls) (ht : task.pageDirectory = dir t)
    (ha : Visits task a) : ∃ s', evictAt task s a = .ok s' ∧ Sound dir s'.paging.mem s'.paging.base s'.paging.calls ∧
      Evicts (dir t) (a.1 / 4096) a.2 s.paging s'.paging := by
  have hvirt : (UInt32.ofNat a.1).toNat = a.1 := by rw [UInt32.toNat_ofNat', Nat.mod_eq_of_lt ha.1]
  obtain ⟨s', rc, hev, hsound, hevicts⟩ := h.userspaceEvictPage_evicts ht (.ofNat a.1) (by rw [hvirt]; exact ha.2) a.2
  rw [pageOf_ofNat ha.1] at hevicts
  refine ⟨⟨s', s.fastPageAddr, ((freedFrame s.paging task (.ofNat a.1)).map s.handed.erase).getD s.handed⟩,
    ?_, hsound, hevicts⟩
  simp only [evictAt, FrameState.evictPage, hev, bind, Except.bind]

variable {evs : List (ℕ × Bool)}

theorem evict_run (h : Sound dir s.paging.mem s.paging.base s.paging.calls) (ht : task.pageDirectory = dir t)
    (hevs : ∀ a ∈ evs, Visits task a) : ∃ s', runSteps (evictAt task) s evs = .ok s' ∧
      Sound dir s'.paging.mem s'.paging.base s'.paging.calls ∧ Shrinks (dir t) s.paging s'.paging ∧
      (∀ a ∈ evs, lookup s'.paging.mem (dir t) (a.1 / 4096) = none) ∧ ∀ page < 2 ^ 20, (∀ a ∈ evs, a.1 / 4096 ≠ page) →
        lookup s'.paging.mem (dir t) page = lookup s.paging.mem (dir t) page := by
  induction evs generalizing s with
  | nil => exact ⟨s, rfl, h, .refl _ _, fun a ha => absurd ha not_mem_nil, fun _ _ _ => rfl⟩
  | cons a evs ih =>
    rw [forall_mem_cons] at hevs
    obtain ⟨s1, hstep, h1, hevicts⟩ := evictAt_evicts h ht hevs.1
    obtain ⟨s', hrun, hsound, hshrinks, hgone, hother⟩ := ih h1 hevs.2
    have hpage : a.1 / 4096 < 2 ^ 20 := by
      have := hevs.1.1
      omega
    refine ⟨s', by rw [runSteps, hstep]; exact hrun, hsound, hevicts.shrinks.trans hshrinks, ?_, ?_⟩
    · refine forall_mem_cons.2 ⟨?_, hgone⟩
      rcases hshrinks.page _ hpage with h0 | heq
      · exact h0
      · exact heq.trans hevicts.gone
    · intro page hlt hne
      rw [forall_mem_cons] at hne
      exact (hother page hlt hne.2).trans (hevicts.other page hlt (Ne.symm hne.1))

section
variable {vmas : List UserVma}

theorem mem_evictions_iff : a ∈ evictions vmas ↔ ∃ vma ∈ vmas, vma.kernelVma = false ∧ a ∈ vma.evictions := by
  rw [evictions, mem_flatMap]
  constructor
  · rintro ⟨vma, hv, ha⟩
    obtain ⟨hv, hk⟩ := mem_filter.1 hv
    exact ⟨vma, hv, by simpa using hk, ha⟩
  · rintro ⟨vma, hv, hk, ha⟩
    exact ⟨vma, mem_filter.2 ⟨hv, by simp [hk]⟩, ha⟩

theorem evictions_visits (hlinear : ∀ vma ∈ vmas, vma.virtAddr + vma.length ≤ 2 ^ 32)
    (hvmas : task.vmaList = vmas.map UserVma.toVmArea) (ha : a ∈ evictions vmas) : Visits task a := by
  obtain ⟨vma, hv, -, ha⟩ := mem_evictions_iff.1 ha
  obtain ⟨k, hk, rfl⟩ := mem_evictions.1 ha
  have hlin := hlinear vma hv
  have hend : vma.endAddr ≤ vma.virtAddr + vma.length := Nat.mod_le _ _
  refine ⟨by dsimp only; omega, ?_⟩
  rw [searchUserspaceVmaByAddr, find?_isSome, hvmas]
  refine ⟨vma.toVmArea, mem_map_of_mem hv, ?_⟩
  rw [Bool.and_eq_true, decide_eq_true_iff, decide_eq_true_iff]
  exact ⟨Nat.le_add_right _ _, hk⟩

end

/-! ## Tables -/

/-- The eviction that takes the last present page of table `i` asks for the table to be reclaimed. -/
def ReclaimedLast (m : Mem) (d : ℕ) (evs : List (ℕ × Bool)) (i : ℕ) : Prop :=
  ∃ before addr behind, evs = before ++ (addr, true) :: behind ∧ addr / 4096 / 1024 = i ∧
    lookup m d (addr / 4096) ≠ none ∧ (∀ a ∈ before, a.1 / 4096 ≠ addr / 4096) ∧
    ∀ page < 2 ^ 20, page / 1024 = i → lookup m d page ≠ none → page = addr / 4096 ∨ ∃ a ∈ before, a.1 / 4096 = page

variable {i : ℕ}

/-- A table is given back by a round that takes its only page. -/
theorem Evicts.reclaims_iff {s s' : PagingState} {reclaim : Bool} (h : Evicts d page reclaim s s') (hi : i < 1024)
    (hp : present (entryAt s.mem d i)) : entryAt s'.mem d i = 0 ↔ reclaim = true ∧ page / 1024 = i ∧
      lookup s.mem d page ≠ none ∧ ∀ page' < 2 ^ 20, page' / 1024 = i → lookup s.mem d page' ≠ none → page' = page := by
  have hkept : entryAt s'.mem d i = entryAt s.mem d i → entryAt s'.mem d i ≠ 0 := fun heq h0 => by
    rw [← heq, h0] at hp
    exact not_present_zero hp
  constructor
  · intro h0
    rcases h.tables with ⟨hsame, -, -⟩ | ⟨⟨hreclaim, hmapped⟩, -, hsame, -⟩
    · exact absurd h0 (hkept (hsame i hi))
    obtain rfl : i = page / 1024 := by
      by_contra hne
      exact hkept (hsame i hi hne) h0
    refine ⟨hreclaim, rfl, hmapped, fun page' hlt hsub hne => ?_⟩
    by_contra hother
    refine hne ((h.other page' hlt hother).symm.trans (lookup_eq_none ?_))
    rw [hsub, h0]
    exact not_present_zero
  · rintro ⟨hreclaim, rfl, hmapped, honly⟩
    rcases h.tables with ⟨-, -, hleft⟩ | ⟨-, h0, -⟩
    · obtain ⟨page', hlt, hsub, hne⟩ := hleft hreclaim hmapped
      have hother : page' ≠ page := fun heq => hne (heq ▸ h.gone)
      rw [h.other page' hlt hother] at hne
      exact absurd (honly page' hlt hsub hne) hother
    · exact h0

theorem Evicts.reclaimed {s s' : PagingState} {reclaim : Bool} (h : Evicts d page reclaim s s')
    (hp : present (entryAt s.mem d (page / 1024))) (hi : page / 1024 < 1024) (h0 : entryAt s'.mem d (page / 1024) = 0) :
    s'.base = freeBasePage s.base (tableOf s.mem d (page / 1024)) := by
  rcases h.tables with ⟨hsame, -, -⟩ | ⟨-, -, -, hbase⟩
  · rw [← hsame _ hi, h0] at hp
    exact absurd hp not_present_zero
  · exact hbase

/-- A round that leaves the table leaves the answer to the rounds behind it. -/
theorem Evicts.reclaimedLast_cons {s s' : PagingState} (h : Evicts d (a.1 / 4096) a.2 s s') (hi : i < 1024)
    (hp : present (entryAt s.mem d i)) (h0 : entryAt s'.mem d i ≠ 0) (hevs : ∀ b ∈ evs, Visits task b) :
    ReclaimedLast s'.mem d evs i ↔ ReclaimedLast s.mem d (a :: evs) i := by
  have hpage : ∀ {addr before behind}, evs = before ++ (addr, true) :: behind → addr / 4096 < 2 ^ 20 := by
    rintro addr before behind rfl
    have := (hevs (addr, true) (mem_append_right _ mem_cons_self)).1
    dsimp only at this
    omega
  constructor
  · rintro ⟨before, addr, behind, heq, hsub, hmapped, hfirst, hall⟩
    have hne : a.1 / 4096 ≠ addr / 4096 := fun hc => hmapped (hc ▸ h.gone)
    rw [h.other _ (hpage heq) hne.symm] at hmapped
    refine ⟨a :: before, addr, behind, congrArg (a :: ·) heq, hsub, hmapped, forall_mem_cons.2 ⟨hne, hfirst⟩,
      fun page hlt hin hl => ?_⟩
    by_cases hc : page = a.1 / 4096
    · exact .inr ⟨a, mem_cons_self, hc.symm⟩
    rw [← h.other page hlt hc] at hl
    refine (hall page hlt hin hl).imp_right ?_
    rintro ⟨b, hb, hbp⟩
    exact ⟨b, mem_cons_of_mem _ hb, hbp⟩
  · rintro ⟨before, addr, behind, heq, hsub, hmapped, hfirst, hall⟩
    cases before with
    | nil =>
      obtain ⟨rfl, rfl⟩ := cons.inj heq
      refine absurd ((h.reclaims_iff hi hp).2 ⟨rfl, hsub, hmapped, fun page hlt hin hl => ?_⟩) h0
      refine (hall page hlt hin hl).resolve_right ?_
      rintro ⟨b, hb, -⟩
      exact absurd hb not_mem_nil
    | cons b before =>
      obtain ⟨rfl, htail⟩ := cons.inj heq
      rw [forall_mem_cons] at hfirst
      refine ⟨before, addr, behind, htail, hsub, ?_, hfirst.2, fun page hlt hin hl => ?_⟩
      · rw [h.other _ (hpage htail) hfirst.1.symm]
        exact hmapped
      have hne : page ≠ a.1 / 4096 := fun hc => hl (hc ▸ h.gone)
      rw [h.other page hlt hne] at hl
      refine (hall page hlt hin hl).imp_right ?_
      rintro ⟨c, hc, rfl⟩
      rcases mem_cons.1 hc with rfl | hc
      · exact absurd rfl hne
      · exact ⟨c, hc, rfl⟩

/-- **A run of evictions gives table `i` back exactly when the one that takes its last page asks for it.** -/
theorem table_returned_iff (h : Sound dir s.paging.mem s.paging.base s.paging.calls) (ht : task.pageDirectory = dir t)
    (hevs : ∀ a ∈ evs, Visits task a) (hi : i < 1024) (hp : present (entryAt s.paging.mem (dir t) i))
    {s' : FrameState} (hrun : runSteps (evictAt task) s evs = .ok s') :
    ¬present (entryAt s'.paging.mem (dir t) i) ∧ ¬occupied s'.paging.base (tableOf s.paging.mem (dir t) i) ↔
      ReclaimedLast s.paging.mem (dir t) evs i := by
  induction evs generalizing s with
  | nil =>
    cases hrun
    refine iff_of_false (fun hc => hc.1 hp) ?_
    rintro ⟨before, addr, behind, hnil, -⟩
    exact absurd hnil (by simp)
  | cons a evs ih =>
    rw [forall_mem_cons] at hevs
    obtain ⟨s1, hstep, h1, hevicts⟩ := evictAt_evicts h ht hevs.1
    rw [runSteps, hstep] at hrun
    have hrun : runSteps (evictAt task) s1 evs = .ok s' := hrun
    by_cases h0 : entryAt s1.paging.mem (dir t) i = 0
    · -- this round gives the table back, and nothing takes it again
      obtain ⟨hreclaim, rfl, hmapped, honly⟩ := (hevicts.reclaims_iff hi hp).1 h0
      have hbasePage := (h.table t _ hi hp).base
      obtain ⟨s2, hrun2, -, hshrinks, -, -⟩ := evict_run h1 ht hevs.2
      obtain rfl := Except.ok.inj (hrun2.symm.trans hrun)
      refine iff_of_true ⟨?_, fun hocc => ?_⟩ ⟨[], a.1, evs, ?_, rfl, hmapped, fun b hb => absurd hb not_mem_nil,
        fun page hlt hsub hne => .inl (honly page hlt hsub hne)⟩
      · rcases hshrinks.entry _ hi with hz | heq
        · exact hz ▸ not_present_zero
        · exact heq.trans h0 ▸ not_present_zero
      · have hocc1 := hshrinks.base _ hbasePage hocc
        rw [hevicts.reclaimed hp hi h0] at hocc1
        exact not_occupied_freeBasePage hbasePage hocc1
      · rw [← hreclaim]
        rfl
    -- the table stays, and the rest of the run decides
    have hentry := (hevicts.shrinks.entry i hi).resolve_left h0
    have htable : tableOf s1.paging.mem (dir t) i = tableOf s.paging.mem (dir t) i := congrArg frameAddr hentry
    rw [← htable, ih h1 hevs.2 (hentry ▸ hp) hrun]
    exact hevicts.reclaimedLast_cons hi hp h0 hevs.2

variable [DecidableEq τ]

/-- The eviction of all areas returns, every entry of the user half of the directory is then not present, and the base
pages of the page tables are free. -/
def TablesReturned (s : PagingState) (task : TaskMem) (vmas : List UserVma) (fastPageAddr : ℕ) (handed : List ℕ) :
    Prop :=
  ∃ s', evictVmas task ⟨s, fastPageAddr, handed⟩ vmas = .ok s' ∧ ∀ i, 256 ≤ i → i < 1024 →
    ¬present (entryAt s'.paging.mem task.pageDirectory i) ∧ (present (entryAt s.mem task.pageDirectory i) →
      ¬occupied s'.paging.base (tableOf s.mem task.pageDirectory i))

/-- **The page tables of a task are given back exactly when each eviction that takes the last page of one asks for
it.** -/
theorem page_tables_returned_iff (b : Boot τ) (ops : List (PagingOp τ)) (s : PagingSystem τ)
    (hrun : b.start.run ops = .ok s) (t : τ) (vmas : List UserVma)
    (hvmas : (s.task t).vmaList = vmas.map UserVma.toVmArea)
    (hlinear : ∀ vma ∈ vmas, vma.virtAddr + vma.length ≤ 2 ^ 32) (fastPageAddr : ℕ) (handed : List ℕ) :
    TablesReturned s.state (s.task t) vmas fastPageAddr handed ↔
      ∀ i, 256 ≤ i → i < 1024 → present (entryAt s.state.mem (s.task t).pageDirectory i) →
        ReclaimedLast s.state.mem (s.task t).pageDirectory (evictions vmas) i := by
  obtain ⟨s0, hrun0, hgood⟩ := b.start_good.run ops
  rw [hrun] at hrun0
  cases hrun0
  have hdir := hgood.dir_eq t
  set r : FrameState := ⟨s.state, fastPageAddr, handed⟩
  have hsound : Sound (fun t => (b.task t).pageDirectory) r.paging.mem r.paging.base r.paging.calls := hgood.sound
  have hvisits : ∀ a ∈ evictions vmas, Visits (s.task t) a := fun a ha => evictions_visits hlinear hvmas ha
  have heq : evictVmas (s.task t) r vmas = runSteps (evictAt (s.task t)) r (evictions vmas) := by
    refine evictVmas_eq (fun vma hv => ?_) (fun vma hv => ?_) (fun vma hv => ?_) r
    · rw [hvmas]
      exact mem_map_of_mem hv
    · have := hlinear vma hv
      omega
    have := hlinear vma hv
    have hend : vma.endAddr ≤ vma.virtAddr + vma.length := Nat.mod_le _ _
    omega
  obtain ⟨s', hrun', -, hshrinks, -, -⟩ := evict_run hsound hdir hvisits
  have hiff : ∀ i < 1024, present (entryAt s.state.mem (b.task t).pageDirectory i) →
      (¬present (entryAt s'.paging.mem (b.task t).pageDirectory i) ∧
        ¬occupied s'.paging.base (tableOf s.state.mem (b.task t).pageDirectory i) ↔
          ReclaimedLast s.state.mem (b.task t).pageDirectory (evictions vmas) i) := fun i hi hp =>
    table_returned_iff hsound hdir hvisits hi hp hrun'
  rw [TablesReturned, hdir]
  constructor
  · rintro ⟨s2, hs2, hall⟩ i hlo hi hp
    obtain rfl := Except.ok.inj ((heq.trans hrun').symm.trans hs2)
    exact (hiff i hi hp).1 ⟨(hall i hlo hi).1, (hall i hlo hi).2 hp⟩
  · intro hlast
    refine ⟨s', heq.trans hrun', fun i hlo hi => ?_⟩
    by_cases hp : present (entryAt s.state.mem (b.task t).pageDirectory i)
    · obtain ⟨hgone, hfree⟩ := (hiff i hi hp).2 (hlast i hlo hi hp)
      exact ⟨hgone, fun _ => hfree⟩
    · refine ⟨?_, fun hc => absurd hc hp⟩
      rcases hshrinks.entry i hi with h0 | hsame
      · exact h0 ▸ not_present_zero
      · exact hsame ▸ hp

def smallAreas : List UserVma :=
  [{ dataArea with name := .textAndData 0, kernelVma := false, preMap := false, executable := false },
    { screenArea with name := .textAndData 1, kernelVma := false, preMap := false, executable := false }]

def mapSecond : List (PagingOp Unit) := [.map () 0x40001000 0x400000 1 0 0]

theorem page_tables_returned_iff_small : ∃ s, smallBoot.start.run mapSecond = .ok s ∧
      TablesReturned s.state (s.task ()) smallAreas 0 [] := by
  obtain ⟨s, hrun, htask, hmapped, hentries⟩ : ∃ s, smallBoot.start.run mapSecond = .ok s ∧ s.task = smallBoot.task ∧
      (∀ page, s.mapped () page = if page = 0x40001 then some 0x400000 else none) ∧
      ∀ i < 1024, present (entryAt s.state.mem pageSpaceBottom i) → i = 256 :=
    ⟨_, rfl, rfl, fun page => by simp [PagingSystem.record, Boot.start]; rfl, by decide +kernel⟩
  obtain ⟨s0, hrun0, hgood⟩ := smallBoot.start_good.run mapSecond
  rw [hrun] at hrun0
  cases hrun0
  have hdir : (s.task ()).pageDirectory = pageSpaceBottom := congrArg (fun f => (f ()).pageDirectory) htask
  have hlookup : ∀ page < 2 ^ 20, lookup s.state.mem pageSpaceBottom page =
      if page = 0x40001 then some 0x400000 else none := fun page hlt =>
    (hgood.mapped () page hlt).trans (hmapped page)
  refine ⟨s, hrun, (page_tables_returned_iff smallBoot mapSecond s hrun () smallAreas
    (congrArg (fun f => (f ()).vmaList) htask) (by decide) 0 []).2 fun i _ hi hp => ?_⟩
  rw [hdir] at hp ⊢
  obtain rfl := hentries i hi hp
  refine ⟨[(0x40000000, false)], 0x40001000, [(0x50000000, true)], by decide, by decide, ?_,
    forall_mem_singleton.2 (by decide), fun page hlt _ hl => .inl ?_⟩
  · rw [hlookup _ (by decide), if_pos (by decide)]
    exact Option.some_ne_none _
  · by_contra hne
    rw [hlookup page hlt, if_neg hne] at hl
    exact hl rfl

/-- **A page table is kept when the last page of its area is not present.** -/
theorem page_table_kept : ∃ s s', smallBoot.start.run [.map () 0x40000000 0x400000 1 0 0] = .ok s ∧
      evictVmas (s.task ()) ⟨s.state, 0, []⟩ smallAreas = .ok s' ∧
      present (entryAt s'.paging.mem (s.task ()).pageDirectory 256) ∧
      occupied s'.paging.base (tableOf s.state.mem (s.task ()).pageDirectory 256) ∧
      ¬TablesReturned s.state (s.task ()) smallAreas 0 [] := by
  obtain ⟨s, s', hrun, hev, hkept, hocc⟩ : ∃ s s', smallBoot.start.run [.map () 0x40000000 0x400000 1 0 0] = .ok s ∧
      evictVmas (s.task ()) ⟨s.state, 0, []⟩ smallAreas = .ok s' ∧
      present (entryAt s'.paging.mem (s.task ()).pageDirectory 256) ∧
      occupied s'.paging.base (tableOf s.state.mem (s.task ()).pageDirectory 256) :=
    ⟨_, _, rfl, rfl, by decide, by decide⟩
  refine ⟨s, s', hrun, hev, hkept, hocc, ?_⟩
  rintro ⟨s2, hs2, hall⟩
  obtain rfl := Except.ok.inj (hev.symm.trans hs2)
  exact (hall 256 le_rfl (by decide)).1 hkept

end ZeldaOS
