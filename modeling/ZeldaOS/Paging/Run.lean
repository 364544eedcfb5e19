import ZeldaOS.Paging.Sound

/-!
# Page tables are a finite map

Runs of mappings, evictions and reclaims on any tasks, against a map from pages to frames.

* `pageTables_finite_map`: the page tables are a finite map.
-/

namespace ZeldaOS

open Machine Function

variable {τ : Type} [DecidableEq τ]

/-! ## Runs -/

structure Boot (τ : Type) where
  mem : Mem
  base : BasePages
  freePageBitmap : Bitmap
  task : τ → TaskMem
  cursor : 4096 ∣ base.fastBasePageAddr
  dir_base : ∀ t, IsBasePage (task t).pageDirectory
  dir_occupied : ∀ t, occupied base (task t).pageDirectory
  dir_inj : Function.Injective fun t => (task t).pageDirectory
  dir_zero : ∀ t, ∀ i < 1024, entryAt mem (task t).pageDirectory i = 0

/-- What else the kernel does to a task's areas is `setVmas`. -/
inductive PagingOp (τ : Type) where
  | map (t : τ) (virt phy : UInt32) (writePermission writethrough cachedisable : UInt8)
  | evict (t : τ) (virt : UInt32) (reclaim : Bool)
  | reclaim (t : τ) (virt : UInt32)
  | setVmas (t : τ) (vmas : List VmArea)

def PagingOp.target : PagingOp τ → Option (τ × ℕ)
  | .map t virt _ _ _ _ => some (t, pageOf virt)
  | .evict t virt _ => some (t, pageOf virt)
  | .reclaim _ _ => none
  | .setVmas _ _ => none

/-- With the frame of the last mapping of each page that was not evicted since. -/
structure PagingSystem (τ : Type) where
  state : PagingState
  task : τ → TaskMem
  mapped : τ → ℕ → Option ℕ

def Boot.start (b : Boot τ) : PagingSystem τ where
  state := ⟨b.mem, b.base, b.freePageBitmap, []⟩
  task := b.task
  mapped _ _ := none

def PagingSystem.record (s : PagingSystem τ) (state : PagingState) (result : ℤ) (t : τ) (page : ℕ)
    (frame : Option ℕ) : PagingSystem τ :=
  { s with
    state
    mapped := if result = 0 then fun t' page' =>
        if t' = t ∧ page' = page then frame else s.mapped t' page'
      else s.mapped }

def PagingSystem.step (s : PagingSystem τ) : PagingOp τ → Except Fault (PagingSystem τ)
  | .map t virt phy writePermission writethrough cachedisable => do
    let (state, result) ← userspaceMapPage s.state (s.task t) virt phy writePermission writethrough cachedisable
    .ok (s.record state result t (pageOf virt) (some (phy.toNat / 4096 * 4096)))
  | .evict t virt reclaim => do
    let (state, result) ← userspaceEvictPage s.state (s.task t) virt reclaim
    .ok (s.record state result t (pageOf virt) none)
  | .reclaim t virt => do
    let (state, _) ← reclaimPageTable s.state (s.task t) virt
    .ok { s with state }
  | .setVmas t vmas =>
    .ok { s with task := update s.task t { s.task t with vmaList := vmas } }

def PagingSystem.run (s : PagingSystem τ) : List (PagingOp τ) → Except Fault (PagingSystem τ)
  | [] => .ok s
  | op :: ops => do (← s.step op).run ops

def PagingSystem.translate (s : PagingSystem τ) (t : τ) (virt : UInt32) : ℕ :=
  virt2phy s.state.mem (s.task t).pageDirectory virt

/-! ## What holds in every state -/

/-- Present directory entries point to different occupied base pages, and none to a directory. -/
structure PagingSystem.Separate (s : PagingSystem τ) : Prop where
  base : ∀ t, ∀ i < 1024, present (entryAt s.state.mem (s.task t).pageDirectory i) →
    IsBasePage (tableOf s.state.mem (s.task t).pageDirectory i) ∧
    occupied s.state.base (tableOf s.state.mem (s.task t).pageDirectory i) ∧
    ∀ t', tableOf s.state.mem (s.task t).pageDirectory i ≠ (s.task t').pageDirectory
  apart : ∀ t, ∀ i < 1024, ∀ t', ∀ i' < 1024, present (entryAt s.state.mem (s.task t).pageDirectory i) →
    present (entryAt s.state.mem (s.task t').pageDirectory i') →
    tableOf s.state.mem (s.task t).pageDirectory i = tableOf s.state.mem (s.task t').pageDirectory i' → t = t' ∧ i = i'

def PagingSystem.Translates (s : PagingSystem τ) : Prop := ∀ t virt,
  s.translate t virt =
    match s.mapped t (pageOf virt) with
    | some frame => frame ||| virt.toNat % 4096
    | none => 0

structure PagingSystem.Good (dir : τ → ℕ) (s : PagingSystem τ) : Prop where
  dir_eq : ∀ t, (s.task t).pageDirectory = dir t
  sound : Sound dir s.state.mem s.state.base s.state.calls
  mapped : ∀ t, ∀ page < 2 ^ 20, lookup s.state.mem (dir t) page = s.mapped t page

omit [DecidableEq τ] in
theorem Boot.start_good (b : Boot τ) : b.start.Good fun t => (b.task t).pageDirectory := by
  have hnone : ∀ t, ∀ i < 1024, ¬present (entryAt b.mem (b.task t).pageDirectory i) :=
    fun t i hi => b.dir_zero t i hi ▸ not_present_zero
  refine ⟨fun _ => rfl, ?_, fun t page hpage => lookup_eq_none (hnone t _ (by omega))⟩
  exact ⟨b.cursor, b.dir_base, b.dir_occupied, b.dir_inj, fun t i hi hp => absurd hp (hnone t i hi),
    fun t i hi _ _ _ hp => absurd hp (hnone t i hi), trivial⟩

theorem PagingSystem.Good.record {dir : τ → ℕ} {s : PagingSystem τ} (h : s.Good dir)
    {state : PagingState} {result : ℤ} {t : τ} {page : ℕ} {frame : Option ℕ}
    (hr : Remaps dir s.state state t page frame result) : (s.record state result t page frame).Good dir := by
  refine ⟨h.dir_eq, hr.sound, fun t' page' hpage' => ?_⟩
  show lookup state.mem (dir t') page' = (if result = 0 then _ else s.mapped) t' page'
  by_cases hzero : result = 0
  · rw [if_pos hzero]
    by_cases hc : t' = t ∧ page' = page
    · obtain ⟨rfl, rfl⟩ := hc
      rw [if_pos ⟨rfl, rfl⟩, hr.self hzero]
    rw [if_neg hc, ← h.mapped t' page' hpage']
    exact hr.other t' page' hpage' (.inr (not_and_or.mp hc))
  · rw [if_neg hzero, ← h.mapped t' page' hpage']
    exact hr.other t' page' hpage' (.inl hzero)

theorem PagingSystem.Good.step {dir : τ → ℕ} {s : PagingSystem τ} (h : s.Good dir) (op : PagingOp τ) :
    ∃ s', s.step op = .ok s' ∧ s'.Good dir ∧ ∀ t, ∀ page < 2 ^ 20, op.target ≠ some (t, page) →
        lookup s'.state.mem (dir t) page = lookup s.state.mem (dir t) page := by
  cases op with
  | map t virt phy w wt cd =>
    obtain ⟨state, result, he, -, hr⟩ := h.sound.userspaceMapPage (h.dir_eq t) virt phy w wt cd
    refine ⟨_, by simp only [PagingSystem.step, he, bind, Except.bind], h.record hr,
      fun t' page hpage hne => hr.other t' page hpage (.inr (not_and_or.mp fun hc => hne ?_))⟩
    rw [hc.1, hc.2, PagingOp.target]
  | evict t virt reclaim =>
    obtain ⟨state, result, he, hr⟩ := h.sound.userspaceEvictPage (h.dir_eq t) virt reclaim
    refine ⟨_, by simp only [PagingSystem.step, he, bind, Except.bind], h.record hr,
      fun t' page hpage hne => hr.other t' page hpage (.inr (not_and_or.mp fun hc => hne ?_))⟩
    rw [hc.1, hc.2, PagingOp.target]
  | reclaim t virt =>
    obtain ⟨state, result, he, hsound, hlookup⟩ := h.sound.reclaimPageTable (h.dir_eq t) virt
    refine ⟨{ s with state }, by simp only [PagingSystem.step, he, bind, Except.bind],
      ⟨h.dir_eq, hsound, fun t' page hpage => ?_⟩, fun t' page hpage _ => hlookup t' page hpage⟩
    exact (hlookup t' page hpage).trans (h.mapped t' page hpage)
  | setVmas t vmas =>
    refine ⟨_, rfl, ⟨fun t' => ?_, h.sound, h.mapped⟩, fun _ _ _ _ => rfl⟩
    show (update s.task t _ t').pageDirectory = dir t'
    by_cases hc : t' = t
    · rw [hc, update_self]
      exact h.dir_eq t
    rw [update_of_ne hc]
    exact h.dir_eq t'

theorem PagingSystem.Good.run {dir : τ → ℕ} {s : PagingSystem τ} (h : s.Good dir)
    (ops : List (PagingOp τ)) : ∃ s', s.run ops = .ok s' ∧ s'.Good dir := by
  induction ops generalizing s with
  | nil => exact ⟨s, rfl, h⟩
  | cons op ops ih =>
    obtain ⟨s1, hstep, hgood, -⟩ := h.step op
    obtain ⟨s2, hrun, hgood2⟩ := ih hgood
    exact ⟨s2, by rw [PagingSystem.run, hstep]; exact hrun, hgood2⟩

omit [DecidableEq τ] in
theorem PagingSystem.Good.separate {dir : τ → ℕ} {s : PagingSystem τ} (h : s.Good dir) : s.Separate := by
  obtain rfl : (fun t => (s.task t).pageDirectory) = dir := funext h.dir_eq
  refine ⟨fun t i hi hp => ?_, h.sound.apart⟩
  have htable := h.sound.table t i hi hp
  exact ⟨htable.base, htable.occupied, htable.ne_dir⟩

omit [DecidableEq τ] in
theorem PagingSystem.Good.translates {dir : τ → ℕ} {s : PagingSystem τ} (h : s.Good dir) : s.Translates := by
  intro t virt
  rw [PagingSystem.translate, virt2phy_eq, h.dir_eq t, h.mapped t _ (pageOf_lt virt)]
  cases s.mapped t (pageOf virt) <;> rfl

/-- **The page tables are a finite map.** -/
theorem pageTables_finite_map (b : Boot τ) (ops : List (PagingOp τ)) :
    ∃ s, b.start.run ops = .ok s ∧ s.Separate ∧ s.Translates ∧ FreedOnce s.state.calls ∧
      ∀ op, ∃ s', s.step op = .ok s' ∧ ∀ t virt, op.target ≠ some (t, pageOf virt) →
        s'.translate t virt = s.translate t virt := by
  obtain ⟨s, hrun, hgood⟩ := b.start_good.run ops
  refine ⟨s, hrun, hgood.separate, hgood.translates, hgood.sound.freed, fun op => ?_⟩
  obtain ⟨s', hstep, hgood', hframe⟩ := hgood.step op
  refine ⟨s', hstep, fun t virt hne => ?_⟩
  rw [PagingSystem.translate, PagingSystem.translate, virt2phy_eq, virt2phy_eq, hgood.dir_eq t,
    hgood'.dir_eq t, hframe t _ (pageOf_lt virt) hne]

/-- Two tasks with the first two base pages as directories. -/
example : Nonempty (Boot (Fin 2)) := by
  have hread : ∀ a, Mem.read (fun _ => 0) a 4 = 0 := fun a => by simp [Mem.read]
  refine ⟨⟨fun _ => 0, ⟨fun _ => 3, 0⟩, fun _ => 0,
    fun t => ⟨pageSpaceBottom + 4096 * t, []⟩, dvd_zero _, fun t => ?_, fun t => ?_, fun t t' h => ?_,
    fun t i _ => hread _⟩⟩
  · show IsBasePage (0x4000000 + 4096 * t)
    exact ⟨by omega, by unfold pageSpaceBottom; omega, by unfold pageSpaceTop; omega⟩
  · fin_cases t <;> rfl
  · exact Fin.ext (by simpa using h)

end ZeldaOS
