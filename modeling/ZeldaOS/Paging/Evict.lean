import ZeldaOS.Paging.Owner
import ZeldaOS.Vma.Model

/-!
# Eviction of whole areas

`userspace_evict_vma` of `kernel/task_paging.c`, and the loop of `reclaim_task` over the areas of a task.

* `Sound.userspaceEvictPage_evicts`: what an eviction takes.
-/

namespace ZeldaOS

open Machine

/-! ## The loops -/

def VmArea.endAddr (vma : VmArea) : ℕ := (vma.virtAddr + vma.length) % 2 ^ 64

/-- Whether the page table is to be reclaimed: at the last page of the area, or of a page table. -/
def VmArea.reclaimsAt (vma : VmArea) (addr : ℕ) : Bool :=
  decide (vma.endAddr ≤ (addr + pageSize) % 2 ^ 64) ||
    decide (pdIndex (.ofNat addr) ≠ pdIndex (.ofNat (addr + pageSize)))

/-- One round of the loop: an address, and whether to reclaim the page table. -/
def evictAt (task : TaskMem) (s : FrameState) (a : ℕ × Bool) : Except Fault FrameState := do
  let (s, _) ← s.evictPage task (.ofNat a.1) a.2
  .ok s

/-- The loop of `userspace_evict_vma`; the addresses are of type `uint64_t`. -/
def evictVmaLoop (task : TaskMem) (vma : VmArea) : (fuel : ℕ) → FrameState → (addr : ℕ) →
    Except Fault FrameState
  | 0, _, _ => .error .diverge
  | fuel + 1, s, addr =>
    if addr < vma.endAddr then do
      let s ← evictAt task s (addr, vma.reclaimsAt addr)
      evictVmaLoop task vma fuel s ((addr + pageSize) % 2 ^ 64)
    else .ok s

def userspaceEvictVma (s : FrameState) (task : TaskMem) (vma : UserVma) : Except Fault (FrameState × ℤ) :=
  if vma.toVmArea ∈ task.vmaList then
    if vma.kernelVma then .ok (s, -errInvalidArg)
    else do
      let s ← evictVmaLoop task vma.toVmArea (vma.length / pageSize + 2) s vma.virtAddr
      .ok (s, 0)
  else .ok (s, -errNotFound)

def evictVmas (task : TaskMem) (s : FrameState) : List UserVma → Except Fault FrameState
  | [] => .ok s
  | vma :: vmas =>
    if vma.kernelVma then evictVmas task s vmas
    else do
      let (s, _) ← userspaceEvictVma s task vma
      evictVmas task s vmas

def VmArea.evictionsFrom (vma : VmArea) : (addr rounds : ℕ) → List (ℕ × Bool)
  | _, 0 => []
  | addr, rounds + 1 => (addr, vma.reclaimsAt addr) :: vma.evictionsFrom (addr + pageSize) rounds

def VmArea.evictions (vma : VmArea) : List (ℕ × Bool) :=
  vma.evictionsFrom vma.virtAddr ((vma.endAddr - vma.virtAddr + 4095) / 4096)

def evictions (vmas : List UserVma) : List (ℕ × Bool) :=
  (vmas.filter fun vma => !vma.kernelVma).flatMap fun vma => vma.evictions

variable {vma : VmArea} {addr rounds : ℕ} {a : ℕ × Bool}

theorem mem_evictionsFrom :
    a ∈ vma.evictionsFrom addr rounds ↔ ∃ k < rounds, a = (addr + 4096 * k, vma.reclaimsAt (addr + 4096 * k)) := by
  induction rounds generalizing addr with
  | zero => simp [VmArea.evictionsFrom]
  | succ rounds ih =>
    rw [VmArea.evictionsFrom, List.mem_cons, ih]
    constructor
    · rintro (rfl | ⟨k, hk, rfl⟩)
      · exact ⟨0, by omega, by simp⟩
      refine ⟨k + 1, by omega, ?_⟩
      rw [pageSize, Nat.mul_add, Nat.mul_one, Nat.add_right_comm, ← Nat.add_assoc]
    rintro ⟨k, hk, rfl⟩
    cases k with
    | zero => exact .inl (by simp)
    | succ k =>
      refine .inr ⟨k, by omega, ?_⟩
      rw [pageSize, Nat.mul_add, Nat.mul_one, Nat.add_right_comm addr 4096, ← Nat.add_assoc]

theorem mem_evictions : a ∈ vma.evictions ↔ ∃ k, vma.virtAddr + 4096 * k < vma.endAddr ∧
      a = (vma.virtAddr + 4096 * k, vma.reclaimsAt (vma.virtAddr + 4096 * k)) := by
  rw [VmArea.evictions, mem_evictionsFrom]
  constructor
  · rintro ⟨k, hk, rfl⟩
    exact ⟨k, by omega, rfl⟩
  rintro ⟨k, hk, rfl⟩
  exact ⟨k, by omega, rfl⟩

variable {task : TaskMem}

theorem evictVmaLoop_eq (hend : vma.endAddr + 4096 ≤ 2 ^ 64) {fuel : ℕ} (s : FrameState)
    (hrounds : (vma.endAddr - addr + 4095) / 4096 = rounds) (hfuel : rounds < fuel) :
    evictVmaLoop task vma fuel s addr = runSteps (evictAt task) s (vma.evictionsFrom addr rounds) := by
  induction rounds generalizing fuel addr s with
  | zero =>
    obtain ⟨fuel, rfl⟩ : ∃ k, fuel = k + 1 := ⟨fuel - 1, by omega⟩
    rw [evictVmaLoop, if_neg (by omega)]
    rfl
  | succ rounds ih =>
    obtain ⟨fuel, rfl⟩ : ∃ k, fuel = k + 1 := ⟨fuel - 1, by omega⟩
    have hnext : (addr + pageSize) % 2 ^ 64 = addr + pageSize := by
      unfold pageSize
      exact Nat.mod_eq_of_lt (by omega)
    rw [evictVmaLoop, if_pos (by omega), VmArea.evictionsFrom, runSteps, hnext]
    cases evictAt task s (addr, vma.reclaimsAt addr) with
    | error e => rfl
    | ok s' => exact ih s' (by unfold pageSize; omega) (by omega)

theorem userspaceEvictVma_eq {vma : UserVma} (hv : vma.toVmArea ∈ task.vmaList) (hk : vma.kernelVma = false)
    (hlength : vma.length < 2 ^ 64) (hend : vma.endAddr + 4096 ≤ 2 ^ 64) (s : FrameState) :
    userspaceEvictVma s task vma = runSteps (evictAt task) s vma.evictions >>= fun s' => .ok (s', (0 : ℤ)) := by
  have hrounds : (vma.endAddr - vma.virtAddr + 4095) / 4096 < vma.length / pageSize + 2 := by
    have hle : vma.endAddr ≤ vma.virtAddr + vma.length := Nat.mod_le _ _
    unfold pageSize
    omega
  rw [userspaceEvictVma, if_pos hv, hk, if_neg Bool.false_ne_true, evictVmaLoop_eq hend s rfl hrounds]
  rfl

theorem evictVmas_eq {vmas : List UserVma} (hv : ∀ vma ∈ vmas, vma.toVmArea ∈ task.vmaList)
    (hlength : ∀ vma ∈ vmas, vma.length < 2 ^ 64) (hend : ∀ vma ∈ vmas, vma.endAddr + 4096 ≤ 2 ^ 64)
    (s : FrameState) : evictVmas task s vmas = runSteps (evictAt task) s (evictions vmas) := by
  induction vmas generalizing s with
  | nil => rfl
  | cons vma vmas ih =>
    rw [List.forall_mem_cons] at hv hlength hend
    rw [evictVmas, evictions, List.filter_cons]
    cases hk : vma.kernelVma with
    | true => exact ih hv.2 hlength.2 hend.2 s
    | false =>
      rw [if_neg Bool.false_ne_true, Bool.not_false, if_pos rfl, List.flatMap_cons, runSteps_append,
        userspaceEvictVma_eq hv.1 hk hlength.1 hend.1]
      cases runSteps (evictAt task) s vma.evictions with
      | error e => rfl
      | ok s' => exact ih hv.2 hlength.2 hend.2 s'

/-! ## One page -/

structure Evicts (d page : ℕ) (reclaim : Bool) (s s' : PagingState) : Prop where
  gone : lookup s'.mem d page = none
  other : ∀ page' < 2 ^ 20, page' ≠ page → lookup s'.mem d page' = lookup s.mem d page'
  tables : (∀ i < 1024, entryAt s'.mem d i = entryAt s.mem d i) ∧ s'.base = s.base ∧
        (reclaim = true → lookup s.mem d page ≠ none →
          ∃ page' < 2 ^ 20, page' / 1024 = page / 1024 ∧ lookup s'.mem d page' ≠ none) ∨
      (reclaim = true ∧ lookup s.mem d page ≠ none) ∧ entryAt s'.mem d (page / 1024) = 0 ∧
        (∀ i < 1024, i ≠ page / 1024 → entryAt s'.mem d i = entryAt s.mem d i) ∧
        s'.base = freeBasePage s.base (tableOf s.mem d (page / 1024))

section
variable {τ : Type} {dir : τ → ℕ} {s : PagingState} {t : τ}

theorem Sound.reclaimPageTable_cases (h : Sound dir s.mem s.base s.calls) (ht : task.pageDirectory = dir t)
    (virt : UInt32) (hp : present (entryAt s.mem (dir t) (pageOf virt / 1024))) :
    ∃ s' rc, ZeldaOS.reclaimPageTable s task virt = .ok (s', rc) ∧
      (s' = s ∧ (∃ j < 1024, present (entryAt s.mem (tableOf s.mem (dir t) (pageOf virt / 1024)) j)) ∨
        s'.mem = setEntry s.mem (dir t) (pageOf virt / 1024) 0 ∧
          s'.base = freeBasePage s.base (tableOf s.mem (dir t) (pageOf virt / 1024))) := by
  have hdir : dir t ≠ 0 := (h.dir_base t).pos.ne'
  simp only [ZeldaOS.reclaimPageTable, ht, ensure_of hdir, bind, Except.bind, pdIndex_eq]
  rw [if_pos hp]
  cases huse : tableInUse s.mem (frameAddr (entryAt s.mem (dir t) (pageOf virt / 1024))) with
  | true =>
    refine ⟨s, -errBusy, rfl, .inl ⟨rfl, ?_⟩⟩
    simpa [tableInUse, tableOf] using huse
  | false =>
    refine ⟨_, 0, rfl, .inr ⟨rfl, ?_⟩⟩
    rw [tableOf]

theorem Sound.userspaceEvictPage_evicts (h : Sound dir s.mem s.base s.calls) (ht : task.pageDirectory = dir t)
    (virt : UInt32) (hfound : (searchUserspaceVmaByAddr task.vmaList virt.toNat).isSome) (reclaim : Bool) :
    ∃ s' rc, ZeldaOS.userspaceEvictPage s task virt reclaim = .ok (s', rc) ∧
      Sound dir s'.mem s'.base s'.calls ∧ Evicts (dir t) (pageOf virt) reclaim s s' := by
  have hdir : task.pageDirectory ≠ 0 := ht ▸ (h.dir_base t).pos.ne'
  have hpage := pageOf_lt virt
  have hi : pageOf virt / 1024 < 1024 := by omega
  obtain ⟨s', rc, hev, hr⟩ := h.userspaceEvictPage ht virt reclaim
  refine ⟨s', rc, hev, hr.sound, ?_⟩
  rcases evictable_or s task virt with ⟨vma, f, hs, hl⟩ | habsent
  · obtain ⟨hp, heq⟩ := userspaceEvictPage_present hdir hs hl reclaim
    rw [ht] at hp heq
    rw [heq] at hev
    obtain ⟨hsound, hdirs, hself, hother⟩ := h.setPte hpage hp (by decide : 0 < 2 ^ 32)
    cases reclaim with
    | false =>
      cases hev
      exact ⟨hself, fun page' hlt hne => hother t page' hlt (.inr hne),
        .inl ⟨hdirs t, rfl, fun hc => absurd hc Bool.false_ne_true⟩⟩
    | true =>
      set s0 := evictedPage s vma (dir t) (pageOf virt) f
      have hpde := hdirs t _ hi ▸ hp
      have htable : tableOf s0.mem (dir t) (pageOf virt / 1024) = tableOf s.mem (dir t) (pageOf virt / 1024) :=
        congrArg frameAddr (hdirs t _ hi)
      obtain ⟨s1, rc1, hrec, hcases⟩ := Sound.reclaimPageTable_cases (s := s0) hsound ht virt hpde
      rw [if_pos rfl, hrec] at hev
      cases hev
      refine ⟨hr.self rfl, fun page' hlt hne => hr.other t page' hlt (.inr (.inr hne)), ?_⟩
      rcases hcases with ⟨rfl, j, hj, hentry⟩ | ⟨hmem, hbase⟩
      · refine .inl ⟨hdirs t, rfl, fun _ _ => ⟨pageOf virt / 1024 * 1024 + j, by omega, by omega, ?_⟩⟩
        have hdiv : (pageOf virt / 1024 * 1024 + j) / 1024 = pageOf virt / 1024 := by omega
        have hmod : (pageOf virt / 1024 * 1024 + j) % 1024 = j := by omega
        rw [lookup_of_present (by rw [hdiv]; exact hpde), hdiv, hmod, frameOf, if_pos hentry]
        exact Option.some_ne_none _
      have hentry : ∀ i < 1024, entryAt s1.mem (dir t) i =
          if i = pageOf virt / 1024 then 0 else entryAt s0.mem (dir t) i := fun i hlt => by
        rw [hmem, entryAt_setEntry _ (h.dir_base t).aligned (h.dir_base t).aligned hi hlt (by decide)]
        simp
      refine .inr ⟨⟨rfl, ?_⟩, ?_, fun i hlt hne => ?_, ?_⟩
      · rw [← ht, hl]
        exact Option.some_ne_none f
      · rw [hentry _ hi, if_pos rfl]
      · rw [hentry i hlt, if_neg hne]
        exact hdirs t i hlt
      rw [hbase, htable]
      rfl
  · rw [userspaceEvictPage_absent hdir habsent] at hev
    cases hev
    have hl := habsent.resolve_left fun hc => by simp [hc] at hfound
    rw [ht] at hl
    exact ⟨hl, fun _ _ _ => rfl, .inl ⟨fun _ _ => rfl, rfl, fun _ hne => absurd hl hne⟩⟩

end

end ZeldaOS
