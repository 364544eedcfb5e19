import ZeldaOS.Paging.MapPage
import ZeldaOS.Paging.Owns

/-!
# Frames have one owner

Runs of mappings, page faults and evictions on any tasks.

* `frames_owned`: every frame is mapped by one page of its task.
-/

namespace ZeldaOS

open Machine Function

variable {τ : Type}

variable {s' : PagingState} {virt : UInt32} {rc : ℤ}

theorem reclaimPageTable_bitmap {s : PagingState} {task : TaskMem} (h : reclaimPageTable s task virt = .ok (s', rc)) :
    s'.freePageBitmap = s.freePageBitmap := by
  obtain ⟨-, -, h⟩ := bind_eq_ok h
  dsimp only at h
  split_ifs at h <;> cases h <;> rfl

theorem userspaceEvictPage_cases {s : PagingState} {task : TaskMem} {reclaim : Bool} (hdir : task.pageDirectory ≠ 0)
    (h : userspaceEvictPage s task virt reclaim = .ok (s', rc)) :
    (rc ≠ 0 ∧ s'.freePageBitmap = s.freePageBitmap ∧ freedFrame s task virt = none) ∨
    (rc = 0 ∧ ∃ vma frame, searchUserspaceVmaByAddr task.vmaList virt.toNat = some vma ∧
      lookup s.mem task.pageDirectory (pageOf virt) = some frame ∧ s'.freePageBitmap =
        if vma.isExact then s.freePageBitmap else freePage s.freePageBitmap frame) := by
  rcases evictable_or s task virt with ⟨vma, frame, hs, hl⟩ | habsent
  · rw [(userspaceEvictPage_present hdir hs hl reclaim).2] at h
    refine .inr ?_
    split_ifs at h
    · obtain ⟨⟨s1, rc1⟩, hrec, h⟩ := bind_eq_ok h
      have hb := reclaimPageTable_bitmap hrec
      cases h
      exact ⟨rfl, vma, frame, hs, hl, hb⟩
    · cases h
      exact ⟨rfl, vma, frame, hs, hl, rfl⟩
  rw [userspaceEvictPage_absent hdir habsent] at h
  cases h
  refine .inl ⟨by decide, rfl, ?_⟩
  rcases habsent with hs | hl
  · rw [freedFrame, hs]
  rw [freedFrame, hl]
  split
  · rfl
  · exact ite_self _

/-! ## One call -/

/-- What holds between two calls. -/
structure FramesInv (p : PhysicalMemory) (dir : τ → ℕ) (vmas : τ → List VmArea) (s : FrameSystem τ) :
    Prop where
  sound : Sound dir s.paging.mem s.paging.base s.paging.calls
  cursor : 4096 ∣ s.fastPageAddr
  owns : Owns p vmas (fun t => lookup s.paging.mem (dir t)) s.paging.freePageBitmap s.handed

structure MapsOnly (dir : τ → ℕ) (m m' : Mem) (t : τ) (page : ℕ) : Prop where
  other : ∀ t', ∀ page' < 2 ^ 20, t' ≠ t ∨ page' ≠ page → lookup m' (dir t') page' = lookup m (dir t') page'
  self : ∀ f, lookup m (dir t) page = some f → lookup m' (dir t) page = some f

variable {p : PhysicalMemory} {r : FrameState} {linearAddr : UInt32}

section
variable [DecidableEq τ] {dir : τ → ℕ} {vmas : τ → List VmArea} {handed : τ → List ℕ} {t : τ} {task : TaskMem}
  {vma : VmArea} {addr : ℕ}

theorem update_handed (handed : τ → List ℕ) (t : τ) (l : List ℕ) (f : ℕ) : update handed t (f :: l) =
      update (update handed t l) t (f :: update handed t l t) := by
  rw [update_idem, update_self]

variable (ha : ∀ t, Areas p (vmas t)) (h : FramesInv p dir vmas (r.within handed t)) (ht : task.pageDirectory = dir t)
include ha h ht

section
variable (hv : vma ∈ vmas t) (hlo : vma.virtAddr ≤ addr) (hhi : addr < vma.virtAddr + vma.length)
include hv hlo hhi

theorem FramesInv.mapAreaPage_exact (hx : vma.isExact = true) :
    ∃ r' rc, mapAreaPage p r task vma addr = .ok (r', rc) ∧ FramesInv p dir vmas (r'.within handed t) ∧
      MapsOnly dir r.paging.mem r'.paging.mem t (addr / 4096) := by
  have hlin := (ha t).linear vma hv
  have hc := (ha t).covers hv hlo hhi
  have hpage : addr / 4096 < 2 ^ 20 := by omega
  obtain ⟨s', rc, hmap, hbitmap, hr⟩ := h.sound.userspaceMapPage ht (.ofNat addr) (.ofNat (vma.exactAddr addr))
    vma.writePermission.toUInt8 vma.pageWritethrough.toUInt8 vma.pageCachedisable.toUInt8
  have hphy : (UInt32.ofNat (vma.exactAddr addr)).toNat / 4096 * 4096 = vma.exactAddr (addr / 4096 * 4096) := by
    rw [UInt32.toNat_ofNat', Nat.mod_eq_of_lt (vma.exactAddr_lt addr), (ha t).exactAddr_page hv hlo]
  rw [pageOf_ofNat (by omega), hphy] at hr
  refine ⟨{ r with paging := s' }, some rc, ?_, ⟨hr.sound, h.cursor, ?_⟩, ?_⟩
  · change userspaceMapPage r.paging task _ _ _ _ _ = _ at hmap
    simp only [mapAreaPage, areaPage, hx, if_true, hmap, bind, Except.bind, or_true]
  · change Owns p vmas (fun t => lookup s'.mem (dir t)) s'.freePageBitmap _
    rw [hbitmap]
    by_cases h0 : rc = 0
    · exact h.owns.exact (fun t' page' hlt hne => hr.other t' page' hlt (.inr hne)) ha hpage hv hc hx
        fun f hf => Option.some.inj (hf.symm.trans (hr.self h0))
    · exact h.owns.congr (fun t' page' hlt => hr.other t' page' hlt (.inl h0)) fun _ => id
  · refine ⟨fun t' page' hlt hne => hr.other t' page' hlt (.inr hne), fun f hl => ?_⟩
    by_cases h0 : rc = 0
    · rw [hr.self h0, (h.owns.not_frame_of_exact (ha t) hpage hl hv hc hx).1]
    · exact (hr.other t _ hpage (.inl h0)).trans hl

theorem FramesInv.mapAreaPage_new (hx : vma.isExact = false)
    (hnone : lookup r.paging.mem (dir t) (addr / 4096) = none) :
    ∃ r' rc, mapAreaPage p r task vma addr = .ok (r', rc) ∧ FramesInv p dir vmas (r'.within handed t) ∧
      MapsOnly dir r.paging.mem r'.paging.mem t (addr / 4096) := by
  have hlin := (ha t).linear vma hv
  have hc := (ha t).covers hv hlo hhi
  have hpage : addr / 4096 < 2 ^ 20 := by omega
  obtain ⟨r', rc, hmap, hsound, hcursor, hfail, hdone⟩ :=
    mapAreaPage_cases h.sound h.cursor ht hx (show addr < 2 ^ 32 by omega)
  refine ⟨r', rc, hmap, ⟨hsound, hcursor, ?_⟩, ?_⟩
  · change Owns p vmas (fun t => lookup r'.paging.mem (dir t)) r'.paging.freePageBitmap (update handed t r'.handed)
    by_cases hrc : rc = some 0
    · obtain ⟨f, -, hf⟩ := hdone hrc
      rw [hf.bitmap, hf.handed, update_handed]
      exact h.owns.map hf.other ha hpage hv hc hx hnone hf.frame hf.free hf.self
    · obtain ⟨hnothing, -⟩ := hfail hrc
      rw [hnothing.mem, hnothing.handed]
      exact h.owns.congr (fun _ _ _ => rfl) fun g hg => (hnothing.frames g).trans hg
  · refine ⟨fun t' page' hlt hne => ?_, fun g hg => ?_⟩
    · by_cases hrc : rc = some 0
      · obtain ⟨f, -, hf⟩ := hdone hrc
        exact hf.other t' page' hlt hne
      · rw [(hfail hrc).1.mem]
    · rw [hnone] at hg
      cases hg

theorem FramesInv.mapAreaPage
    (habs : vma.isExact = true ∨ lookup r.paging.mem (dir t) (addr / 4096) = none) :
    ∃ r' rc, ZeldaOS.mapAreaPage p r task vma addr = .ok (r', rc) ∧ FramesInv p dir vmas (r'.within handed t) ∧
      MapsOnly dir r.paging.mem r'.paging.mem t (addr / 4096) := by
  cases hx : vma.isExact with
  | true => exact h.mapAreaPage_exact ha ht hv hlo hhi hx
  | false => exact h.mapAreaPage_new ha ht hv hlo hhi hx (habs.resolve_left (by simp [hx]))

end

omit h in
theorem FramesInv.mapVmAreaLoop (hv : vma ∈ vmas t) (fuel : ℕ) (partiallyMapped : Bool)
    (h : FramesInv p dir vmas (r.within handed t)) (haligned : 4096 ∣ addr)
    (hlo : vma.virtAddr ≤ addr) (hfuel : vma.virtAddr + vma.length ≤ addr + 4096 * fuel)
    (habs : vma.isExact = true ∨ ∀ page, vma.Covers page → addr ≤ page * 4096 →
      lookup r.paging.mem (dir t) page = none) :
    ∃ r' rc, ZeldaOS.mapVmAreaLoop p task vma (fuel + 1) r addr partiallyMapped = .ok (r', rc) ∧
      FramesInv p dir vmas (r'.within handed t) := by
  have hlin := (ha t).linear vma hv
  have hend : (vma.virtAddr + vma.length) % 2 ^ 64 = vma.virtAddr + vma.length :=
    Nat.mod_eq_of_lt (by omega)
  induction fuel generalizing r addr partiallyMapped with
  | zero =>
    refine ⟨r, 0, ?_, h⟩
    rw [ZeldaOS.mapVmAreaLoop, hend, if_neg (by omega)]
  | succ fuel ih =>
    rw [ZeldaOS.mapVmAreaLoop, hend]
    by_cases hhi : addr < vma.virtAddr + vma.length
    · rw [if_pos hhi]
      have hpage : addr / 4096 * 4096 = addr := Nat.div_mul_cancel haligned
      obtain ⟨r1, rc, hmap, h1, hm⟩ := h.mapAreaPage ha ht hv hlo hhi
        (habs.imp_right fun hn => hn _ ((ha t).covers hv hlo hhi) hpage.ge)
      simp only [hmap, bind, Except.bind]
      by_cases hrc : rc = some 0
      · rw [if_pos hrc]
        refine ih true h1 (haligned.add (by unfold pageSize; exact dvd_rfl))
          (by unfold pageSize; omega) (by unfold pageSize; omega)
          (habs.imp_right fun hn page hc hle => ?_)
        have hlt : page < 2 ^ 20 := by
          have := hc.2
          omega
        unfold pageSize at hle
        rw [hm.other t page hlt (.inr (by omega))]
        exact hn page hc (by omega)
      · rw [if_neg hrc]
        exact ⟨r1, _, rfl, h1⟩
    · rw [if_neg hhi]
      exact ⟨r, 0, rfl, h⟩

theorem FramesInv.handleUserspacePageFault (hvmas : task.vmaList = vmas t) (huser : userspaceBottom ≤ linearAddr.toNat)
    (habs : lookup r.paging.mem (dir t) (pageOf linearAddr) = none ∨
      ∃ vma ∈ searchUserspaceVmaByAddr task.vmaList linearAddr.toNat, vma.isExact = true) :
    ∃ r' rc, ZeldaOS.handleUserspacePageFault p r task 3 linearAddr = .ok (r', rc) ∧
      FramesInv p dir vmas (r'.within handed t) ∧ MapsOnly dir r.paging.mem r'.paging.mem t (pageOf linearAddr) := by
  have hdir : task.pageDirectory ≠ 0 := ht ▸ (h.sound.dir_base t).pos.ne'
  have hpl : (3 : ℕ) = 3 := rfl
  rw [ZeldaOS.handleUserspacePageFault, ensure_of hdir, ensure_of hpl, ensure_of huser]
  simp only [bind, Except.bind]
  cases hs : searchUserspaceVmaByAddr task.vmaList linearAddr.toNat with
  | none => exact ⟨r, _, rfl, h, fun _ _ _ _ => rfl, fun _ => id⟩
  | some vma =>
    have hv : vma ∈ vmas t := hvmas ▸ List.mem_of_find?_eq_some hs
    have hin := List.find?_some hs
    have hlin := (ha t).linear vma hv
    rw [Bool.and_eq_true, decide_eq_true_iff, decide_eq_true_iff, Nat.mod_eq_of_lt (by omega)] at hin
    have habs' : vma.isExact = true ∨ lookup r.paging.mem (dir t) (linearAddr.toNat / 4096) = none := by
      rcases habs with hn | ⟨vma', hv', hx⟩
      · exact .inr hn
      rw [hs] at hv'
      cases hv'
      exact .inl hx
    obtain ⟨r', rc, hmap, hr, hm⟩ := h.mapAreaPage ha ht hv hin.1 hin.2 habs'
    exact ⟨r', rc.getD (-errOutOfResource), by simp only [hmap], hr, hm⟩

theorem FramesInv.evictPage (hvmas : task.vmaList = vmas t) (virt : UInt32) (reclaim : Bool) :
    ∃ r' rc, r.evictPage task virt reclaim = .ok (r', rc) ∧ FramesInv p dir vmas (r'.within handed t) := by
  have hpage := pageOf_lt virt
  obtain ⟨s', rc, hev, hr⟩ := h.sound.userspaceEvictPage ht virt reclaim
  change userspaceEvictPage r.paging task virt reclaim = _ at hev
  refine ⟨⟨s', r.fastPageAddr, ((freedFrame r.paging task virt).map r.handed.erase).getD r.handed⟩, rc,
    by simp only [FrameState.evictPage, hev, bind, Except.bind], hr.sound, h.cursor, ?_⟩
  change Owns p vmas (fun t => lookup s'.mem (dir t)) s'.freePageBitmap (update handed t
    (((freedFrame r.paging task virt).map r.handed.erase).getD r.handed))
  have hother (h0 : rc = 0) := fun t' page' hlt hne => hr.other t' page' hlt (.inr hne)
  have hdir : task.pageDirectory ≠ 0 := ht ▸ (h.sound.dir_base t).pos.ne'
  rcases userspaceEvictPage_cases hdir hev with ⟨hrc, hb, hfreed⟩ | ⟨hrc, vma, f, hs, hl, hb⟩
  · rw [hb, hfreed]
    exact h.owns.congr (fun t' page' hlt => hr.other t' page' hlt (.inl hrc)) fun _ => id
  have hfreed : freedFrame r.paging task virt = if vma.isExact then none else some f := by
    rw [freedFrame, hs]
    rw [hl]
  rw [hvmas] at hs
  obtain ⟨hv, hc⟩ := (ha t).search hs
  rw [ht] at hl
  rw [hb, hfreed]
  cases hx : vma.isExact with
  | true =>
    refine h.owns.exact (hother hrc) ha hpage hv hc hx fun g hg => ?_
    rw [hr.self hrc] at hg
    cases hg
  | false =>
    have hmem : f ∈ update handed t r.handed t :=
      h.owns.handed_of_mapped (ha t) hpage hl hv hc hx
    have howns := h.owns.unmap (hother hrc) hpage hl hmem (hr.self hrc)
    change Owns p vmas _ (freePage r.paging.freePageBitmap f) (update
      (update handed t r.handed) t ((update handed t r.handed t).erase f)) at howns
    rw [update_idem, update_self] at howns
    exact howns

end

/-! ## Runs -/

def FrameSystem.frameAt (task : τ → TaskMem) (s : FrameSystem τ) (t : τ) (page : ℕ) : Option ℕ :=
  lookup s.paging.mem (task t).pageDirectory page

def FrameSystem.Unmapped (task : τ → TaskMem) (s : FrameSystem τ) (t : τ) (page : ℕ) : Prop :=
  s.frameAt task t page = none

instance FrameSystem.decidableUnmapped (task : τ → TaskMem) (s : FrameSystem τ) (t : τ) (page : ℕ) :
    Decidable (s.Unmapped task t page) := inferInstanceAs (Decidable (_ = none))

/-- An area is mapped while none of its pages is, and a page fault is for a page that is not present or exact. -/
def FrameOp.Absent (task : τ → TaskMem) (s : FrameSystem τ) : FrameOp τ → Prop
  | .mapVmArea t vma => ∀ i < vma.length / 4096, s.Unmapped task t (vma.virtAddr / 4096 + i)
  | .fault t linearAddr => userspaceBottom ≤ linearAddr.toNat ∧
      (s.Unmapped task t (pageOf linearAddr) ∨
        ∃ vma ∈ searchUserspaceVmaByAddr (task t).vmaList linearAddr.toNat, vma.isExact = true)
  | .evict _ _ _ => True

theorem any_isExact_iff (o : Option VmArea) : o.any VmArea.isExact = true ↔ ∃ vma ∈ o, vma.isExact = true := by
  cases o <;> simp

instance FrameOp.decidableAbsent (task : τ → TaskMem) (s : FrameSystem τ) :
    (op : FrameOp τ) → Decidable (op.Absent task s)
  | .mapVmArea _ vma => Nat.decidableBallLT (vma.length / 4096) _
  | .fault _ _ =>
    have (o : Option VmArea) : Decidable (∃ vma ∈ o, vma.isExact = true) :=
      decidable_of_iff _ (any_isExact_iff o)
    inferInstanceAs (Decidable (_ ∧ (_ ∨ _)))
  | .evict _ _ _ => inferInstanceAs (Decidable True)

/-- Every frame that was handed out and not freed is mapped by exactly one page of its task. -/
def FramesOwned (task : τ → TaskMem) (s : FrameSystem τ) : Prop :=
  ∀ t, ∀ f ∈ s.handed t, ∃ page < 2 ^ 20, s.frameAt task t page = some f ∧
    ∀ t', ∀ page' < 2 ^ 20, s.frameAt task t' page' = some f → t' = t ∧ page' = page

variable {task : τ → TaskMem}

abbrev FramesGood (p : PhysicalMemory) (task : τ → TaskMem) (s : FrameSystem τ) : Prop :=
  FramesInv p (fun t => (task t).pageDirectory) (fun t => (task t).vmaList) s

theorem FramesInv.framesOwned (ha : ∀ t, Areas p (task t).vmaList) {s : FrameSystem τ}
    (h : FramesGood p task s) : FramesOwned task s := by
  intro t f hf
  obtain ⟨page, hpage, hl⟩ := h.owns.owner t f hf
  refine ⟨page, hpage, hl, fun t' page' hpage' hl' => ?_⟩
  have hf' := h.owns.handed_of_frame ha hpage' hl' (h.owns.frame t f hf).1
  obtain rfl := h.owns.apart t' t f hf' hf
  exact ⟨rfl, h.owns.once t' f hf page' hpage' page hpage hl' hl⟩

theorem Boot.frames_good (b : Boot τ) {fastPageAddr : ℕ} (hcursor : 4096 ∣ fastPageAddr) :
    FramesGood p b.task (b.frames fastPageAddr) := by
  have hgood := b.start_good
  refine ⟨hgood.sound, hcursor, fun _ => List.nodup_nil, ?_, ?_, ?_, ?_, fun t page hpage f hl => ?_⟩
  · exact fun t f hf => by cases hf
  · exact fun t t' f hf => by cases hf
  · exact fun t f hf => by cases hf
  · exact fun t f hf => by cases hf
  have hnone := hgood.mapped t page hpage
  change lookup b.mem (b.task t).pageDirectory page = none at hnone
  change lookup b.mem (b.task t).pageDirectory page = some f at hl
  rw [hnone] at hl
  cases hl

variable [DecidableEq τ]

theorem FrameSystem.call_eq {s : FrameSystem τ} {t : τ} {f : FrameState → Except Fault (FrameState × ℤ)}
    (h : f ⟨s.paging, s.fastPageAddr, s.handed t⟩ = .ok (r, rc)) : s.call t f = .ok (r.within s.handed t) := by
  simp only [FrameSystem.call, h, bind, Except.bind]

theorem FrameSystem.within_self (s : FrameSystem τ) (t : τ) :
    (⟨s.paging, s.fastPageAddr, s.handed t⟩ : FrameState).within s.handed t = s := by
  rw [FrameState.within, update_eq_self]

theorem FramesInv.fault (ha : ∀ t, Areas p (task t).vmaList) {s : FrameSystem τ} (h : FramesGood p task s) {t : τ}
    (hop : FrameOp.Absent task s (.fault t linearAddr)) :
    ∃ s', s.step p task (.fault t linearAddr) = .ok s' ∧ FramesGood p task s' ∧
      ∀ t', ∀ page < 2 ^ 20, ∀ f, s.frameAt task t' page = some f → s'.frameAt task t' page = some f := by
  rw [← s.within_self t] at h
  obtain ⟨r, rc, hfault, hr, hm⟩ := h.handleUserspacePageFault ha rfl rfl hop.1 hop.2
  refine ⟨r.within s.handed t, ?_, hr, fun t' page hpage f hf => ?_⟩
  · rw [FrameSystem.step]
    exact FrameSystem.call_eq hfault
  by_cases hp : t' = t ∧ page = pageOf linearAddr
  · obtain ⟨rfl, rfl⟩ := hp
    exact hm.self f hf
  · exact (hm.other t' page hpage (not_and_or.1 hp)).trans hf

theorem framesGood_step (ha : ∀ t, Areas p (task t).vmaList) (s : FrameSystem τ) (op : FrameOp τ)
    (h : FramesGood p task s) (hop : op.Absent task s) : ∃ s', s.step p task op = .ok s' ∧ FramesGood p task s' := by
  cases op with
  | mapVmArea t vma =>
    by_cases hv : vma ∈ (task t).vmaList
    · obtain ⟨a, hvirt⟩ := (ha t).virtAddr vma hv
      obtain ⟨c, hlen⟩ := (ha t).length vma hv
      have habs (page : ℕ) (hc : vma.Covers page) : s.Unmapped task t page := by
        have h1 := hc.1
        have h2 := hc.2
        have hn := hop (page - a) (by omega)
        rwa [hvirt, Nat.mul_div_cancel_left a (by decide), Nat.add_sub_cancel' (by omega)] at hn
      rw [← s.within_self t] at h
      obtain ⟨r, rc, hmap, hr⟩ := h.mapVmAreaLoop ha rfl hv (vma.length / pageSize) false ⟨a, hvirt⟩
        le_rfl (by unfold pageSize; omega) (.inr fun page hc _ => habs page hc)
      refine ⟨r.within s.handed t, ?_, hr⟩
      rw [FrameSystem.step]
      exact FrameSystem.call_eq ((if_pos hv).trans hmap)
    · refine ⟨s, ?_, h⟩
      rw [FrameSystem.step]
      exact (FrameSystem.call_eq (if_neg hv)).trans (by rw [s.within_self t])
  | fault t linearAddr =>
    obtain ⟨s', hs', hgood, -⟩ := h.fault ha hop
    exact ⟨s', hs', hgood⟩
  | evict t virt reclaim =>
    rw [← s.within_self t] at h
    obtain ⟨r, rc, hev, hr⟩ := h.evictPage ha rfl rfl virt reclaim
    refine ⟨r.within s.handed t, ?_, hr⟩
    rw [FrameSystem.step]
    exact FrameSystem.call_eq hev

/-- **In every run that maps areas once and takes page faults only for pages that are not present, or exact, every frame
that was handed out and not freed is mapped by exactly one page of its task.** -/
theorem frames_owned (p : PhysicalMemory) (b : Boot τ) (fastPageAddr : ℕ) (ops : List (FrameOp τ))
    (hcursor : 4096 ∣ fastPageAddr) (ha : ∀ t, Areas p (b.task t).vmaList)
    (h : Along (FrameSystem.step p b.task) (fun s op => op.Absent b.task s) (b.frames fastPageAddr) ops) :
    ∃ s, runSteps (FrameSystem.step p b.task) (b.frames fastPageAddr) ops = .ok s ∧ FramesOwned b.task s ∧
      ∀ t linearAddr, FrameOp.Absent b.task s (.fault t linearAddr) →
        ∃ s', s.step p b.task (.fault t linearAddr) = .ok s' ∧ ∀ t', ∀ page < 2 ^ 20, ∀ f,
          s.frameAt b.task t' page = some f → s'.frameAt b.task t' page = some f := by
  obtain ⟨s, hrun, hgood⟩ := inv_run_total (framesGood_step ha) (b.frames_good hcursor) h
  refine ⟨s, hrun, hgood.framesOwned ha, fun t linearAddr hop => ?_⟩
  obtain ⟨s', hs', -, hkept⟩ := hgood.fault ha hop
  exact ⟨s', hs', hkept⟩

def smallMemory : PhysicalMemory := ⟨0x400000, 0x500000, by decide, by decide, by decide⟩

def dataArea : VmArea := ⟨0x40000000, 0, 0x2000, false, true, false, false⟩
def screenArea : VmArea := ⟨0x50000000, 0xB8000, 0x1000, true, true, false, false⟩

theorem isBasePage_bottom : IsBasePage pageSpaceBottom := ⟨by decide, le_rfl, by decide⟩

theorem entryAt_zero (page i : ℕ) : entryAt (fun _ => 0) page i = 0 := by simp [entryAt, Mem.read]

def smallBoot : Boot Unit where
  mem _ := 0
  base := ⟨fun _ => 1, 0⟩
  freePageBitmap _ := 0
  task _ := ⟨pageSpaceBottom, [dataArea, screenArea]⟩
  cursor := dvd_zero _
  dir_base _ := isBasePage_bottom
  dir_occupied _ := rfl
  dir_inj _ _ _ := rfl
  dir_zero _ _ _ := entryAt_zero _ _

theorem areas_small : Areas smallMemory [dataArea, screenArea] where
  virtAddr := by simp [dataArea, screenArea]
  phyAddr := by simp [dataArea, screenArea]
  length := by simp [dataArea, screenArea]
  linear := by simp [dataArea, screenArea]
  disjoint := by simp [VmArea.Disjoint, dataArea, screenArea]
  device vma hv hx page hc hf := by
    have hle := hf.start_le
    rcases List.mem_pair.1 hv with rfl | rfl
    · cases hx
    have h1 := hc.1
    have h2 := hc.2
    simp only [smallMemory, screenArea, VmArea.exactAddr] at hle h1 h2
    omega

/-- The data is mapped, the screen touched twice, and a page of data evicted and touched again. -/
def smallRun : List (FrameOp Unit) :=
  [.mapVmArea () dataArea, .fault () 0x50000000, .fault () 0x50000000, .evict () 0x40000000 false, .fault () 0x40000123]

theorem frames_owned_small :
    ∃ s, runSteps (FrameSystem.step smallMemory smallBoot.task) (smallBoot.frames 0) smallRun = .ok s ∧
      s.handed () = [0x402000, 0x401000] ∧ FramesOwned smallBoot.task s := by
  obtain ⟨s, hrun, hown, -⟩ := frames_owned smallMemory smallBoot 0 smallRun (dvd_zero _)
    (fun _ => areas_small) (by decide)
  have hhanded : (runSteps (FrameSystem.step smallMemory smallBoot.task) (smallBoot.frames 0)
      smallRun).toOption.map (fun s => s.handed ()) = some [0x402000, 0x401000] := by decide
  rw [hrun] at hhanded
  exact ⟨s, hrun, Option.some.inj hhanded, hown⟩

/-- **A second page fault for the same page gets a new frame, and the first one is not freed.** -/
theorem frame_replaced : ∃ s s', runSteps (FrameSystem.step smallMemory smallBoot.task) (smallBoot.frames 0)
        [.fault () 0x40000000] = .ok s ∧ s.step smallMemory smallBoot.task (.fault () 0x40000000) = .ok s' ∧
      s.frameAt smallBoot.task () 0x40000 = some 0x400000 ∧
      s'.frameAt smallBoot.task () 0x40000 = some 0x401000 ∧ s'.handed () = [0x401000, 0x400000] :=
  ⟨_, _, rfl, rfl, by decide, by decide, rfl⟩

end ZeldaOS
