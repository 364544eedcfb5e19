import ZeldaOS.Paging.Backed
import ZeldaOS.Vma.Extend

/-!
# The frames of the heap

A task that moves its program break with `sbrk`, touches pages, and exits.

* `heap_frames_returned`: every frame is given back once.
-/

namespace ZeldaOS

open Machine List

/-! ## Runs -/

structure HeapTask where
  frames : FrameState
  vmas : List UserVma
  got : List ℕ
  freed : List ℕ

def HeapTask.task (d : ℕ) (s : HeapTask) : TaskMem := ⟨d, s.vmas.map UserVma.toVmArea⟩

inductive UserHeapOp where
  | sbrk (increment : ℤ)
  | touch (linearAddr : UInt32) (user : userspaceBottom ≤ linearAddr.toNat)

def touchedFrame (p : PhysicalMemory) (s : FrameState) (task : TaskMem) (linearAddr : UInt32) : Option ℕ :=
  match searchUserspaceVmaByAddr task.vmaList linearAddr.toNat with
  | none => none
  | some vma => if vma.isExact then none else nextFrame p s

/-- An access to a present page causes no fault, and a fault that fails gives its frame back. -/
def HeapTask.step (p : PhysicalMemory) (d : ℕ) (s : HeapTask) : UserHeapOp → Except Fault HeapTask
  | .sbrk increment => .ok { s with vmas := (callSysSbrk s.vmas increment).1 }
  | .touch linearAddr _ =>
    if lookup s.frames.paging.mem d (pageOf linearAddr) ≠ none then .ok s
    else do
      let (frames, rc) ← handleUserspacePageFault p s.frames (s.task d) 3 linearAddr
      let frame := (touchedFrame p s.frames (s.task d) linearAddr).toList
      .ok { s with
        frames
        got := frame ++ s.got
        freed := if rc = 0 then s.freed else frame ++ s.freed }

/-- `reclaim_task`: the areas are evicted, and the page directory is given back. -/
def HeapTask.reclaim (d : ℕ) (s : HeapTask) : Except Fault HeapTask := do
  let frames ← evictVmas (s.task d) s.frames s.vmas
  .ok { s with
    frames := { frames with
      paging := { frames.paging with
        base := freeBasePage frames.paging.base d
        calls := .freed d :: frames.paging.calls } }
    freed := freedAlong (s.task d) s.frames (evictions s.vmas) ++ s.freed }

def heapOf (vmas : List UserVma) : Option UserVma := (searchUserspaceVma vmas .heap).bind (vmas[·]?)

/-! ## The areas -/

/-- Page-aligned and not exact, the kernel's below the user half, and the heap is not the kernel's. -/
structure HeapAreas (vmas : List UserVma) : Prop where
  aligned : ∀ vma ∈ vmas, 4096 ∣ vma.virtAddr
  inexact : ∀ vma ∈ vmas, vma.isExact = false
  kernel : ∀ vma ∈ vmas, vma.kernelVma = true → vma.virtAddr + vma.length ≤ userspaceBottom
  bounded : ∀ vma ∈ vmas, vma.virtAddr + vma.length + 4096 ≤ 2 ^ 64
  heap : ∀ vma ∈ heapOf vmas, vma.kernelVma = false

def InArea (vmas : List UserVma) (page : ℕ) : Prop :=
  ∃ vma ∈ vmas, vma.kernelVma = false ∧ vma.Covers page

variable {page i length : ℕ} {heap : UserVma}

section
variable {vmas : List UserVma} {vma : UserVma}

theorem HeapAreas.endAddr (h : HeapAreas vmas) (hv : vma ∈ vmas) : vma.endAddr = vma.virtAddr + vma.length := by
  have := h.bounded vma hv
  exact Nat.mod_eq_of_lt (by omega)

theorem HeapAreas.visited (h : HeapAreas vmas) {d : ℕ} (hpage : page < 2 ^ 20) (hin : InArea vmas page) :
    ∃ a ∈ evictions vmas, Visits ⟨d, vmas.map UserVma.toVmArea⟩ a ∧ a.1 / 4096 = page := by
  obtain ⟨vma, hv, hk, hlo, hhi⟩ := hin
  obtain ⟨c, hvirt⟩ := h.aligned vma hv
  have haddr : vma.virtAddr + 4096 * (page - c) = page * 4096 := by omega
  have hend : vma.virtAddr + 4096 * (page - c) < vma.endAddr := by
    rw [haddr, h.endAddr hv]
    exact hhi
  refine ⟨_, mem_evictions_iff.2 ⟨vma, hv, hk, mem_evictions.2 ⟨page - c, hend, rfl⟩⟩, ⟨?_, ?_⟩, ?_⟩
  · omega
  · rw [searchUserspaceVmaByAddr, find?_isSome]
    refine ⟨vma.toVmArea, mem_map_of_mem hv, ?_⟩
    rw [Bool.and_eq_true, decide_eq_true_iff, decide_eq_true_iff]
    exact ⟨Nat.le_add_right _ _, hend⟩
  · omega

theorem HeapAreas.search (h : HeapAreas vmas) {linearAddr : UInt32} {area : VmArea}
    (huser : userspaceBottom ≤ linearAddr.toNat)
    (hs : searchUserspaceVmaByAddr (vmas.map UserVma.toVmArea) linearAddr.toNat = some area) :
    area.isExact = false ∧ InArea vmas (pageOf linearAddr) := by
  obtain ⟨vma, hv, rfl⟩ := mem_map.1 (mem_of_find?_eq_some hs)
  have hin := find?_some hs
  rw [Bool.and_eq_true, decide_eq_true_iff, decide_eq_true_iff] at hin
  change vma.virtAddr ≤ _ ∧ _ < vma.endAddr at hin
  rw [h.endAddr hv] at hin
  obtain ⟨c, hvirt⟩ := h.aligned vma hv
  refine ⟨h.inexact vma hv, vma, hv, ?_, ?_, ?_⟩
  · by_contra hk
    have := h.kernel vma hv (by simpa using hk)
    omega
  · unfold pageOf
    omega
  · unfold pageOf
    omega

theorem callSysSbrk_cases (vmas : List UserVma) (increment : ℤ) : (callSysSbrk vmas increment).1 = vmas ∨
      ∃ i heap, searchUserspaceVma vmas .heap = some i ∧ vmas[i]? = some heap ∧
        (callSysSbrk vmas increment).1 = vmas.set i { heap with length := u64 (heap.length + increment) } := by
  rw [callSysSbrk]
  cases hs : searchUserspaceVma vmas .heap with
  | none => exact .inl rfl
  | some i =>
    dsimp only
    rw [extendVmArea]
    cases hi : vmas[i]? with
    | none => exact .inl rfl
    | some heap =>
      dsimp only
      split_ifs
      · exact .inl rfl
      · exact .inr ⟨i, heap, rfl, hi, rfl⟩

theorem searchUserspaceVma_congr {vmas' : List UserVma} (h : vmas'.map (·.name) = vmas.map (·.name)) (name : VmaName) :
    searchUserspaceVma vmas' name = searchUserspaceVma vmas name := by
  have hlength : vmas'.length = vmas.length := by
    rw [← length_map, h, length_map]
  have hfind : ∀ l : List UserVma, (l.findIdx fun vma => vma.name = name) =
      (l.map (·.name)).findIdx fun n => n = name := fun l => by
    rw [findIdx_map]
    rfl
  have hnil : vmas' = [] ↔ vmas = [] := by
    rw [← length_eq_zero_iff, hlength, length_eq_zero_iff]
  unfold searchUserspaceVma
  rw [hfind, hfind, h, hlength]
  by_cases h0 : vmas = []
  · rw [if_pos h0, if_pos (hnil.2 h0)]
  · rw [if_neg h0, if_neg (mt hnil.1 h0)]

theorem map_name_set (h : vmas[i]? = some heap) :
    (vmas.set i { heap with length }).map (·.name) = vmas.map (·.name) := by
  obtain ⟨hlt, rfl⟩ := List.getElem?_eq_some_iff.1 h
  refine ext_getElem? fun j => ?_
  rw [getElem?_map, getElem?_map, getElem?_set]
  split_ifs with hij
  · subst hij
    rw [getElem?_eq_getElem hlt]
    rfl
  · rfl

theorem HeapAreas.resize (h : HeapAreas vmas) (hs : searchUserspaceVma vmas .heap = some i) (hi : vmas[i]? = some heap)
    (hlength : heap.virtAddr + length + 4096 ≤ 2 ^ 64) : HeapAreas (vmas.set i { heap with length }) := by
  have hmem : heap ∈ vmas := List.mem_of_getElem? hi
  have hkernel : heap.kernelVma = false := h.heap heap (by rw [heapOf, hs]; exact hi)
  have hall : ∀ {P : UserVma → Prop}, (∀ vma ∈ vmas, P vma) → P { heap with length } →
      ∀ vma ∈ vmas.set i { heap with length }, P vma := fun hP hnew vma hv => by
    rcases mem_or_eq_of_mem_set hv with hv | rfl
    · exact hP vma hv
    · exact hnew
  refine ⟨hall h.aligned (h.aligned heap hmem), hall h.inexact (h.inexact heap hmem),
    hall h.kernel fun hc => ?_, hall h.bounded hlength, fun vma hv => ?_⟩
  · rw [hkernel] at hc
    cases hc
  rw [heapOf, searchUserspaceVma_congr (map_name_set hi), hs, Option.bind_some,
    List.getElem?_set_self (List.getElem?_eq_some_iff.1 hi).1] at hv
  cases hv
  exact hkernel

theorem InArea.resize (hi : vmas[i]? = some heap) (hcut : heap.Covers page → page * 4096 < heap.virtAddr + length)
    (h : InArea vmas page) : InArea (vmas.set i { heap with length }) page := by
  obtain ⟨vma, hv, hk, hc⟩ := h
  obtain ⟨j, hj⟩ := mem_iff_getElem?.1 hv
  by_cases hij : i = j
  · subst hij
    rw [hi] at hj
    cases hj
    exact ⟨_, List.mem_of_getElem? (List.getElem?_set_self (List.getElem?_eq_some_iff.1 hi).1), hk, hc.1, hcut hc⟩
  · exact ⟨vma, List.mem_of_getElem? ((getElem?_set_ne hij).trans hj), hk, hc⟩

end

/-! ## The frames -/

/-- The break stays between the start of the heap and the end of the numbers, and no present page lies between the new
one and the old one. -/
def UserHeapOp.Keeps (d : ℕ) (s : HeapTask) : UserHeapOp → Prop
  | .touch _ _ => True
  | .sbrk increment => ∀ heap ∈ heapOf s.vmas,
      0 ≤ heap.length + increment ∧ heap.virtAddr + heap.length + increment + 4096 ≤ 2 ^ 64 ∧
      ∀ page < 2 ^ 20, lookup s.frames.paging.mem d page ≠ none →
        ¬(heap.virtAddr + heap.length + increment ≤ page * 4096 ∧ page * 4096 < heap.virtAddr + heap.length)

/-- The task got the frames that it holds or gave back, and every present page lies in an area. -/
structure HeapInv {τ : Type} (p : PhysicalMemory) (dir : τ → ℕ) (t : τ) (held : List ℕ) (s : HeapTask) :
    Prop where
  sound : Sound dir s.frames.paging.mem s.frames.paging.base s.frames.paging.calls
  cursor : 4096 ∣ s.frames.fastPageAddr
  backed : Backed p (lookup s.frames.paging.mem (dir t)) s.frames.paging.freePageBitmap s.frames.handed
  areas : HeapAreas s.vmas
  present : ∀ page < 2 ^ 20, lookup s.frames.paging.mem (dir t) page ≠ none → InArea s.vmas page
  balance : (s.got ++ held).Perm (s.freed ++ s.frames.handed)

section
variable {τ : Type} {p : PhysicalMemory} {dir : τ → ℕ} {t : τ} {held : List ℕ} {s : HeapTask}

theorem HeapInv.sbrk (h : HeapInv p dir t held s) {increment : ℤ}
    (hkeeps : UserHeapOp.Keeps (dir t) s (.sbrk increment)) :
    HeapInv p dir t held { s with vmas := (callSysSbrk s.vmas increment).1 } := by
  rcases callSysSbrk_cases s.vmas increment with hsame | ⟨i, heap, hs, hi, hset⟩
  · rw [hsame]
    exact h
  obtain ⟨h0, hmax, hcut⟩ := hkeeps heap (by rw [heapOf, hs]; exact hi)
  have hlength : (u64 (heap.length + increment) : ℤ) = heap.length + increment := by
    refine u64_of_range h0 ?_
    omega
  rw [hset]
  refine { h with
    areas := h.areas.resize hs hi (by omega)
    present := fun page hpage hne => (h.present page hpage hne).resize hi fun hc => ?_ }
  have := hcut page hpage hne
  have := hc.2
  omega

theorem HeapInv.touch (h : HeapInv p dir t held s) (linearAddr : UInt32) (user : userspaceBottom ≤ linearAddr.toNat) :
    ∃ s', s.step p (dir t) (.touch linearAddr user) = .ok s' ∧ HeapInv p dir t held s' := by
  rw [HeapTask.step]
  by_cases hl : lookup s.frames.paging.mem (dir t) (pageOf linearAddr) ≠ none
  · rw [if_pos hl]
    exact ⟨s, rfl, h⟩
  rw [if_neg hl]
  rw [not_not] at hl
  have hdir : (s.task (dir t)).pageDirectory ≠ 0 := (h.sound.dir_base t).pos.ne'
  have hpl : (3 : ℕ) = 3 := rfl
  rw [handleUserspacePageFault, ensure_of hdir, ensure_of hpl, ensure_of user, touchedFrame]
  cases hs : searchUserspaceVmaByAddr (s.task (dir t)).vmaList linearAddr.toNat with
  | none =>
    refine ⟨_, rfl, ?_⟩
    dsimp only
    exact h
  | some vma =>
    obtain ⟨hx, hin⟩ := h.areas.search user hs
    obtain ⟨r', rc, hmap, hsound, hcursor, hfail, hdone⟩ := mapAreaPage_cases h.sound h.cursor
      (rfl : (s.task (dir t)).pageDirectory = dir t) hx linearAddr.toNat_lt
    dsimp only
    rw [hmap, hx, if_neg Bool.false_ne_true]
    refine ⟨_, rfl, ?_⟩
    by_cases hrc : rc = some 0
    · -- the page gets a frame
      obtain ⟨f, hnext, hmaps⟩ := hdone hrc
      have hother : ∀ page' < 2 ^ 20, page' ≠ pageOf linearAddr →
          lookup r'.paging.mem (dir t) page' = lookup s.frames.paging.mem (dir t) page' :=
        fun page' hlt hne => hmaps.other t page' hlt (.inr hne)
      rw [hrc, hnext, Option.getD_some, if_pos rfl]
      refine ⟨hsound, hcursor, ?_, h.areas, fun page hpage hne => ?_, ?_⟩
      · rw [hmaps.bitmap, hmaps.handed]
        exact h.backed.map (pageOf_lt _) hl hmaps.frame hmaps.free hmaps.self hother
      · by_cases hp : page = pageOf linearAddr
        · rw [hp]
          exact hin
        rw [hother page hpage hp] at hne
        exact h.present page hpage hne
      · rw [hmaps.handed]
        exact (h.balance.cons f).trans perm_middle.symm
    · obtain ⟨hnothing, -⟩ := hfail hrc
      have hfailed : rc.getD (-errOutOfResource) ≠ 0 := by
        cases rc with
        | none => decide
        | some n => exact fun hc => hrc (congrArg some hc)
      rw [if_neg hfailed]
      have hsame : ∀ page, lookup r'.paging.mem (dir t) page = lookup s.frames.paging.mem (dir t) page :=
        fun page => by rw [hnothing.mem]
      refine ⟨hsound, hcursor, ?_, h.areas, fun page hpage hne => ?_, ?_⟩
      · rw [hnothing.handed]
        exact h.backed.congr (fun page _ => hsame page) fun g hg => by rw [hnothing.frames]; exact hg
      · rw [hsame page] at hne
        exact h.present page hpage hne
      rw [hnothing.handed, append_assoc, append_assoc]
      exact h.balance.append_left _

theorem HeapInv.step (s : HeapTask) (op : UserHeapOp) (h : HeapInv p dir t held s) (hkeeps : op.Keeps (dir t) s) :
    ∃ s', s.step p (dir t) op = .ok s' ∧ HeapInv p dir t held s' := by
  cases op with
  | sbrk increment => exact ⟨_, rfl, h.sbrk hkeeps⟩
  | touch linearAddr user => exact h.touch linearAddr user

theorem HeapInv.reclaim (h : HeapInv p dir t held s) :
    ∃ s', s.reclaim (dir t) = .ok s' ∧ s'.frames.handed = [] ∧ (s'.got ++ held).Perm s'.freed := by
  have hinexact : ∀ vma ∈ (s.task (dir t)).vmaList, vma.isExact = false := fun vma hv => by
    obtain ⟨v, hv', rfl⟩ := mem_map.1 hv
    exact h.areas.inexact v hv'
  obtain ⟨r, hrun, hbacked, hperm, hpages, hgone⟩ := evict_run_frames h.sound
    (rfl : (s.task (dir t)).pageDirectory = dir t) hinexact h.backed (evictions s.vmas)
  have heq : evictVmas (s.task (dir t)) s.frames s.vmas = .ok r := by
    refine (evictVmas_eq (fun vma hv => mem_map_of_mem hv) (fun vma hv => ?_) (fun vma hv => ?_) s.frames).trans hrun
    · have := h.areas.bounded vma hv
      omega
    rw [h.areas.endAddr hv]
    exact h.areas.bounded vma hv
  have hnone : ∀ page < 2 ^ 20, lookup r.paging.mem (dir t) page = none := fun page hpage => by
    rcases hpages page hpage with h0 | hsame
    · exact h0
    by_contra hne
    obtain ⟨a, ha, hv, rfl⟩ := h.areas.visited hpage (h.present page hpage (hsame ▸ hne))
    exact hne (hgone a ha hv)
  have hnil := hbacked.eq_nil hnone
  rw [hnil, append_nil] at hperm
  refine ⟨_, by rw [HeapTask.reclaim, heq]; rfl, hnil, ?_⟩
  exact h.balance.trans (perm_append_comm.trans (hperm.symm.append_right _))

end

/-- **Every frame is given back once.** -/
theorem heap_frames_returned {τ : Type} (p : PhysicalMemory) (dir : τ → ℕ) (t : τ) (frames : FrameState)
    (vmas : List UserVma) (hsound : Sound dir frames.paging.mem frames.paging.base frames.paging.calls)
    (hcursor : 4096 ∣ frames.fastPageAddr)
    (hbacked : Backed p (lookup frames.paging.mem (dir t)) frames.paging.freePageBitmap frames.handed)
    (hareas : HeapAreas vmas)
    (hpresent : ∀ page < 2 ^ 20, lookup frames.paging.mem (dir t) page ≠ none → InArea vmas page)
    (ops : List UserHeapOp)
    (hkeeps : Along (HeapTask.step p (dir t)) (UserHeapOp.Keeps (dir t)) ⟨frames, vmas, [], []⟩ ops) :
    ∃ s₁ s₂, runSteps (HeapTask.step p (dir t)) ⟨frames, vmas, [], []⟩ ops = .ok s₁ ∧
      s₁.reclaim (dir t) = .ok s₂ ∧ s₂.frames.handed = [] ∧ (s₂.got ++ frames.handed).Perm s₂.freed := by
  have hstart : HeapInv p dir t frames.handed ⟨frames, vmas, [], []⟩ :=
    ⟨hsound, hcursor, hbacked, hareas, hpresent, .refl _⟩
  obtain ⟨s₁, hrun, hinv⟩ := inv_run_total HeapInv.step hstart hkeeps
  obtain ⟨s₂, hrec, hnil, hperm⟩ := hinv.reclaim
  exact ⟨s₁, s₂, hrun, hrec, hnil, hperm⟩

def smallHeap : List UserVma :=
  [⟨⟨0x40000000, 0, 0, false, true, false, false⟩, .heap, false, false, false⟩]

def smallFrames : FrameState := ⟨⟨fun _ => 0, ⟨fun _ => 1, 0⟩, fun _ => 0, []⟩, 0, []⟩

theorem smallHeap_areas : HeapAreas smallHeap where
  aligned := forall_mem_singleton.2 (by decide)
  inexact := forall_mem_singleton.2 rfl
  kernel := forall_mem_singleton.2 fun hc => Bool.noConfusion hc
  bounded := forall_mem_singleton.2 (by decide)
  heap vma hv := by
    obtain rfl : _ = vma := Option.some.inj hv
    rfl

theorem lookup_smallFrames (page : ℕ) : lookup smallFrames.paging.mem pageSpaceBottom page = none :=
  lookup_eq_none ((entryAt_zero _ _).symm ▸ not_present_zero)

theorem smallFrames_backed :
    Backed smallMemory (lookup smallFrames.paging.mem pageSpaceBottom) smallFrames.paging.freePageBitmap [] where
  nodup _ := nodup_nil
  frame _ f hf := absurd hf not_mem_nil
  apart _ _ f hf := absurd hf not_mem_nil
  owner _ f hf := absurd hf not_mem_nil
  once _ f hf := absurd hf not_mem_nil
  mapped _ page _ f hl := by
    rw [lookup_smallFrames] at hl
    cases hl

/-- The heap grows to two pages, and the untouched one is given up. -/
def shrinkUntouched : List UserHeapOp := [.sbrk 0x2000, .touch 0x40000010 (by decide), .sbrk (-0x1000)]

theorem shrinkUntouched_keeps : Along (HeapTask.step smallMemory pageSpaceBottom) (UserHeapOp.Keeps pageSpaceBottom)
      ⟨smallFrames, smallHeap, [], []⟩ shrinkUntouched := by
  refine ⟨fun heap hv => ?_, trivial, fun heap hv => ?_, trivial⟩
  · obtain rfl : _ = heap := Option.some.inj hv
    exact ⟨by decide, by decide, fun page _ _ hc => by omega⟩
  obtain rfl : _ = heap := Option.some.inj hv
  refine ⟨by decide, by decide, fun page _ hne hc => ?_⟩
  obtain rfl : page = 0x40001 := by
    have h1 : (0x40001000 : ℤ) ≤ page * 4096 := hc.1
    have h2 : page * 4096 < 0x40002000 := hc.2
    omega
  exact hne (by decide)

theorem heap_frames_returned_small :
    ∃ s₁ s₂, runSteps (HeapTask.step smallMemory pageSpaceBottom) ⟨smallFrames, smallHeap, [], []⟩
        shrinkUntouched = .ok s₁ ∧
      s₁.reclaim pageSpaceBottom = .ok s₂ ∧ s₂.frames.handed = [] ∧ (s₂.got ++ []).Perm s₂.freed :=
  heap_frames_returned smallMemory (fun _ : Unit => pageSpaceBottom) () smallFrames smallHeap
    smallBoot.start_good.sound (dvd_zero _) smallFrames_backed smallHeap_areas
    (fun page _ hne => absurd (lookup_smallFrames page) hne) shrinkUntouched shrinkUntouched_keeps

/-- **A page that is cut off the heap keeps its frame.** -/
theorem heap_frame_lost : ∃ s₁ s₂, runSteps (HeapTask.step smallMemory pageSpaceBottom) ⟨smallFrames, smallHeap, [], []⟩
        [.sbrk 0x2000, .touch 0x40001000 (by decide), .sbrk (-0x1000)] = .ok s₁ ∧
      s₁.reclaim pageSpaceBottom = .ok s₂ ∧ s₂.got = [0x400000] ∧ s₂.freed = [] :=
  ⟨_, _, rfl, rfl, rfl, rfl⟩

end ZeldaOS
