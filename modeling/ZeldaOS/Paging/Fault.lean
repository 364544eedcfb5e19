import ZeldaOS.Paging.Kernel
import ZeldaOS.Paging.Owner
import ZeldaOS.Task.Alive
import ZeldaOS.Trap.Model

/-!
# Page faults of user code

`paging_fault_handler` with `handle_kernel_page_fault`, for a fault of the current task.

* `user_fault_handled_iff`: a page fault of PL3 code is handled exactly when it is expected.
-/

namespace ZeldaOS

open Machine

/-! ## The handlers -/

structure KernelLayout where
  memory : PhysicalMemory
  vmas : List KernelVma
  pageDirectory : ℕ
  sigReturn : UInt32

structure CurrentTask where
  mem : TaskMem
  trap : TrapTask

/-- With the entries of `kernel_page_directory` for the user range, which no code reads. -/
structure FaultState where
  frames : FrameState
  userEntries : ℕ → ℕ
  current : Option CurrentTask

inductive FaultPanic where
  | paging (f : Fault)
  | trap (f : TrapFault)
  | notReach

def inPaging {α : Type} (x : Except Fault α) : Except FaultPanic α := x.mapError .paging

def inSignal {α : Type} (x : Except TrapFault α) : Except FaultPanic α := x.mapError .trap

def directoryIndexTop : ℕ := userspaceBottom >>> 12 >>> 10

def FaultState.setUserEntries (s : FaultState) (entry : ℕ → ℕ) : FaultState :=
  { s with
    userEntries := fun idx => if directoryIndexTop ≤ idx ∧ idx < 1024 then entry idx else s.userEntries idx }

def enableTaskPaging (s : FaultState) (task : TaskMem) : FaultState :=
  s.setUserEntries fun idx =>
    if task.pageDirectory ≠ 0 then entryAt s.frames.paging.mem task.pageDirectory idx else 0

def enableKernelPaging (s : FaultState) : FaultState := s.setUserEntries fun _ => 0

def kernelAreaPage (p : PhysicalMemory) (s : FrameState) (vma : KernelVma) (linearAddr : UInt32) :
    Except Fault (FrameState × UInt32) :=
  if vma.isExact then .ok (s, linearAddr - vma.virtAddr + vma.phyAddr)
  else do
    let (s', page) ← s.getPage p
    .ok ({ s' with handed := s.handed }, .ofNat page)

/-- With the frame that `p_esp` points to, and the result. -/
def handleKernelPageFault (k : KernelLayout) (s : FaultState) (esp : Frame)
    (errorcode linearAddr : UInt32) : Except FaultPanic (FaultState × Frame × ℤ) := do
  inPaging (ensure (linearAddr.toNat < userspaceBottom))
  if errorcode &&& 1 = 0 then
    match searchKernelVma k.vmas linearAddr with
    | some vma => do
      let (frames, phyAddr) ← inPaging (kernelAreaPage k.memory s.frames vma linearAddr)
      inPaging (ensure (phyAddr ≠ 0))
      let paging ← inPaging (kernelMapPage frames.paging k.pageDirectory linearAddr phyAddr
        vma.writePermission.toUInt32 vma.pageWritethrough.toUInt32 vma.pageCachedisable.toUInt32)
      .ok ({ s with frames := { frames with paging } }, esp, 0)
    | none => .error .notReach
  else if linearAddr = k.sigReturn then
    match s.current with
    | some c => do
      let (trap, esp) ← inSignal (returnFromPl3SignalContext c.trap esp)
      .ok ({ s with current := some { c with trap } }, esp, 0)
    | none => .error (.trap .sigReturn)
  else
    match s.current with
    | some c => do
      let task ← inSignal (inTrap (signalTask c.trap.task sigKill))
      .ok ({ s with current := some { c with trap := { c.trap with task } } }, esp, 0)
    -- `hlt`
    | none => .ok (s, esp, 0)

def pagingFaultHandler (k : KernelLayout) (s : FaultState) (esp : Frame)
    (errorcode linearAddr : UInt32) : Except FaultPanic (FaultState × Frame) := do
  let (s, esp, result) ←
    if linearAddr.toNat < userspaceBottom then handleKernelPageFault k s esp errorcode linearAddr
    else
      match s.current with
      | some c => do
        let (frames, result) ← inPaging (handleUserspacePageFault k.memory s.frames c.mem
          c.trap.task.privilegeLevel linearAddr)
        .ok ({ s with frames }, esp, result)
      | none => .error (.paging .assertion)
  if result = 0 then
    match s.current with
    | some c => .ok (enableTaskPaging s c.mem, esp)
    | none => .ok (enableKernelPaging s, esp)
  else .error .notReach

/-! ## Pages that get a frame -/

def VmArea.Contains (vma : VmArea) (vaddr : ℕ) : Prop :=
  vma.virtAddr ≤ vaddr ∧ vaddr < (vma.virtAddr + vma.length) % 2 ^ 64

instance VmArea.decidableContains (vma : VmArea) (vaddr : ℕ) : Decidable (vma.Contains vaddr) :=
  inferInstanceAs (Decidable (_ ∧ _))

theorem searchUserspaceVmaByAddr_none {vmas : List VmArea} {vaddr : ℕ} (h : ¬∃ vma ∈ vmas, vma.Contains vaddr) :
    searchUserspaceVmaByAddr vmas vaddr = none := by
  rw [searchUserspaceVmaByAddr, List.find?_eq_none]
  intro vma hv hc
  exact h ⟨vma, hv, by simpa [VmArea.Contains] using hc⟩

theorem searchUserspaceVmaByAddr_some {vmas : List VmArea} {vaddr : ℕ} (h : ∃ vma ∈ vmas, vma.Contains vaddr) :
    ∃ vma ∈ vmas, vma.Contains vaddr ∧ searchUserspaceVmaByAddr vmas vaddr = some vma := by
  obtain ⟨vma, hv, hc, hfind⟩ := exists_find? (q := fun vma : VmArea =>
    decide (vma.virtAddr ≤ vaddr) && decide (vaddr < (vma.virtAddr + vma.length) % 2 ^ 64))
    (by simpa [VmArea.Contains] using h)
  exact ⟨vma, hv, by simpa [VmArea.Contains] using hc, hfind⟩

variable {τ : Type} {dir : τ → ℕ} {task : TaskMem} {t : τ} {linearAddr : UInt32}

section
variable {p : PhysicalMemory} {s : FrameState}

structure Available (p : PhysicalMemory) (s : FrameState) : Prop where
  cursor : 4096 ∣ s.fastPageAddr
  frame : ∃ q, IsFrame p q ∧ isPageFree s.paging.freePageBitmap q = true
  basePage : ∃ q, IsBasePage q ∧ ¬occupied s.paging.base q

theorem Available.getPage (h : Available p s) :
    ∃ f page, ZeldaOS.getPage p.start p.boundary ⟨s.paging.freePageBitmap, s.fastPageAddr⟩ = .ok (f, page) ∧ page ≠ 0 ∧
      page < 2 ^ 32 ∧ IsFrame p page ∧ isPageFree s.paging.freePageBitmap page = true := by
  obtain ⟨f, page, hget, hspec⟩ := getPage_spec (f := ⟨s.paging.freePageBitmap, s.fastPageAddr⟩) h.cursor
  have h0 : page ≠ 0 := by
    intro h0
    obtain ⟨q, hq, hfree⟩ := h.frame
    rw [(hspec.full h0).2 q hq] at hfree
    cases hfree
  obtain ⟨hframe, hfree, -⟩ := hspec.found h0
  have hlt := hframe.lt_boundary
  have hle := p.boundary_le
  exact ⟨f, page, hget, h0, by omega, hframe, hfree⟩

/-- The physical address behind an address of an area: the exact one, or a free frame. -/
def Backs (p : PhysicalMemory) (s : FrameState) (exactAddr : Option ℕ) (phy : ℕ) : Prop :=
  match exactAddr with
  | some addr => phy = addr
  | none => IsFrame p phy ∧ isPageFree s.paging.freePageBitmap phy = true

/-- The exact address behind an address of an area, if the area has them. -/
def VmArea.exactAddr? (vma : VmArea) (addr : ℕ) : Option ℕ :=
  if vma.isExact then some (vma.exactAddr addr) else none

@[inherit_doc VmArea.exactAddr?]
def KernelVma.exactAddr? (vma : KernelVma) (addr : UInt32) : Option ℕ :=
  if vma.isExact then some (addr - vma.virtAddr + vma.phyAddr).toNat else none

theorem Sound.mapAreaPage_mapsTo (h : Sound dir s.paging.mem s.paging.base s.paging.calls) (ha : Available p s)
    (ht : task.pageDirectory = dir t) (vma : VmArea) {addr : ℕ} (hlo : userspaceBottom ≤ addr) (hhi : addr < 2 ^ 32) :
    ∃ s' phy, mapAreaPage p s task vma addr = .ok (s', some 0) ∧ Backs p s (vma.exactAddr? addr) phy ∧
      MapsTo s'.paging.mem (dir t) (addr / 4096) (createPte32 vma.writePermission.toNat 1
        vma.pageWritethrough.toNat vma.pageCachedisable.toNat phy) := by
  obtain ⟨q, hq, hfree⟩ := ha.basePage
  cases hx : vma.isExact with
  | true =>
    have hvirt : (UInt32.ofNat addr).toNat = addr := by rw [UInt32.toNat_ofNat', Nat.mod_eq_of_lt hhi]
    have hphy : (UInt32.ofNat (vma.exactAddr addr)).toNat = vma.exactAddr addr := by
      rw [UInt32.toNat_ofNat', VmArea.exactAddr, Nat.mod_mod]
    obtain ⟨s', rc, hmap, hm⟩ := h.userspaceMapPage_entry ht (.ofNat addr) (.ofNat (vma.exactAddr addr))
      vma.writePermission.toUInt8 vma.pageWritethrough.toUInt8 vma.pageCachedisable.toUInt8
    have hrc : rc = 0 := by
      by_contra hc
      exact hfree (((hm.failed hc).2.2 (by rw [hvirt]; exact hlo)).2 q hq)
    have hto := hm.entry hrc
    rw [pageOf_ofNat hhi, hphy, toNat_toUInt8, toNat_toUInt8, toNat_toUInt8] at hto
    refine ⟨{ s with paging := s' }, vma.exactAddr addr, ?_, ?_, hto⟩
    · simp [mapAreaPage, areaPage, hx, hmap, hrc, bind, Except.bind]
    · simp [Backs, VmArea.exactAddr?, hx]
  | false =>
    obtain ⟨s', rc, hmap, -, -, hfail, hdone⟩ := mapAreaPage_cases h ha.cursor ht hx hhi
    have hrc : rc = some 0 := by
      by_contra hc
      rcases (hfail hc).2 hlo with hfull | hfull
      · obtain ⟨g, hg, hgfree⟩ := ha.frame
        rw [hfull g hg] at hgfree
        cases hgfree
      · exact hfree (hfull.2 q hq)
    obtain ⟨g, -, hg⟩ := hdone hrc
    refine ⟨s', g, hrc ▸ hmap, ?_, hg.entry⟩
    simpa [Backs, VmArea.exactAddr?, hx] using ⟨hg.frame, hg.free⟩

theorem Sound.handleUserspacePageFault_mapsTo (h : Sound dir s.paging.mem s.paging.base s.paging.calls)
    (ha : Available p s) (ht : task.pageDirectory = dir t) (hlo : userspaceBottom ≤ linearAddr.toNat)
    (hc : ∃ vma ∈ task.vmaList, vma.Contains linearAddr.toNat) :
    ∃ s', handleUserspacePageFault p s task 3 linearAddr = .ok (s', 0) ∧
      ∃ vma ∈ task.vmaList, vma.Contains linearAddr.toNat ∧ ∃ phy, Backs p s (vma.exactAddr? linearAddr.toNat) phy ∧
          MapsTo s'.paging.mem task.pageDirectory (pageOf linearAddr) (createPte32
            vma.writePermission.toNat 1 vma.pageWritethrough.toNat vma.pageCachedisable.toNat phy) := by
  obtain ⟨vma, hv, hcv, hsearch⟩ := searchUserspaceVmaByAddr_some hc
  obtain ⟨s', phy, hmap, hback, hto⟩ := h.mapAreaPage_mapsTo ha ht vma hlo linearAddr.toNat_lt
  have hdir : task.pageDirectory ≠ 0 := ht ▸ (h.dir_base t).pos.ne'
  refine ⟨s', ?_, vma, hv, hcv, phy, hback, ?_⟩
  · simp [handleUserspacePageFault, ensure_of hdir, ensure_of hlo, hsearch, hmap, bind, Except.bind]
  rw [ht]
  exact hto

theorem Available.kernelAreaPage (ha : Available p s) {vma : KernelVma}
    (hexact : vma.isExact = true → linearAddr - vma.virtAddr + vma.phyAddr ≠ 0) :
    ∃ s' phy, ZeldaOS.kernelAreaPage p s vma linearAddr = .ok (s', phy) ∧ phy ≠ 0 ∧
      Backs p s (vma.exactAddr? linearAddr) phy.toNat ∧ s'.paging.mem = s.paging.mem ∧
      s'.paging.base = s.paging.base ∧ s'.paging.calls = s.paging.calls := by
  cases hx : vma.isExact with
  | true =>
    refine ⟨s, linearAddr - vma.virtAddr + vma.phyAddr, ?_, hexact hx, ?_, rfl, rfl, rfl⟩
    · simp [ZeldaOS.kernelAreaPage, hx]
    · simp [Backs, KernelVma.exactAddr?, hx]
  | false =>
    obtain ⟨f, page, hget, h0, hlt, hframe, hfree⟩ := ha.getPage
    have hphy : (UInt32.ofNat page).toNat = page := by rw [UInt32.toNat_ofNat', Nat.mod_eq_of_lt hlt]
    refine ⟨⟨{ s.paging with freePageBitmap := f.bitmap }, f.fastPageAddr, s.handed⟩, .ofNat page, ?_,
      fun hc => h0 (by rw [← hphy, hc]; rfl), ?_, rfl, rfl, rfl⟩
    · simp [ZeldaOS.kernelAreaPage, FrameState.getPage, hx, hget, bind, Except.bind]
    rw [hphy]
    simpa [Backs, KernelVma.exactAddr?, hx] using ⟨hframe, hfree⟩

end

/-! ## The cases of a fault -/

/-- PL3 code of the current task faulted, and both allocators have pages left. The error code says that the page is not
present only if it is not. -/
structure UserFault {τ : Type} (dir : τ → ℕ) (k : KernelLayout) (s : FaultState) (mem : TaskMem)
    (v : TrapTask) (esp : Frame) (errorcode linearAddr : UInt32) : Prop where
  current : s.current = some ⟨mem, v.trap esp none⟩
  inUser : v.InUser
  lives : v.task.Lives
  sound : Sound dir s.frames.paging.mem s.frames.paging.base s.frames.paging.calls
  kernelDir : ∃ t, k.pageDirectory = dir t
  taskDir : ∃ t, mem.pageDirectory = dir t
  available : Available k.memory s.frames
  absent : linearAddr.toNat < userspaceBottom → errorcode &&& 1 = 0 →
    lookup s.frames.paging.mem k.pageDirectory (pageOf linearAddr) = none

/-- The faults that the handler can deal with: in the user range, in an area of the task; in a kernel area of which the
first that covers the address does not put it at the exact physical address 0; and not at
`return_from_pl3_signal_context`. -/
def Expected (k : KernelLayout) (mem : TaskMem) (errorcode linearAddr : UInt32) : Prop :=
  if userspaceBottom ≤ linearAddr.toNat then ∃ vma ∈ mem.vmaList, vma.Contains linearAddr.toNat
  else if errorcode &&& 1 = 0 then
    ∃ vma ∈ k.vmas.find? fun vma => vma.Covers linearAddr, vma.isExact = true →
      linearAddr - vma.virtAddr + vma.phyAddr ≠ 0
  else linearAddr ≠ k.sigReturn

instance (k : KernelLayout) (mem : TaskMem) (errorcode linearAddr : UInt32) :
    Decidable (Expected k mem errorcode linearAddr) :=
  inferInstanceAs (Decidable (ite _ _ _))

/-- The page is mapped as an area of the task that contains the address says. -/
def UserMapped (k : KernelLayout) (s s' : FaultState) (mem : TaskMem) (linearAddr : UInt32) : Prop :=
  userspaceBottom ≤ linearAddr.toNat ∧ ∃ vma ∈ mem.vmaList, vma.Contains linearAddr.toNat ∧
    ∃ phy, Backs k.memory s.frames (vma.exactAddr? linearAddr.toNat) phy ∧
      MapsTo s'.frames.paging.mem mem.pageDirectory (pageOf linearAddr) (createPte32
        vma.writePermission.toNat 1 vma.pageWritethrough.toNat vma.pageCachedisable.toNat phy)

/-- The page was not mapped, and it is mapped as a kernel area that covers the address says. -/
def KernelMapped (k : KernelLayout) (s s' : FaultState) (linearAddr : UInt32) : Prop :=
  lookup s.frames.paging.mem k.pageDirectory (pageOf linearAddr) = none ∧ ∃ vma ∈ k.vmas, vma.Covers linearAddr ∧
    ∃ phy, Backs k.memory s.frames (vma.exactAddr? linearAddr) phy ∧
      MapsTo s'.frames.paging.mem k.pageDirectory (pageOf linearAddr) (createPte32
        vma.writePermission.toNat 0 vma.pageWritethrough.toNat vma.pageCachedisable.toNat phy)

def Killed (s' : FaultState) (mem : TaskMem) (v : TrapTask) : Prop :=
  ∃ task, signalTask v.task sigKill = .ok task ∧ s'.current = some ⟨mem, { v with task }⟩

/-- The handler returns, and it has mapped a page as an area says or signalled the task. -/
def Handled (k : KernelLayout) (s : FaultState) (mem : TaskMem) (v : TrapTask) (esp : Frame)
    (errorcode linearAddr : UInt32) : Prop :=
  ∃ s', pagingFaultHandler k s esp errorcode linearAddr = .ok (s', esp) ∧
    ((UserMapped k s s' mem linearAddr ∨ KernelMapped k s s' linearAddr) ∨ Killed s' mem (v.trap esp none))

section
variable {k : KernelLayout} {s : FaultState} {mem : TaskMem} {v : TrapTask} {esp : Frame} {errorcode : UInt32}

theorem UserFault.privilege (h : UserFault dir k s mem v esp errorcode linearAddr) :
    (v.trap esp none).task.privilegeLevel = 3 := by
  rw [← h.inUser.1]
  unfold TrapTask.trap taskPreInterruptHandler
  dsimp only
  split_ifs <;> rfl

theorem UserFault.user_mapped (h : UserFault dir k s mem v esp errorcode linearAddr)
    (hlo : userspaceBottom ≤ linearAddr.toNat) (hc : ∃ vma ∈ mem.vmaList, vma.Contains linearAddr.toNat) :
    ∃ s', pagingFaultHandler k s esp errorcode linearAddr = .ok (s', esp) ∧ UserMapped k s s' mem linearAddr := by
  obtain ⟨t, ht⟩ := h.taskDir
  obtain ⟨frames, hhandle, hmapped⟩ := h.sound.handleUserspacePageFault_mapsTo h.available ht hlo hc
  refine ⟨enableTaskPaging { s with frames } mem, ?_, hlo, hmapped⟩
  simp [pagingFaultHandler, Nat.not_lt.2 hlo, h.current, h.privilege, hhandle, inPaging, Except.mapError, bind,
    Except.bind]

theorem UserFault.kernel_mapped (h : UserFault dir k s mem v esp errorcode linearAddr)
    (hhi : linearAddr.toNat < userspaceBottom) (hcode : errorcode &&& 1 = 0) {vma : KernelVma}
    (hsearch : searchKernelVma k.vmas linearAddr = some vma)
    (hexact : vma.isExact = true → linearAddr - vma.virtAddr + vma.phyAddr ≠ 0) :
    ∃ s', pagingFaultHandler k s esp errorcode linearAddr = .ok (s', esp) ∧ KernelMapped k s s' linearAddr := by
  obtain ⟨t, ht⟩ := h.kernelDir
  have hbit : ∀ b : Bool, b.toUInt32.toNat = b.toNat := by decide
  have hcv : vma.Covers linearAddr := by simpa using List.find?_some hsearch
  obtain ⟨frames, phy, harea, h0, hback, hmem, hbase, hcalls⟩ := h.available.kernelAreaPage hexact
  have hsound : Sound dir frames.paging.mem frames.paging.base frames.paging.calls := by
    rw [hmem, hbase, hcalls]
    exact h.sound
  obtain ⟨paging, hmap, hto, -⟩ := hsound.kernelMapPage (hbase ▸ h.available.basePage) t linearAddr phy
    vma.writePermission.toUInt32 vma.pageWritethrough.toUInt32 vma.pageCachedisable.toUInt32
  rw [hbit, hbit, hbit] at hto
  refine ⟨enableTaskPaging { s with frames := { frames with paging } } mem, ?_, h.absent hhi hcode,
    vma, List.mem_of_find?_eq_some hsearch, hcv, phy.toNat, hback, ht ▸ hto⟩
  simp [pagingFaultHandler, handleKernelPageFault, hhi, hcode, hsearch, harea, h0, ht, hmap, h.current,
    inPaging, Except.mapError, bind, Except.bind]

theorem UserFault.killed (h : UserFault dir k s mem v esp errorcode linearAddr)
    (hhi : linearAddr.toNat < userspaceBottom) (hcode : errorcode &&& 1 ≠ 0) (hne : linearAddr ≠ k.sigReturn) :
    ∃ s', pagingFaultHandler k s esp errorcode linearAddr = .ok (s', esp) ∧ Killed s' mem (v.trap esp none) := by
  have hstate : (v.trap esp none).task.state = v.task.state ∧
      (v.trap esp none).task.nonStopState = v.task.nonStopState := by
    unfold TrapTask.trap taskPreInterruptHandler
    dsimp only
    split_ifs <;> exact ⟨rfl, rfl⟩
  have hkill : sigKill ≠ 0 := by decide
  obtain ⟨task, htask⟩ := signalTask_sent (h.lives.alive.congr hstate.1 hstate.2) hkill
    fun hc => h.lives.not_exiting (hstate.1 ▸ hc.1)
  refine ⟨enableTaskPaging { s with current := some ⟨mem, { v.trap esp none with task }⟩ } mem, ?_, task, htask, rfl⟩
  simp [pagingFaultHandler, handleKernelPageFault, hhi, hcode, hne, h.current, htask, inPaging, inSignal,
    inTrap, Except.mapError, bind, Except.bind]

theorem signalTask_scheduled {t t' : Task} {sig : Sig} (h : signalTask t sig = .ok t') :
    t'.signalScheduled = t.signalScheduled := by
  rcases signalTask_cases h with rfl | ⟨-, rfl⟩ | ⟨-, rfl⟩ | h
  · rfl
  · rfl
  · rfl
  rcases rawTaskWakeUp_cases h with ⟨-, rfl⟩ | ⟨-, rfl⟩ | ⟨-, rfl⟩ <;> rfl

/-- In the user range outside all areas, `handle_userspace_page_fault` finds nothing, and the handler panics. -/
theorem UserFault.user_panics (h : UserFault dir k s mem v esp errorcode linearAddr)
    (hlo : userspaceBottom ≤ linearAddr.toNat) (hc : ¬∃ vma ∈ mem.vmaList, vma.Contains linearAddr.toNat) :
    pagingFaultHandler k s esp errorcode linearAddr = .error .notReach := by
  obtain ⟨t, ht⟩ := h.taskDir
  have hdir : mem.pageDirectory ≠ 0 := ht ▸ (h.sound.dir_base t).pos.ne'
  simp [pagingFaultHandler, Nat.not_lt.2 hlo, h.current, handleUserspacePageFault, ensure_of hdir,
    ensure_of h.privilege, ensure_of hlo, searchUserspaceVmaByAddr_none hc, inPaging, Except.mapError, bind,
    Except.bind, errNotFound]

/-- A page of the kernel range that is not present, in no area or at the exact physical address 0. -/
theorem kernel_panics (hhi : linearAddr.toNat < userspaceBottom) (hcode : errorcode &&& 1 = 0)
    (hc : ∀ vma, searchKernelVma k.vmas linearAddr = some vma →
      vma.isExact = true ∧ linearAddr - vma.virtAddr + vma.phyAddr = 0) :
    ∃ e, pagingFaultHandler k s esp errorcode linearAddr = .error e := by
  cases hsearch : searchKernelVma k.vmas linearAddr with
  | none => exact ⟨.notReach, by simp [pagingFaultHandler, handleKernelPageFault, hhi, hcode, hsearch, inPaging,
      Except.mapError, bind, Except.bind]⟩
  | some vma =>
    obtain ⟨hexact, hphy⟩ := hc vma hsearch
    refine ⟨.paging .assertion, ?_⟩
    simp [pagingFaultHandler, handleKernelPageFault, hhi, hcode, hsearch, kernelAreaPage, hexact, hphy, ensure,
      inPaging, Except.mapError, bind, Except.bind]

/-- At `return_from_pl3_signal_context` an assertion fails, or the handler of a signal ends: no page is mapped, and the
task is not signalled. -/
theorem UserFault.returned (h : UserFault dir k s mem v esp errorcode linearAddr)
    (hhi : linearAddr.toNat < userspaceBottom) (hcode : errorcode &&& 1 ≠ 0) (heq : linearAddr = k.sigReturn) :
    ¬Handled k s mem v esp errorcode linearAddr := by
  rintro ⟨s', hs', hdone⟩
  by_cases hin : (v.trap esp none).task.signalScheduled = true ∧ (v.trap esp none).signaledCpu = esp
  · simp only [pagingFaultHandler, handleKernelPageFault, hhi, hcode, heq.symm, h.current, returnFromPl3SignalContext,
      hin, inPaging, inSignal, Except.mapError, ensure, bind, Except.bind, if_true, if_false, and_self, Except.ok.injEq,
      Prod.mk.injEq] at hs'
    obtain ⟨rfl, -⟩ := hs'
    rcases hdone with (⟨hlo, -⟩ | ⟨hnone, vma, -, -, phy, -, hto⟩) | ⟨task, htask, hcur⟩
    · exact absurd hhi (Nat.not_lt.2 hlo)
    · have hlookup := hto.lookup_eq.symm.trans hnone
      rw [frameOf, createPte32, if_pos (present_createEntry32 _ _ _ _ _)] at hlookup
      cases hlookup
    · -- the task would still be in the handler
      have hended : false = task.signalScheduled :=
        congrArg (fun c : CurrentTask => c.trap.task.signalScheduled) (Option.some.inj hcur)
      cases hended.trans ((signalTask_scheduled htask).trans hin.1)
  · simp only [pagingFaultHandler, handleKernelPageFault, hhi, hcode, heq.symm, h.current, returnFromPl3SignalContext,
      hin, inPaging, inSignal, Except.mapError, ensure, bind, Except.bind, if_true, if_false] at hs'
    cases hs'

/-- **A page fault of PL3 code is handled exactly when it is expected.** -/
theorem user_fault_handled_iff (h : UserFault dir k s mem v esp errorcode linearAddr) :
    Handled k s mem v esp errorcode linearAddr ↔ Expected k mem errorcode linearAddr := by
  have hpanic : (∃ e, pagingFaultHandler k s esp errorcode linearAddr = .error e) →
      ¬Handled k s mem v esp errorcode linearAddr := by
    rintro ⟨e, he⟩ ⟨s', hs', -⟩
    cases he.symm.trans hs'
  unfold Expected
  split_ifs with hlo hcode
  · refine ⟨fun hh => by_contra fun hc => hpanic ⟨_, h.user_panics hlo hc⟩ hh, fun hc => ?_⟩
    obtain ⟨s', hs', hm⟩ := h.user_mapped hlo hc
    exact ⟨s', hs', .inl (.inl hm)⟩
  · refine ⟨fun hh => by_contra fun hc => hpanic (kernel_panics (Nat.not_le.1 hlo) hcode fun vma hv => ?_) hh, ?_⟩
    · by_contra hnot
      exact hc ⟨vma, hv, fun hexact hphy => hnot ⟨hexact, hphy⟩⟩
    rintro ⟨vma, hv, hexact⟩
    obtain ⟨s', hs', hm⟩ := h.kernel_mapped (Nat.not_le.1 hlo) hcode hv hexact
    exact ⟨s', hs', .inl (.inr hm)⟩
  · refine ⟨fun hh heq => h.returned (Nat.not_le.1 hlo) hcode heq hh, fun hne => ?_⟩
    obtain ⟨s', hs', hm⟩ := h.killed (Nat.not_le.1 hlo) hcode hne
    exact ⟨s', hs', .inr hm⟩

end

/-- The first base page is the directory of a task, the ninth that of the kernel. -/
def faultTask : Bool → TaskMem
  | false => ⟨pageSpaceBottom, [dataArea, screenArea]⟩
  | true => ⟨pageSpaceBottom + 0x8000, []⟩

theorem isBasePage_fault : ∀ kernel, IsBasePage (faultTask kernel).pageDirectory
  | false => isBasePage_bottom
  | true => ⟨by decide, by decide, by decide⟩

theorem injective_fault : Function.Injective fun kernel => (faultTask kernel).pageDirectory := by
  intro a b h
  revert h
  cases a <;> cases b <;> decide

theorem occupied_fault : ∀ kernel, occupied ⟨fun _ => 1, 0⟩ (faultTask kernel).pageDirectory
  | false => rfl
  | true => rfl

theorem cursor_fault : 4096 ∣ 0 := dvd_zero 4096

@[inherit_doc faultTask]
def faultBoot : Boot Bool where
  mem _ := 0
  base := ⟨fun _ => 1, 0⟩
  freePageBitmap _ := 0
  task := faultTask
  cursor := cursor_fault
  dir_base := isBasePage_fault
  dir_occupied := occupied_fault
  dir_inj := injective_fault
  dir_zero _ _ _ := entryAt_zero _ _

/-- The areas are those of the boot code, for a kernel image that ends at 4 MiB. -/
def faultLayout : KernelLayout :=
  ⟨smallMemory, kernelVmaInit 0x400000, (faultTask true).pageDirectory, 0x102030⟩

/-- A task that runs PL3 code, outside any handler, and the frame of its fault. -/
def faultingTask : TrapTask := { newTask true ⟨0, true⟩ with traps := [] }
@[inherit_doc faultingTask] def faultFrame : Frame := ⟨1, true⟩

def faultStart : FaultState where
  frames := ⟨faultBoot.start.state, 0, []⟩
  userEntries _ := 0
  current := some ⟨faultTask false, faultingTask.trap faultFrame none⟩

theorem userFault_start (errorcode linearAddr : UInt32) : UserFault (fun t => (faultTask t).pageDirectory) faultLayout
    faultStart (faultTask false) faultingTask faultFrame errorcode linearAddr where
  current := rfl
  inUser := ⟨rfl, rfl⟩
  lives := ⟨⟨by decide, by decide⟩, by decide⟩
  sound := faultBoot.start_good.sound
  kernelDir := ⟨true, rfl⟩
  taskDir := ⟨false, rfl⟩
  available := ⟨dvd_zero _, ⟨0x400000, ⟨by decide, by decide, by decide⟩, by decide⟩,
    ⟨pageSpaceBottom + 0x1000, ⟨by decide, by decide, by decide⟩, by decide⟩⟩
  absent _ _ := lookup_eq_none fun hp => absurd (entryAt_zero _ _ ▸ hp) (by decide)

/-- A page of an area, one of the kernel heap, and a page that user code may not read. -/
theorem user_fault_handled_iff_small :
    Handled faultLayout faultStart (faultTask false) faultingTask faultFrame 4 0x40000123 ∧
      Handled faultLayout faultStart (faultTask false) faultingTask faultFrame 4 0x8000000 ∧
      Handled faultLayout faultStart (faultTask false) faultingTask faultFrame 5 0x100000 :=
  ⟨(user_fault_handled_iff (userFault_start 4 0x40000123)).2 (by decide),
    (user_fault_handled_iff (userFault_start 4 0x8000000)).2 (by decide),
    (user_fault_handled_iff (userFault_start 5 0x100000)).2 (by decide)⟩

/-- **User code ends the kernel with an access outside of its areas, above the kernel's heap, or to
`return_from_pl3_signal_context` outside a handler.** -/
theorem user_fault_panics : (∀ errorcode linearAddr, UserFault (fun t => (faultTask t).pageDirectory) faultLayout
      faultStart (faultTask false) faultingTask faultFrame errorcode linearAddr) ∧
    pagingFaultHandler faultLayout faultStart faultFrame 4 0x60000000 = .error .notReach ∧
    pagingFaultHandler faultLayout faultStart faultFrame 4 0x30000000 = .error .notReach ∧
    pagingFaultHandler faultLayout faultStart faultFrame 5 0x102030 = .error (.trap .sigReturn) :=
  ⟨userFault_start, rfl, rfl, rfl⟩

end ZeldaOS
