import ZeldaOS.Paging.Fault

/-!
# The table of kernel areas

`memory/kernel_vma.c`: a table of 1024 areas, and the calls that enter areas into it.

* `register_refuses_iff`: when overlaps are refused.
-/

namespace ZeldaOS

open Machine List

/-! ## The calls -/

structure VmaSlot extends KernelVma where
  premap : Bool
  deriving DecidableEq

def VmaSlot.zero : VmaSlot := ⟨⟨false, false, false, false, false, 0, 0, 0⟩, false⟩

structure KernelMemory where
  vmas : List VmaSlot
  frames : FrameState

def kernelVmaArrayLength : ℕ := 1024

def pageRounded (length : UInt32) : UInt32 :=
  if length &&& 0xfff ≠ 0 then (length &&& ~~~0xfff) + 4096 else length

/-- The inner loop of `search_free_kernel_virtual_address`, with `vma_nearest`. -/
def nearestVma (idx freeStart : ℕ) : (slots : List VmaSlot) → (j : ℕ) → Option VmaSlot → Option VmaSlot
  | [], _, nearest => nearest
  | vma :: slots, j, nearest =>
    nearestVma idx freeStart slots (j + 1) (if j ≠ idx ∧ vma.present = true ∧ freeStart ≤ vma.virtAddr.toNat ∧
          ∀ n ∈ nearest, vma.virtAddr ≤ n.virtAddr then some vma
        else nearest)

/-- The outer loop, from slot `idx` on; the bounds of a gap are of type `uint64_t`. -/
def freeAddressFrom (vmas : List VmaSlot) (length : UInt32) : (slots : List VmaSlot) → (idx : ℕ) → Except Fault UInt32
  | [], _ => .ok 0
  | vma :: slots, idx =>
    if vma.present = true then do
      let freeStart := (vma.virtAddr + vma.length).toNat
      let freeEnd := ((nearestVma idx freeStart vmas 0 none).map fun n => n.virtAddr.toNat).getD userspaceBottom
      ensure (freeEnd ≠ 0)
      if length.toNat < (freeEnd + 2 ^ 64 - freeStart) % 2 ^ 64 then .ok (vma.virtAddr + vma.length)
      else freeAddressFrom vmas length slots (idx + 1)
    else freeAddressFrom vmas length slots (idx + 1)

/-- `search_free_kernel_virtual_address`; `0` when there is no gap. -/
def searchFreeKernelVirtualAddress (vmas : List VmaSlot) (length : UInt32) : Except Fault UInt32 :=
  freeAddressFrom vmas (pageRounded length) vmas 0

/-- The loop of `register_kernel_vma` that maps the pages of the area. -/
def premapLoop (p : PhysicalMemory) (kernelPageDirectory : ℕ) (vma : VmaSlot) :
    (fuel : ℕ) → FrameState → (linearAddress : UInt32) → Except Fault FrameState
  | 0, _, _ => .error .diverge
  | fuel + 1, s, linearAddress =>
    if linearAddress < vma.virtAddr + vma.length then do
      let (s, phyAddress) ← kernelAreaPage p s vma.toKernelVma linearAddress
      ensure (phyAddress ≠ 0)
      let paging ← kernelMapPage s.paging kernelPageDirectory linearAddress phyAddress vma.writePermission.toUInt32
        vma.pageWritethrough.toUInt32 vma.pageCachedisable.toUInt32
      premapLoop p kernelPageDirectory vma fuel { s with paging } (linearAddress + 4096)
    else .ok s

def premapFuel : ℕ := 2 ^ 20 + 1

/-- The end of `register_kernel_vma`, for the slot that was stored. -/
def premapVma (p : PhysicalMemory) (kernelPageDirectory : ℕ) (slot : VmaSlot) (s : FrameState) :
    Except Fault FrameState :=
  if slot.premap = true then premapLoop p kernelPageDirectory slot premapFuel s slot.virtAddr else .ok s

/-- The slot that `register_kernel_vma` stores: `premap` is not copied. -/
def VmaSlot.entered (vma old : VmaSlot) : VmaSlot := { vma with present := true, premap := old.premap }

def registerKernelVma (p : PhysicalMemory) (kernelPageDirectory : ℕ) (s : KernelMemory) (vma : VmaSlot) :
    Except Fault (KernelMemory × ℤ) :=
  if ∃ v ∈ s.vmas, v.Covers vma.virtAddr then .ok (s, -errInvalidArg)
  else
    match s.vmas.findIdx? fun v => !v.present with
    | none => .ok (s, -errOutOfResource)
    | some target => do
      let slot := vma.entered (s.vmas.getD target .zero)
      let frames ← premapVma p kernelPageDirectory slot s.frames
      .ok (⟨s.vmas.set target slot, frames⟩, 0)

structure MapVmaArgs where
  isExact : UInt32
  premap : UInt32
  phyAddr : UInt32
  length : UInt32
  writePermission : UInt32
  pageWritethrough : UInt32
  pageCachedisable : UInt32

def lowBit (x : UInt32) : Bool := decide (x % 2 = 1)

/-- The area that `kernel_map_vma` registers: it is exact, whatever `exact` says. -/
def MapVmaArgs.vma (args : MapVmaArgs) (virtAddr : UInt32) : VmaSlot where
  present := false
  isExact := true
  writePermission := lowBit args.writePermission
  pageWritethrough := lowBit args.pageWritethrough
  pageCachedisable := lowBit args.pageCachedisable
  virtAddr := virtAddr
  phyAddr := args.phyAddr
  length := args.length
  premap := lowBit args.premap

def kernelMapVma (p : PhysicalMemory) (kernelPageDirectory : ℕ) (s : KernelMemory) (args : MapVmaArgs) :
    Except Fault (KernelMemory × UInt32) := do
  let virtAddr ← searchFreeKernelVirtualAddress s.vmas args.length
  if virtAddr = 0 then .ok (s, virtAddr)
  else do
    let (s, ret) ← registerKernelVma p kernelPageDirectory s (args.vma virtAddr)
    ensure (ret = 0)
    .ok (s, virtAddr)

def registerInitVma (p : PhysicalMemory) (kernelPageDirectory : ℕ) (s : KernelMemory) (vma : KernelVma) :
    Except Fault KernelMemory := do
  let (s, ret) ← registerKernelVma p kernelPageDirectory s ⟨vma, false⟩
  ensure (ret = 0)
  .ok s

def kernelVmaStart (p : PhysicalMemory) (kernelPageDirectory : ℕ) (frames : FrameState) (sysMemStart : UInt32) :
    Except Fault KernelMemory :=
  (kernelVmaInit sysMemStart).foldlM (registerInitVma p kernelPageDirectory)
    ⟨List.replicate kernelVmaArrayLength .zero, frames⟩

/-! ## Overlaps -/

def KernelVma.Contains (vma : KernelVma) (a : ℕ) : Prop :=
  vma.virtAddr.toNat ≤ a ∧ a < vma.virtAddr.toNat + vma.length.toNat

def Overlap (v w : KernelVma) : Prop := ∃ a, v.Contains a ∧ w.Contains a

def VmaDisjoint (vmas : List VmaSlot) : Prop :=
  ∀ (i j : ℕ) (v w : VmaSlot), vmas[i]? = some v → vmas[j]? = some w → i ≠ j → v.present = true →
    w.present = true → ¬Overlap v.toKernelVma w.toKernelVma

/-- No area begins inside `vma`, and none that ends with the address space holds its start. -/
def BeginsClear (vmas : List VmaSlot) (vma : VmaSlot) : Prop :=
  ∀ w ∈ vmas, w.present = true → w.length ≠ 0 →
    ¬(vma.virtAddr < w.virtAddr ∧ w.virtAddr.toNat < vma.virtAddr.toNat + vma.length.toNat) ∧
      (w.Contains vma.virtAddr.toNat → w.virtAddr.toNat + w.length.toNat < 2 ^ 32)

variable {v w : KernelVma}

theorem Overlap.symm (h : Overlap v w) : Overlap w v := by
  obtain ⟨a, hv, hw⟩ := h
  exact ⟨a, hw, hv⟩

theorem overlap_iff (hv : v.length ≠ 0) : Overlap v w ↔ w.Contains v.virtAddr.toNat ∨
      w.length ≠ 0 ∧ v.virtAddr < w.virtAddr ∧ w.virtAddr.toNat < v.virtAddr.toNat + v.length.toNat := by
  have hpos : 0 < v.length.toNat := Nat.pos_of_ne_zero fun h0 => hv (UInt32.toNat_inj.1 h0)
  rw [UInt32.lt_iff_toNat_lt]
  constructor
  · rintro ⟨a, ⟨hva, hav⟩, hwa, haw⟩
    by_cases hle : w.virtAddr.toNat ≤ v.virtAddr.toNat
    · exact .inl ⟨hle, by omega⟩
    refine .inr ⟨fun h0 => ?_, by omega, by omega⟩
    rw [h0] at haw
    change a < w.virtAddr.toNat + 0 at haw
    omega
  · rintro (hc | ⟨hw, hlt, hin⟩)
    · exact ⟨v.virtAddr.toNat, ⟨le_rfl, by omega⟩, hc⟩
    have hpos' : 0 < w.length.toNat := Nat.pos_of_ne_zero fun h0 => hw (UInt32.toNat_inj.1 h0)
    exact ⟨w.virtAddr.toNat, ⟨hlt.le, hin⟩, le_rfl, by omega⟩

variable {a : UInt32}

theorem KernelVma.covers_iff (hend : w.virtAddr.toNat + w.length.toNat < 2 ^ 32) :
    w.Covers a ↔ w.present = true ∧ w.Contains a.toNat := by
  have hadd : (w.virtAddr + w.length).toNat = w.virtAddr.toNat + w.length.toNat := by
    rw [UInt32.toNat_add, Nat.mod_eq_of_lt hend]
  rw [Covers, Contains, UInt32.le_iff_toNat_le, UInt32.lt_iff_toNat_lt, hadd]

theorem KernelVma.Covers.contains (h : w.Covers a) : w.Contains a.toNat := by
  obtain ⟨-, hle, hlt⟩ := h
  exact ⟨hle, hlt.trans_le (Nat.mod_le _ _)⟩

variable {vmas : List VmaSlot} {vma : VmaSlot}

theorem beginsClear_iff (hlen : vma.length ≠ 0) (hfree : ¬∃ w ∈ vmas, w.Covers vma.virtAddr) :
    BeginsClear vmas vma ↔ ∀ w ∈ vmas, w.present = true → ¬Overlap vma.toKernelVma w.toKernelVma := by
  refine forall₃_congr fun w hw hpresent => ?_
  rw [overlap_iff hlen, not_or]
  constructor
  · intro h
    refine ⟨fun hc => ?_, fun hin => (h hin.1).1 hin.2⟩
    have hne : w.length ≠ 0 := fun h0 => by
      obtain ⟨h1, h2⟩ := hc
      rw [h0] at h2
      exact absurd h2 (Nat.not_lt.2 h1)
    exact hfree ⟨w, hw, (KernelVma.covers_iff ((h hne).2 hc)).2 ⟨hpresent, hc⟩⟩
  · rintro ⟨hc, hin⟩ hne
    exact ⟨fun h => hin ⟨hne, h⟩, fun h => absurd h hc⟩

section
variable {p : PhysicalMemory} {kernelPageDirectory : ℕ} {s s' : KernelMemory} {ret : ℤ}

theorem registerKernelVma_cases (h : registerKernelVma p kernelPageDirectory s vma = .ok (s', ret)) :
    ((∃ w ∈ s.vmas, w.Covers vma.virtAddr) ∧ ret = -errInvalidArg ∧ s' = s) ∨
    (¬(∃ w ∈ s.vmas, w.Covers vma.virtAddr) ∧ (∀ w ∈ s.vmas, w.present = true) ∧ ret = -errOutOfResource ∧ s' = s) ∨
    (¬(∃ w ∈ s.vmas, w.Covers vma.virtAddr) ∧ ∃ target old, s.vmas[target]? = some old ∧
      s.vmas.find? (fun v => !v.present) = some old ∧ ret = 0 ∧ s'.vmas = s.vmas.set target (vma.entered old) ∧
      premapVma p kernelPageDirectory (vma.entered old) s.frames = .ok s'.frames) := by
  rw [registerKernelVma] at h
  split_ifs at h with hcovers
  · cases h
    exact .inl ⟨hcovers, rfl, rfl⟩
  cases hfind : s.vmas.findIdx? fun v => !v.present with
  | none =>
    rw [hfind] at h
    cases h
    refine .inr (.inl ⟨hcovers, fun w hw => ?_, rfl, rfl⟩)
    simpa using findIdx?_eq_none_iff.1 hfind w hw
  | some target =>
    rw [hfind] at h
    obtain ⟨hlt, hfree, hfirst⟩ := findIdx?_eq_some_iff_getElem.1 hfind
    have hget := getElem?_eq_getElem hlt
    have hold : s.vmas.getD target .zero = s.vmas[target] := by
      rw [getD_eq_getElem?_getD, hget, Option.getD_some]
    obtain ⟨frames, hframes, hok⟩ := bind_eq_ok h
    rw [hold] at hframes hok
    cases hok
    refine .inr (.inr ⟨hcovers, target, _, hget, ?_, rfl, rfl, hframes⟩)
    exact find?_eq_some_iff_getElem.2 ⟨hfree, target, hlt, rfl, fun j hj => by simpa using hfirst j hj⟩

theorem VmaDisjoint.set (h : VmaDisjoint vmas) {target : ℕ} {old : VmaSlot}
    (hclear : ∀ w ∈ vmas, w.present = true → ¬Overlap vma.toKernelVma w.toKernelVma) :
    VmaDisjoint (vmas.set target (vma.entered old)) := by
  intro i j v w hi hj hij hv hw hover
  rw [getElem?_set] at hi hj
  split_ifs at hi hj with hti hlt htj
  · exact hij (hti.symm.trans htj)
  · cases hi
    exact hclear w (mem_of_getElem? hj) hw hover
  · cases hj
    exact hclear v (mem_of_getElem? hi) hv hover.symm
  · exact h i j v w hi hj hij hv hw hover

end

/-- **When `register_kernel_vma` refuses overlaps.** -/
theorem register_refuses_iff (p : PhysicalMemory) (kernelPageDirectory : ℕ) (s s' : KernelMemory) (vma : VmaSlot)
    (ret : ℤ) (hdisjoint : VmaDisjoint s.vmas) (hlen : vma.length ≠ 0)
    (hret : registerKernelVma p kernelPageDirectory s vma = .ok (s', ret)) :
    (ret = 0 → ∀ w ∈ s.vmas, w.present = true → ¬Overlap vma.toKernelVma w.toKernelVma) ∧
        VmaDisjoint s'.vmas ∧ (ret ≠ 0 → s' = s) ↔
      (∃ w ∈ s.vmas, w.Covers vma.virtAddr) ∨ (∀ w ∈ s.vmas, w.present = true) ∨ BeginsClear s.vmas vma := by
  rcases registerKernelVma_cases hret with ⟨hcovers, rfl, rfl⟩ | ⟨-, hfull, rfl, rfl⟩ |
    ⟨hfree, target, old, hget, hfind, rfl, hvmas, -⟩
  · exact iff_of_true ⟨fun hc => absurd hc (by decide), hdisjoint, fun _ => rfl⟩ (.inl hcovers)
  · exact iff_of_true ⟨fun hc => absurd hc (by decide), hdisjoint, fun _ => rfl⟩ (.inr (.inl hfull))
  constructor
  · rintro ⟨hclear, -, -⟩
    exact .inr (.inr ((beginsClear_iff hlen hfree).2 (hclear rfl)))
  rintro (hc | hfull | hbegins)
  · exact absurd hc hfree
  · have habsent := find?_some hfind
    rw [hfull old (mem_of_getElem? hget)] at habsent
    exact absurd habsent (by decide)
  have hclear := (beginsClear_iff hlen hfree).1 hbegins
  refine ⟨fun _ => hclear, ?_, fun hc => absurd rfl hc⟩
  rw [hvmas]
  exact hdisjoint.set hclear

/-- No entry; the first base page is the directory of the kernel. -/
def bareFrames : FrameState := ⟨⟨fun _ => 0, ⟨fun _ => 1, 0⟩, fun _ => 0, []⟩, 0, []⟩

def plainVma (virtAddr length : UInt32) :
    VmaSlot := ⟨⟨true, true, true, false, false, virtAddr, 0x100000, length⟩, false⟩

/-- The table with the area from `0x2000` to `0x3000` in its first slot. -/
def smallVmas : KernelMemory := ⟨plainVma 0x2000 0x1000 :: replicate (kernelVmaArrayLength - 1) .zero, bareFrames⟩

theorem present_smallVmas {i : ℕ} {v : VmaSlot} (hi : smallVmas.vmas[i]? = some v) (hv : v.present = true) :
    i = 0 ∧ v = plainVma 0x2000 0x1000 := by
  cases i with
  | zero =>
    cases hi
    exact ⟨rfl, rfl⟩
  | succ i =>
    rw [eq_of_mem_replicate (mem_of_getElem? (getElem?_cons_succ.symm.trans hi))] at hv
    cases hv

theorem vmaDisjoint_smallVmas : VmaDisjoint smallVmas.vmas := fun _ _ _ _ hi hj hij hv hw _ =>
  hij ((present_smallVmas hi hv).1.trans (present_smallVmas hj hw).1.symm)

/-- The result, and the first two slots of the table. -/
def registered (vma : VmaSlot) : Option (ℤ × List VmaSlot) :=
  (registerKernelVma smallMemory 0x4000000 smallVmas vma).toOption.map fun r => (r.2, r.1.vmas.take 2)

theorem register_refuses_iff_small :
    ∃ s', registerKernelVma smallMemory 0x4000000 smallVmas (plainVma 0x1000 0x1000) = .ok (s', 0) ∧
      VmaDisjoint s'.vmas := by
  have heval : (registered (plainVma 0x1000 0x1000)).map Prod.fst = some 0 := by decide +kernel
  rw [registered, Option.map_map] at heval
  obtain ⟨⟨s', r⟩, hreg, rfl⟩ := exists_ok_of_map heval
  refine ⟨s', hreg, ?_⟩
  refine ((register_refuses_iff smallMemory 0x4000000 smallVmas _ (plainVma 0x1000 0x1000) 0 vmaDisjoint_smallVmas
    (by decide) hreg).2 (.inr (.inr ?_))).2.1
  intro w hw hpresent _
  obtain ⟨i, hi⟩ := getElem?_of_mem hw
  rw [(present_smallVmas hi hpresent).2]
  exact ⟨by decide, fun _ => by decide⟩

/-- **An area that begins below another and ends behind it is entered.** -/
theorem overlap_registered : VmaDisjoint smallVmas.vmas ∧
      ∃ s', registerKernelVma smallMemory 0x4000000 smallVmas (plainVma 0x1000 0x3000) = .ok (s', 0) ∧
        Overlap (plainVma 0x1000 0x3000).toKernelVma (plainVma 0x2000 0x1000).toKernelVma ∧ ¬VmaDisjoint s'.vmas := by
  have hover : Overlap (plainVma 0x1000 0x3000).toKernelVma (plainVma 0x2000 0x1000).toKernelVma :=
    ⟨0x2000, ⟨by decide, by decide⟩, by decide, by decide⟩
  have heval : registered (plainVma 0x1000 0x3000) = some (0, [plainVma 0x2000 0x1000, plainVma 0x1000 0x3000]) := by
    decide +kernel
  obtain ⟨⟨s', r⟩, hreg, hvmas⟩ := exists_ok_of_map heval
  obtain ⟨rfl, htake⟩ := Prod.mk.inj hvmas
  refine ⟨vmaDisjoint_smallVmas, s', hreg, hover, fun hdisjoint => ?_⟩
  have hslot : ∀ i < 2, s'.vmas[i]? = [plainVma 0x2000 0x1000, plainVma 0x1000 0x3000][i]? := fun i hi => by
    rw [← htake, getElem?_take_of_lt hi]
  exact hdisjoint 1 0 _ _ (hslot 1 (by decide)) (hslot 0 (by decide)) (by decide) rfl rfl hover

end ZeldaOS
