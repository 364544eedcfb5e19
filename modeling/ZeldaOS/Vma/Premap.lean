import ZeldaOS.Vma.Kernel

/-!
# Areas that should be mapped at once

What `register_kernel_vma` maps when it is given an area with `premap`.

* `premapped_iff`: when an area is mapped on return.
-/

namespace ZeldaOS

open Machine

/-! ## The call -/

inductive PremapCall (p : PhysicalMemory) (kernelPageDirectory : ℕ) (s s' : KernelMemory) :
    (virtAddr phyAddr length : UInt32) → Prop
  | register {vma : VmaSlot} (hpremap : vma.premap = true) (hexact : vma.isExact = true)
      (hret : registerKernelVma p kernelPageDirectory s vma = .ok (s', 0)) :
      PremapCall p kernelPageDirectory s s' vma.virtAddr vma.phyAddr vma.length
  | map {args : MapVmaArgs} {virtAddr : UInt32} (hpremap : lowBit args.premap = true) (hne : virtAddr ≠ 0)
      (hret : kernelMapVma p kernelPageDirectory s args = .ok (s', virtAddr)) :
      PremapCall p kernelPageDirectory s s' virtAddr args.phyAddr args.length

def MappedRange (m : Mem) (kernelPageDirectory : ℕ) (virtAddr phyAddr length : UInt32) : Prop :=
  ∀ i < length, virt2phy m kernelPageDirectory (virtAddr + i) = (phyAddr + i).toNat

def SameOutside (m m' : Mem) (kernelPageDirectory : ℕ) (virtAddr length : UInt32) : Prop :=
  ∀ a : UInt32, (∀ i < length, a ≠ virtAddr + i) → virt2phy m' kernelPageDirectory a = virt2phy m kernelPageDirectory a

/-- The first free slot has `premap` set, and the loop reaches the end of the range. -/
def StalePremap (s : KernelMemory) (virtAddr length : UInt32) : Prop :=
  (∃ old ∈ s.vmas.find? fun v => !v.present, old.premap = true) ∧ 4096 ∣ virtAddr.toNat ∧
    virtAddr.toNat + length.toNat < 2 ^ 32

variable {τ : Type} {dir : τ → ℕ} {t : τ} {virt : UInt32} {s' : PagingState}

section
variable {s : PagingState}

/-! ## The loop -/

theorem ensure_eq_ok {c : Prop} [Decidable c] {u : Unit} (h : ensure c = .ok u) : c := by
  by_contra hc
  rw [ensure, if_neg hc] at h
  cases h

theorem Sound.provideKernelTable_ok (h : Sound dir s.mem s.base s.calls)
    (hrun : ZeldaOS.provideKernelTable s (dir t) virt = .ok s') :
    Sound dir s'.mem s'.base s'.calls ∧ present (entryAt s'.mem (dir t) (pageOf virt / 1024)) ∧
      ∀ page < 2 ^ 20, lookup s'.mem (dir t) page = lookup s.mem (dir t) page := by
  have hlt := pageOf_lt virt
  rw [ZeldaOS.provideKernelTable, pdIndex_eq] at hrun
  split_ifs at hrun with hp
  · cases hrun
    exact ⟨h, hp, fun _ _ => rfl⟩
  obtain ⟨⟨b', p⟩, hget, hrun⟩ := bind_eq_ok hrun
  obtain ⟨⟨⟩, hp0, hrun⟩ := bind_eq_ok hrun
  cases hrun
  obtain ⟨b'', p', hget', hspec⟩ := getBasePage_spec h.cursor
  rw [hget] at hget'
  cases hget'
  have hp0' := ensure_eq_ok hp0
  obtain ⟨hsound, hpresent, hsame⟩ := h.addTable (by omega) hp hspec hp0' (createEntry32_lt 1 0 0 0 p)
    (present_createEntry32 1 0 0 0 p) (frameAddr_createPde32 0 (hspec.found hp0').1)
  exact ⟨hsound, hpresent, fun page hpage => hsame t page hpage⟩

theorem Sound.kernelMapPage_ok (h : Sound dir s.mem s.base s.calls) {phy w wt cd : UInt32}
    (hrun : ZeldaOS.kernelMapPage s (dir t) virt phy w wt cd = .ok s') :
    Sound dir s'.mem s'.base s'.calls ∧ ∀ page < 2 ^ 20, lookup s'.mem (dir t) page =
      if page = pageOf virt then some (phy.toNat / 4096 * 4096) else lookup s.mem (dir t) page := by
  obtain ⟨s1, hprov, hrun⟩ := bind_eq_ok hrun
  obtain ⟨h1, hpde, hsame⟩ := h.provideKernelTable_ok hprov
  obtain ⟨⟨⟩, -, hrun⟩ := bind_eq_ok hrun
  obtain ⟨⟨⟩, -, hrun⟩ := bind_eq_ok hrun
  obtain ⟨⟨⟩, -, hrun⟩ := bind_eq_ok hrun
  cases hrun
  have hlt : createPte32 w.toNat 0 wt.toNat cd.toNat phy.toNat < 2 ^ 32 := createEntry32_lt _ _ _ _ _
  obtain ⟨hsound, -, hpage, hother⟩ := h1.setPte (pageOf_lt virt) hpde hlt
  rw [pdIndex_eq, ptIndex_eq]
  refine ⟨hsound, fun page hlt' => ?_⟩
  by_cases heq : page = pageOf virt
  · rw [if_pos heq, heq]
    refine (hpage.trans (if_pos (present_createEntry32 _ _ _ _ _))).trans ?_
    exact congrArg some (frameAddr_createEntry32 _ _ _ _ phy.toNat_lt)
  · rw [if_neg heq, ← hsame page hlt']
    exact hother t page hlt' (.inr heq)

end

variable {p : PhysicalMemory}

def VmaSlot.frameOfPage (vma : VmaSlot) (page : ℕ) : ℕ :=
  (page * 4096 - vma.virtAddr.toNat + vma.phyAddr.toNat) % 2 ^ 32

theorem premapLoop_spec (vma : VmaSlot) {fuel : ℕ} {s s' : FrameState} {linearAddress : UInt32}
    (hsound : Sound dir s.paging.mem s.paging.base s.paging.calls) (hexact : vma.isExact = true)
    (hphy : 4096 ∣ vma.phyAddr.toNat) (hstart : 4096 ∣ vma.virtAddr.toNat) (hlen : 4096 ∣ vma.length.toNat)
    (hend : vma.virtAddr.toNat + vma.length.toNat < 2 ^ 32) (hlinear : 4096 ∣ linearAddress.toNat)
    (hfrom : vma.virtAddr.toNat ≤ linearAddress.toNat) (hrun : premapLoop p (dir t) vma fuel s linearAddress = .ok s') :
    ∀ page < 2 ^ 20, lookup s'.paging.mem (dir t) page =
      if linearAddress.toNat / 4096 ≤ page ∧ page * 4096 < vma.virtAddr.toNat + vma.length.toNat then
        some (vma.frameOfPage page) else lookup s.paging.mem (dir t) page := by
  have hstop : (vma.virtAddr + vma.length).toNat = vma.virtAddr.toNat + vma.length.toNat := by
    rw [UInt32.toNat_add, Nat.mod_eq_of_lt hend]
  induction fuel generalizing s linearAddress with
  | zero => cases hrun
  | succ fuel ih =>
    rw [premapLoop] at hrun
    split_ifs at hrun with hlt
    · rw [UInt32.lt_iff_toNat_lt, hstop] at hlt
      obtain ⟨⟨s1, phyAddress⟩, harea, hrun1⟩ := bind_eq_ok hrun
      obtain ⟨⟨⟩, -, hrun2⟩ := bind_eq_ok hrun1
      obtain ⟨paging, hmap, hloop⟩ := bind_eq_ok hrun2
      rw [kernelAreaPage, if_pos hexact] at harea
      cases harea
      obtain ⟨hsound', hlookup⟩ := hsound.kernelMapPage_ok hmap
      have hnext : (linearAddress + 4096).toNat = linearAddress.toNat + 4096 := by
        exact Nat.mod_eq_of_lt (by change linearAddress.toNat + 4096 < 2 ^ 32; omega)
      have hframe : (linearAddress - vma.virtAddr + vma.phyAddr).toNat / 4096 * 4096 =
          vma.frameOfPage (linearAddress.toNat / 4096) := by
        rw [VmaSlot.frameOfPage, UInt32.toNat_add, UInt32.toNat_sub_of_le _ _ (UInt32.le_iff_toNat_le.2 hfrom)]
        omega
      have hrest := ih hsound' (by omega) (by omega) hloop
      intro page hpage
      rw [hrest page hpage, hlookup page hpage, hnext, hframe, pageOf]
      -- the page of this round, those of the later rounds, and the others
      by_cases heq : page = linearAddress.toNat / 4096
      · subst heq
        rw [if_neg (by omega), if_pos rfl, if_pos ⟨le_rfl, by omega⟩]
      rw [if_neg heq]
      exact if_congr (by omega) rfl rfl
    · cases hrun
      rw [UInt32.lt_iff_toNat_lt, hstop] at hlt
      intro page _
      rw [if_neg (by omega)]

variable {virtAddr phyAddr length a : UInt32} {f : ℕ}

section
variable {m m' : Mem} {kernelPageDirectory : ℕ}

theorem or_eq_add_of_dvd {o : ℕ} (hf : 4096 ∣ f) (ho : o < 4096) : f ||| o = f + o := by
  obtain ⟨k, rfl⟩ := hf
  exact (Nat.two_pow_add_eq_or_of_lt (i := 12) ho k).symm

theorem dvd_of_lookup {page : ℕ} (h : lookup m kernelPageDirectory page = some f) : 4096 ∣ f := by
  unfold lookup frameOf at h
  split_ifs at h with hpde hpte
  cases h
  exact frameAddr_aligned _

theorem virt2phy_of_lookup (h : lookup m kernelPageDirectory (pageOf a) = some f) :
    virt2phy m kernelPageDirectory a = f + a.toNat % 4096 := by
  rw [virt2phy_eq, h]
  exact or_eq_add_of_dvd (dvd_of_lookup h) (Nat.mod_lt _ (by decide))

theorem virt2phy_mod (h : virt2phy m kernelPageDirectory a ≠ 0) :
    virt2phy m kernelPageDirectory a % 4096 = a.toNat % 4096 := by
  cases hlookup : lookup m kernelPageDirectory (pageOf a) with
  | none =>
    rw [virt2phy_eq, hlookup] at h
    exact absurd rfl h
  | some f =>
    have hf := dvd_of_lookup hlookup
    rw [virt2phy_of_lookup hlookup]
    omega

theorem MappedRange.aligned (h : MappedRange m kernelPageDirectory virtAddr phyAddr length)
    (hphy : 4096 ∣ phyAddr.toNat) (hlen : 4096 ∣ length.toNat) (hne : length ≠ 0) : 4096 ∣ virtAddr.toNat := by
  have hpos : 0 < length.toNat := Nat.pos_of_ne_zero fun h0 => hne (UInt32.toNat_inj.1 h0)
  have hone : (1 : UInt32) < length := UInt32.lt_iff_toNat_lt.2 (by change 1 < length.toNat; omega)
  have hsecond := h 1 hone
  have hlt := phyAddr.toNat_lt
  have hphy' : (phyAddr + 1).toNat = phyAddr.toNat + 1 := by
    exact Nat.mod_eq_of_lt (by change phyAddr.toNat + 1 < 2 ^ 32; omega)
  have hvirt : (virtAddr + 1).toNat = (virtAddr.toNat + 1) % 2 ^ 32 := UInt32.toNat_add _ _
  have hne' : virt2phy m kernelPageDirectory (virtAddr + 1) ≠ 0 := by
    omega
  have hmod := virt2phy_mod hne'
  omega

theorem mappedRange_of_lookup (vma : VmaSlot) (hphy : 4096 ∣ vma.phyAddr.toNat) (hstart : 4096 ∣ vma.virtAddr.toNat)
    (hlen : 4096 ∣ vma.length.toNat) (hend : vma.virtAddr.toNat + vma.length.toNat < 2 ^ 32)
    (h : ∀ page < 2 ^ 20, lookup m' kernelPageDirectory page =
      if vma.virtAddr.toNat / 4096 ≤ page ∧ page * 4096 < vma.virtAddr.toNat + vma.length.toNat then
        some (vma.frameOfPage page) else lookup m kernelPageDirectory page) :
    MappedRange m' kernelPageDirectory vma.virtAddr vma.phyAddr vma.length ∧
      SameOutside m m' kernelPageDirectory vma.virtAddr vma.length := by
  constructor
  · intro i hi
    rw [UInt32.lt_iff_toNat_lt] at hi
    have hadd : (vma.virtAddr + i).toNat = vma.virtAddr.toNat + i.toNat := by
      rw [UInt32.toNat_add, Nat.mod_eq_of_lt (by omega)]
    have hpage : pageOf (vma.virtAddr + i) = vma.virtAddr.toNat / 4096 + i.toNat / 4096 := by
      rw [pageOf, hadd]
      omega
    have hlookup := h _ (pageOf_lt (vma.virtAddr + i))
    rw [if_pos (by omega)] at hlookup
    rw [virt2phy_of_lookup hlookup, hpage, hadd, UInt32.toNat_add, VmaSlot.frameOfPage]
    omega
  · intro a ha
    have hout : ¬(vma.virtAddr.toNat / 4096 ≤ pageOf a ∧ pageOf a * 4096 < vma.virtAddr.toNat + vma.length.toNat) := by
      rintro ⟨hfrom, hto⟩
      rw [pageOf] at hfrom hto
      have hle : vma.virtAddr ≤ a := UInt32.le_iff_toNat_le.2 (by omega)
      have hsub := UInt32.toNat_sub_of_le _ _ hle
      refine ha (a - vma.virtAddr) (UInt32.lt_iff_toNat_lt.2 (by omega)) ?_
      rw [← UInt32.toNat_inj, UInt32.toNat_add, hsub, Nat.mod_eq_of_lt (by have := a.toNat_lt; omega)]
      omega
    rw [virt2phy_eq, virt2phy_eq, h _ (pageOf_lt a), if_neg hout]

end

theorem SameOutside.refl (m : Mem) (d : ℕ) (virtAddr length : UInt32) : SameOutside m m d virtAddr length :=
  fun _ _ => rfl

theorem PremapCall.registers {d : ℕ} {s s' : KernelMemory} (h : PremapCall p d s s' virtAddr phyAddr length) :
    ∃ vma : VmaSlot, vma.isExact = true ∧ vma.virtAddr = virtAddr ∧ vma.phyAddr = phyAddr ∧ vma.length = length ∧
      registerKernelVma p d s vma = .ok (s', 0) := by
  cases h with
  | register _ hexact hret => exact ⟨_, hexact, rfl, rfl, rfl, hret⟩
  | @map args _ _ hne hret =>
    obtain ⟨virtAddr, hsearch, hret⟩ := bind_eq_ok hret
    split_ifs at hret with h0
    · cases hret
      exact absurd h0 hne
    obtain ⟨⟨s1, ret⟩, hreg, hret⟩ := bind_eq_ok hret
    obtain ⟨⟨⟩, hzero, hret⟩ := bind_eq_ok hret
    cases hret
    obtain rfl := ensure_eq_ok hzero
    exact ⟨args.vma virtAddr, rfl, rfl, rfl, rfl, hreg⟩

/-- **When an area with `premap` is mapped on return.** -/
theorem premapped_iff {τ : Type} (dir : τ → ℕ) (t : τ) (p : PhysicalMemory) (s s' : KernelMemory)
    (virtAddr phyAddr length : UInt32)
    (hsound : Sound dir s.frames.paging.mem s.frames.paging.base s.frames.paging.calls)
    (hphy : 4096 ∣ phyAddr.toNat) (hlen : 4096 ∣ length.toNat)
    (hcall : PremapCall p (dir t) s s' virtAddr phyAddr length) :
    MappedRange s'.frames.paging.mem (dir t) virtAddr phyAddr length ∧
        SameOutside s.frames.paging.mem s'.frames.paging.mem (dir t) virtAddr length ↔
      MappedRange s.frames.paging.mem (dir t) virtAddr phyAddr length ∨ StalePremap s virtAddr length := by
  obtain ⟨vma, hexact, rfl, rfl, rfl, hret⟩ := hcall.registers
  rcases registerKernelVma_cases hret with ⟨-, hc, -⟩ | ⟨-, -, hc, -⟩ | ⟨-, target, old, -, hfind, -, -, hframes⟩
  · exact absurd hc (by decide)
  · exact absurd hc (by decide)
  -- without a change of the page tables, both sides say that the range was mapped
  have hsame : s'.frames = s.frames → ¬StalePremap s vma.virtAddr vma.length ∨ vma.length = 0 →
      (MappedRange s'.frames.paging.mem (dir t) vma.virtAddr vma.phyAddr vma.length ∧
        SameOutside s.frames.paging.mem s'.frames.paging.mem (dir t) vma.virtAddr vma.length ↔
      MappedRange s.frames.paging.mem (dir t) vma.virtAddr vma.phyAddr vma.length ∨
        StalePremap s vma.virtAddr vma.length) := by
    intro heq hnot
    rw [heq]
    constructor
    · exact fun h => .inl h.1
    intro h
    refine ⟨?_, .refl _ _ _ _⟩
    rcases hnot with hnot | h0
    · exact h.resolve_right hnot
    intro i hi
    rw [h0, UInt32.lt_iff_toNat_lt] at hi
    exact absurd hi (Nat.not_lt_zero _)
  by_cases hpremap : old.premap = true
  · rw [premapVma, if_pos (show (vma.entered old).premap = true from hpremap)] at hframes
    have hidle : ¬(vma.entered old).virtAddr < (vma.entered old).virtAddr + (vma.entered old).length →
        s'.frames = s.frames := fun hlt => by
      rw [premapFuel, premapLoop, if_neg hlt] at hframes
      exact (Except.ok.inj hframes).symm
    by_cases hend : vma.virtAddr.toNat + vma.length.toNat < 2 ^ 32
    · by_cases halign : 4096 ∣ vma.virtAddr.toNat
      · have hlookup := premapLoop_spec (vma.entered old) hsound hexact hphy halign hlen hend halign le_rfl hframes
        exact iff_of_true (mappedRange_of_lookup (vma.entered old) hphy halign hlen hend hlookup)
          (.inr ⟨⟨old, hfind, hpremap⟩, halign, hend⟩)
      by_cases h0 : vma.length = 0
      · have hlt : ¬vma.virtAddr < vma.virtAddr + vma.length := by
          rw [h0, UInt32.add_zero]
          exact UInt32.lt_irrefl _
        exact hsame (hidle hlt) (.inr h0)
      · refine iff_of_false (fun h => halign (h.1.aligned hphy hlen h0)) fun h => halign ?_
        exact h.elim (fun hmapped => hmapped.aligned hphy hlen h0) fun hstale => hstale.2.1
    · -- the end of the range wraps around, and the loop ends at once
      have hlt : ¬vma.virtAddr < vma.virtAddr + vma.length := by
        have hlen' := vma.length.toNat_lt
        rw [UInt32.lt_iff_toNat_lt, UInt32.toNat_add]
        omega
      exact hsame (hidle hlt) (.inl fun hstale => hend hstale.2.2)
  · have hidle : s'.frames = s.frames := by
      rw [premapVma, if_neg (show ¬(vma.entered old).premap = true from hpremap)] at hframes
      exact (Except.ok.inj hframes).symm
    refine hsame hidle (.inl ?_)
    rintro ⟨⟨old', hold', hset⟩, -⟩
    rw [hfind] at hold'
    cases hold'
    exact hpremap hset

theorem not_present_bareFrames (page i : ℕ) : ¬present (entryAt bareFrames.paging.mem page i) := by
  have hzero : entryAt bareFrames.paging.mem page i = 0 := by
    simp [entryAt, Mem.read, bareFrames]
  exact not_present_zero

theorem sound_bareFrames :
    Sound (fun _ : Unit => 0x4000000) bareFrames.paging.mem bareFrames.paging.base bareFrames.paging.calls where
  cursor := dvd_zero _
  dir_base _ := ⟨by decide, by decide, by decide⟩
  dir_occupied _ := by decide
  dir_inj _ _ _ := rfl
  table _ i _ hp := absurd hp (not_present_bareFrames _ i)
  apart _ i _ _ _ _ hp := absurd hp (not_present_bareFrames _ i)
  freed := trivial

def premapArea : VmaSlot := { plainVma 0x20000000 0x1000 with premap := true }

def staleVmas : KernelMemory := ⟨[{ VmaSlot.zero with premap := true }], bareFrames⟩

theorem premapped_iff_small : ∃ s', registerKernelVma smallMemory 0x4000000 staleVmas premapArea = .ok (s', 0) ∧
      MappedRange s'.frames.paging.mem 0x4000000 0x20000000 0x100000 0x1000 := by
  obtain ⟨s', hret⟩ : ∃ s', registerKernelVma smallMemory 0x4000000 staleVmas premapArea = .ok (s', 0) := ⟨_, rfl⟩
  have hcall := @PremapCall.register smallMemory 0x4000000 staleVmas s' premapArea rfl rfl hret
  have hstale : StalePremap staleVmas 0x20000000 0x1000 := ⟨⟨_, rfl, rfl⟩, by decide, by decide⟩
  refine ⟨s', hret, ?_⟩
  exact ((premapped_iff (fun _ : Unit => 0x4000000) () smallMemory staleVmas s' 0x20000000 0x100000 0x1000
    sound_bareFrames (by decide) (by decide) hcall).2 (.inr hstale)).1

/-- **In a table that `memset` cleared, nothing is mapped.** -/
theorem premap_lost :
    ∃ s', registerKernelVma smallMemory 0x4000000 ⟨List.replicate kernelVmaArrayLength .zero, bareFrames⟩ premapArea =
        .ok (s', 0) ∧ virt2phy s'.frames.paging.mem 0x4000000 0x20000000 = 0 := by
  have hfree : ¬∃ v ∈ List.replicate kernelVmaArrayLength VmaSlot.zero, v.Covers premapArea.virtAddr := by
    rintro ⟨v, hv, hc⟩
    rw [List.eq_of_mem_replicate hv] at hc
    exact absurd hc.1 (by decide)
  rw [registerKernelVma, if_neg hfree]
  exact ⟨_, rfl, rfl⟩

end ZeldaOS
