import ZeldaOS.Vma.Kernel

/-!
# The layout of the kernel's address space

Runs of `kernel_map_vma` after `kernel_vma_init`.

* `kernel_layout_holds`: the areas stay disjoint.
-/

namespace ZeldaOS

open Machine List

/-! ## The invariant -/

/-- No two areas overlap or reach into the user range, and an address is in one slot at most. -/
structure VmaLayout (s : KernelMemory) : Prop where
  disjoint : VmaDisjoint s.vmas
  below : ∀ v ∈ s.vmas, v.present = true → v.virtAddr.toNat + v.length.toNat ≤ userspaceBottom
  unique : ∀ (addr : UInt32) (i j : ℕ) (v w : VmaSlot), s.vmas[i]? = some v → s.vmas[j]? = some w → v.Covers addr →
    w.Covers addr → i = j

/-- A free slot becomes the area at `virtAddr`, of which no address was in an area. -/
def Enters (s s' : KernelMemory) (virtAddr length : UInt32) : Prop :=
  ∃ target old slot, s.vmas[target]? = some old ∧ old.present = false ∧
    s' = ⟨s.vmas.set target slot, s.frames⟩ ∧ slot.present = true ∧ slot.virtAddr = virtAddr ∧ slot.length = length ∧
    ∀ v ∈ s.vmas, v.present = true → ¬Overlap v.toKernelVma slot.toKernelVma

def mapVmaStep (p : PhysicalMemory) (kernelPageDirectory : ℕ) (s : KernelMemory) (args : MapVmaArgs) :
    Except Fault KernelMemory :=
  (kernelMapVma p kernelPageDirectory s args).map Prod.fst

def KernelVma.stop (v : KernelVma) : ℕ := v.virtAddr.toNat + v.length.toNat

def VmaApart (v w : VmaSlot) : Prop := v.stop ≤ w.virtAddr.toNat ∨ w.stop ≤ v.virtAddr.toNat

/-- The areas are at the front of the table, apart and below the user range. -/
structure LayoutInv (s : KernelMemory) (front : List VmaSlot) : Prop where
  vmas_eq : s.vmas = front ++ List.replicate (kernelVmaArrayLength - front.length) .zero
  present : ∀ v ∈ front, v.present = true
  premap : ∀ v ∈ front, v.premap = false
  apart : front.Pairwise VmaApart
  below : ∀ v ∈ front, v.stop ≤ userspaceBottom
  pos : ∀ v ∈ front, 0 < v.stop

variable {v : VmaSlot} {idx : ℕ} {length virtAddr : UInt32} {args : MapVmaArgs}

section
variable (p : PhysicalMemory) (kernelPageDirectory : ℕ) {s : KernelMemory} {front : List VmaSlot}

theorem VmaApart.not_overlap {w : VmaSlot} (h : VmaApart v w) : ¬Overlap v.toKernelVma w.toKernelVma := by
  rintro ⟨a, ⟨hva, hav⟩, hwa, haw⟩
  unfold VmaApart KernelVma.stop at h
  omega

section
variable (h : LayoutInv s front)
include h

theorem LayoutInv.mem_iff : v ∈ s.vmas ∧ v.present = true ↔ v ∈ front := by
  rw [h.vmas_eq, mem_append, mem_replicate]
  constructor
  · rintro ⟨hv | ⟨-, rfl⟩, hpresent⟩
    · exact hv
    · cases hpresent
  · exact fun hv => ⟨.inl hv, h.present v hv⟩

theorem LayoutInv.getElem_eq {i : ℕ} (hi : s.vmas[i]? = some v) (hv : v.present = true) :
    front[i]? = some v := by
  rw [h.vmas_eq] at hi
  rcases lt_or_ge i front.length with hlt | hge
  · rwa [getElem?_append_left hlt] at hi
  rw [getElem?_append_right hge] at hi
  rw [eq_of_mem_replicate (mem_of_getElem? hi)] at hv
  cases hv

theorem LayoutInv.disjoint : VmaDisjoint s.vmas := by
  intro i j v w hi hj hij hv hw hover
  obtain ⟨hi', rfl⟩ := List.getElem?_eq_some_iff.1 (h.getElem_eq hi hv)
  obtain ⟨hj', rfl⟩ := List.getElem?_eq_some_iff.1 (h.getElem_eq hj hw)
  rcases Nat.lt_or_gt_of_ne hij with hlt | hgt
  · exact (pairwise_iff_getElem.1 h.apart i j hi' hj' hlt).not_overlap hover
  · exact (pairwise_iff_getElem.1 h.apart j i hj' hi' hgt).not_overlap hover.symm

theorem LayoutInv.layout : VmaLayout s where
  disjoint := h.disjoint
  below v hv hpresent := h.below v (h.mem_iff.1 ⟨hv, hpresent⟩)
  unique addr i j v w hi hj hv hw := by
    by_contra hij
    exact h.disjoint i j v w hi hj hij hv.1 hw.1 ⟨addr.toNat, hv.contains, hw.contains⟩

theorem LayoutInv.register (vma : VmaSlot) (hroom : front.length < kernelVmaArrayLength)
    (hclear : ∀ v ∈ front, v.stop ≤ vma.virtAddr.toNat ∨ vma.stop ≤ v.virtAddr.toNat ∧ vma.virtAddr < v.virtAddr)
    (hbelow : vma.stop ≤ userspaceBottom) (hpos : 0 < vma.stop) :
    ∃ s', registerKernelVma p kernelPageDirectory s vma = .ok (s', 0) ∧
      LayoutInv s' (front ++ [vma.entered .zero]) ∧ Enters s s' vma.virtAddr vma.length := by
  have hfree : ¬∃ v ∈ s.vmas, v.Covers vma.virtAddr := by
    rintro ⟨v, hv, hc⟩
    obtain ⟨hle, hlt⟩ := hc.contains
    rcases hclear v (h.mem_iff.1 ⟨hv, hc.1⟩) with hstop | ⟨-, hstart⟩
    · exact absurd hlt (Nat.not_lt.2 hstop)
    · exact absurd hle (Nat.not_le.2 (UInt32.lt_iff_toNat_lt.1 hstart))
  have hrest : List.replicate (kernelVmaArrayLength - front.length) VmaSlot.zero =
      .zero :: List.replicate (kernelVmaArrayLength - (front.length + 1)) .zero := by
    rw [← replicate_succ]
    congr 1
    omega
  have htarget : s.vmas.findIdx? (fun v => !v.present) = some front.length := by
    rw [h.vmas_eq, hrest, findIdx?_append]
    have hnone : front.findIdx? (fun v => !v.present) = none :=
      findIdx?_eq_none_iff.2 fun v hv => by rw [h.present v hv]; rfl
    simp [hnone, findIdx?_cons, VmaSlot.zero]
  have hold : s.vmas[front.length]? = some .zero := by
    rw [h.vmas_eq, hrest, getElem?_append_right le_rfl, Nat.sub_self]
    rfl
  have hgetD : s.vmas.getD front.length .zero = .zero := by
    rw [getD_eq_getElem?_getD, hold, Option.getD_some]
  have hset : s.vmas.set front.length (vma.entered .zero) = (front ++ [vma.entered .zero]) ++
      List.replicate (kernelVmaArrayLength - (front ++ [vma.entered .zero]).length) .zero := by
    rw [h.vmas_eq, hrest, set_append_right _ _ le_rfl, Nat.sub_self, set_cons_zero, length_append,
      length_singleton, append_assoc, singleton_append]
  have hnew : ∀ v ∈ front, VmaApart v (vma.entered .zero) := fun v hv =>
    (hclear v hv).imp id fun hc => hc.1
  refine ⟨⟨s.vmas.set front.length (vma.entered .zero), s.frames⟩, ?_, ⟨hset, ?_, ?_, ?_, ?_, ?_⟩, ?_⟩
  · rw [registerKernelVma, if_neg hfree, htarget]
    simp only [hgetD]
    rfl
  · exact forall_mem_append.2 ⟨h.present, forall_mem_singleton.2 rfl⟩
  · exact forall_mem_append.2 ⟨h.premap, forall_mem_singleton.2 rfl⟩
  · refine pairwise_append.2 ⟨h.apart, pairwise_singleton _ _, fun v hv w hw => ?_⟩
    rw [mem_singleton.1 hw]
    exact hnew v hv
  · exact forall_mem_append.2 ⟨h.below, forall_mem_singleton.2 hbelow⟩
  · exact forall_mem_append.2 ⟨h.pos, forall_mem_singleton.2 hpos⟩
  · exact ⟨front.length, .zero, vma.entered .zero, hold, rfl, rfl, rfl, rfl, rfl,
      fun v hv hpresent => (hnew v (h.mem_iff.1 ⟨hv, hpresent⟩)).not_overlap⟩

end

/-! ## Free addresses -/

def Behind (idx freeStart j : ℕ) (v : VmaSlot) : Prop :=
  j ≠ idx ∧ v.present = true ∧ freeStart ≤ v.virtAddr.toNat

theorem nearestVma_spec (idx freeStart : ℕ) (slots : List VmaSlot) (j : ℕ) (nearest : Option VmaSlot) :
    (∀ n ∈ nearestVma idx freeStart slots j nearest,
      n ∈ nearest ∨ n ∈ slots ∧ n.present = true ∧ freeStart ≤ n.virtAddr.toNat) ∧
    (∀ n ∈ nearest, ∃ m ∈ nearestVma idx freeStart slots j nearest, m.virtAddr.toNat ≤ n.virtAddr.toNat) ∧
    ∀ k v, slots[k]? = some v → Behind idx freeStart (j + k) v →
      ∃ m ∈ nearestVma idx freeStart slots j nearest, m.virtAddr.toNat ≤ v.virtAddr.toNat := by
  induction slots generalizing j nearest with
  | nil => exact ⟨fun n hn => .inl hn, fun n hn => ⟨n, hn, le_rfl⟩, fun k v hk => by cases hk⟩
  | cons vma slots ih =>
    rw [nearestVma]
    split_ifs with hcloser
    · obtain ⟨hfrom, hkept, hrest⟩ := ih (j + 1) (some vma)
      obtain ⟨m, hm, hle⟩ := hkept vma rfl
      refine ⟨fun n hn => ?_, fun n hn => ⟨m, hm, ?_⟩, fun k v hk hv => ?_⟩
      · rcases hfrom n hn with hvma | ⟨hmem, hn'⟩
        · cases hvma
          exact .inr ⟨mem_cons_self, hcloser.2.1, hcloser.2.2.1⟩
        · exact .inr ⟨mem_cons_of_mem _ hmem, hn'⟩
      · exact hle.trans (UInt32.le_iff_toNat_le.1 (hcloser.2.2.2 n hn))
      cases k with
      | zero =>
        cases hk
        exact ⟨m, hm, hle⟩
      | succ k => exact hrest k v hk (by rwa [Nat.add_right_comm])
    obtain ⟨hfrom, hkept, hrest⟩ := ih (j + 1) nearest
    refine ⟨fun n hn => (hfrom n hn).imp id fun hn' => ⟨mem_cons_of_mem _ hn'.1, hn'.2⟩, hkept, fun k v hk hv => ?_⟩
    cases k with
    | zero =>
      -- the area at hand is behind the start, so that one found before is closer
      cases hk
      have hnot : ¬∀ n ∈ nearest, vma.virtAddr ≤ n.virtAddr := fun hall =>
        hcloser ⟨hv.1, hv.2.1, hv.2.2, hall⟩
      push Not at hnot
      obtain ⟨n, hn, hlt⟩ := hnot
      obtain ⟨m, hm, hle⟩ := hkept n hn
      rw [UInt32.le_iff_toNat_le] at hlt
      exact ⟨m, hm, by omega⟩
    | succ k => exact hrest k v hk (by rwa [Nat.add_right_comm])

structure Gap (front : List VmaSlot) (virtAddr length : ℕ) : Prop where
  pos : 0 < virtAddr
  below : virtAddr + length ≤ userspaceBottom
  clear : ∀ v ∈ front, v.stop ≤ virtAddr ∨ virtAddr + length < v.virtAddr.toNat

theorem LayoutInv.stop_eq (h : LayoutInv s front) (hv : v ∈ front) : (v.virtAddr + v.length).toNat = v.stop := by
  have hbelow := h.below v hv
  unfold KernelVma.stop userspaceBottom at *
  rw [UInt32.toNat_add, Nat.mod_eq_of_lt (by omega)]

theorem LayoutInv.gap (h : LayoutInv s front) (hidx : s.vmas[idx]? = some v) (hv : v.present = true) {freeEnd : ℕ}
    (length : ℕ)
    (hend : ((nearestVma idx v.stop s.vmas 0 none).map fun n => n.virtAddr.toNat).getD userspaceBottom = freeEnd) :
    v.stop ≤ freeEnd ∧ freeEnd ≤ userspaceBottom ∧ (length < freeEnd - v.stop → Gap front v.stop length) := by
  obtain ⟨hfrom, -, hclosest⟩ := nearestVma_spec idx v.stop s.vmas 0 none
  have hmem : v ∈ front := h.mem_iff.1 ⟨mem_of_getElem? hidx, hv⟩
  have hbounds : v.stop ≤ freeEnd ∧ freeEnd ≤ userspaceBottom := by
    cases hn : nearestVma idx v.stop s.vmas 0 none with
    | none =>
      rw [hn] at hend
      subst hend
      exact ⟨h.below v hmem, le_rfl⟩
    | some n =>
      rw [hn] at hend
      subst hend
      obtain hc | ⟨hslot, hpresent, hstart⟩ := hfrom n hn
      · cases hc
      have hbelow := h.below n (h.mem_iff.1 ⟨hslot, hpresent⟩)
      exact ⟨hstart, (Nat.le_add_right _ _).trans hbelow⟩
  refine ⟨hbounds.1, hbounds.2, fun hlt => ⟨h.pos v hmem, by omega, fun w hw => ?_⟩⟩
  obtain ⟨j, hj, rfl⟩ := getElem_of_mem hw
  have hslot : s.vmas[j]? = some front[j] := by
    rw [h.vmas_eq, getElem?_append_left hj, getElem?_eq_getElem hj]
  by_cases hji : j = idx
  · subst hji
    rw [hidx, Option.some.injEq] at hslot
    exact .inl (by rw [← hslot])
  by_cases hbehind : v.stop ≤ front[j].virtAddr.toNat
  · obtain ⟨m, hm, hle⟩ := hclosest j front[j] hslot ⟨by omega, h.present _ hw, hbehind⟩
    rw [Option.mem_def.1 hm] at hend
    have hmend : m.virtAddr.toNat = freeEnd := hend
    exact .inr (by omega)
  -- an area that begins before the end of `v` lies before `v`
  refine .inl ?_
  obtain ⟨hi', hiv⟩ := List.getElem?_eq_some_iff.1 (h.getElem_eq hidx hv)
  have hapart : VmaApart v front[j] ∨ VmaApart front[j] v := by
    rw [← hiv]
    rcases Nat.lt_or_gt_of_ne hji with hlt' | hgt'
    · exact .inr (pairwise_iff_getElem.1 h.apart j idx hj hi' hlt')
    · exact .inl (pairwise_iff_getElem.1 h.apart idx j hi' hj hgt')
  unfold VmaApart KernelVma.stop at *
  omega

theorem LayoutInv.freeAddressFrom (h : LayoutInv s front) (length : UInt32) (pre slots : List VmaSlot)
    (hslots : s.vmas = pre ++ slots) :
    ∃ virtAddr, ZeldaOS.freeAddressFrom s.vmas length slots pre.length = .ok virtAddr ∧
      (virtAddr = 0 ∨ Gap front virtAddr.toNat length.toNat) := by
  induction slots generalizing pre with
  | nil => exact ⟨0, rfl, .inl rfl⟩
  | cons v slots ih =>
    have hnext := ih (pre ++ [v]) (by rw [hslots, append_assoc, singleton_append])
    rw [length_append, length_singleton] at hnext
    rw [ZeldaOS.freeAddressFrom]
    by_cases hv : v.present = true
    · have hidx : s.vmas[pre.length]? = some v := by
        rw [hslots, getElem?_append_right le_rfl, Nat.sub_self]
        rfl
      have hstop := h.stop_eq (h.mem_iff.1 ⟨mem_of_getElem? hidx, hv⟩)
      obtain ⟨freeEnd, hend⟩ : ∃ e,
          ((nearestVma pre.length v.stop s.vmas 0 none).map fun n => n.virtAddr.toNat).getD userspaceBottom = e :=
        ⟨_, rfl⟩
      obtain ⟨hle, hhigh, hgap⟩ := h.gap hidx hv length.toNat hend
      have hpos := h.pos v (h.mem_iff.1 ⟨mem_of_getElem? hidx, hv⟩)
      have hend' : freeEnd ≠ 0 := by omega
      have hsub : (freeEnd + 2 ^ 64 - v.stop) % 2 ^ 64 = freeEnd - v.stop := by
        unfold userspaceBottom at hhigh
        omega
      simp only [if_pos hv, hstop, hend, ensure_of hend', hsub, bind, Except.bind]
      split_ifs with hlt
      · refine ⟨v.virtAddr + v.length, rfl, .inr ?_⟩
        rw [hstop]
        exact hgap hlt
      · exact hnext
    · rw [if_neg hv]
      exact hnext

theorem toNat_and_not_mask (n : UInt32) : (n &&& ~~~0xfff).toNat = n.toNat / 4096 * 4096 := by
  have hmask : (~~~(0xfff : UInt32)).toNat = (2 ^ 20 - 1) <<< 12 := by decide
  have hpages : n.toNat / 4096 * 4096 = n.toNat >>> 12 <<< 12 := by
    rw [Nat.shiftLeft_eq, Nat.shiftRight_eq_div_pow]
  rw [UInt32.toNat_and, hmask, hpages]
  refine Nat.eq_of_testBit_eq fun i => ?_
  rw [Nat.testBit_and, Nat.testBit_shiftLeft, Nat.testBit_shiftLeft, Nat.testBit_two_pow_sub_one,
    Nat.testBit_shiftRight]
  by_cases hi : 12 ≤ i
  · have hhigh : n.toNat.testBit i = true → i < 32 := fun hbit => by
      by_contra hc
      have hlt : n.toNat < 2 ^ i := n.toNat_lt.trans_le (Nat.pow_le_pow_right (by decide) (by omega))
      rw [Nat.testBit_lt_two_pow hlt] at hbit
      cases hbit
    have hadd : 12 + (i - 12) = i := by omega
    cases hbit : n.toNat.testBit i with
    | false => simp [hadd, hbit]
    | true =>
      have hlt := hhigh hbit
      simp [hadd, hbit, hi]
      omega
  · simp [hi]

theorem le_pageRounded (h : length ≤ 0xfffff000) : length.toNat ≤ (pageRounded length).toNat := by
  rw [UInt32.le_iff_toNat_le] at h
  change length.toNat ≤ 0xfffff000 at h
  rw [pageRounded]
  split_ifs with hmask
  · have hmod : length.toNat % 4096 ≠ 0 := fun h0 => hmask <| by
      rw [← UInt32.toNat_inj, UInt32.toNat_and]
      exact (Nat.and_two_pow_sub_one_eq_mod length.toNat 12).trans h0
    rw [UInt32.toNat_add, toNat_and_not_mask]
    change length.toNat ≤ (length.toNat / 4096 * 4096 + 4096) % 2 ^ 32
    omega
  · exact le_rfl

theorem Gap.mono {virtAddr length length' : ℕ} (h : Gap front virtAddr length') (hle : length ≤ length') :
    Gap front virtAddr length where
  pos := h.pos
  below := by have := h.below; omega
  clear v hv := (h.clear v hv).imp id fun hc => by omega

theorem freeAddressFrom_behind {vmas slots : List VmaSlot} (h : freeAddressFrom vmas length slots idx = .ok virtAddr) :
    virtAddr = 0 ∨ ∃ v ∈ slots, v.present = true ∧ virtAddr = v.virtAddr + v.length := by
  induction slots generalizing idx with
  | nil =>
    cases h
    exact .inl rfl
  | cons v slots ih =>
    have hlater : (virtAddr = 0 ∨ ∃ w ∈ slots, w.present = true ∧ virtAddr = w.virtAddr + w.length) →
        virtAddr = 0 ∨ ∃ w ∈ v :: slots, w.present = true ∧ virtAddr = w.virtAddr + w.length := by
      rintro (h0 | ⟨w, hw, hrest⟩)
      · exact .inl h0
      · exact .inr ⟨w, mem_cons_of_mem v hw, hrest⟩
    rw [freeAddressFrom] at h
    by_cases hv : v.present = true
    · rw [if_pos hv] at h
      obtain ⟨-, -, h⟩ := bind_eq_ok h
      split_ifs at h with hlt
      · cases h
        exact .inr ⟨v, mem_cons_self, hv, rfl⟩
      · exact hlater (ih h)
    · rw [if_neg hv] at h
      exact hlater (ih h)

theorem LayoutInv.mapAt (h : LayoutInv s front) (hroom : front.length < kernelVmaArrayLength)
    (hlen : args.length ≤ 0xfffff000) (hsearch : searchFreeKernelVirtualAddress s.vmas args.length = .ok virtAddr)
    (h0 : virtAddr ≠ 0) (hgap : Gap front virtAddr.toNat (pageRounded args.length).toNat) :
    ∃ s', ZeldaOS.kernelMapVma p kernelPageDirectory s args = .ok (s', virtAddr) ∧
      LayoutInv s' (front ++ [(args.vma virtAddr).entered .zero]) ∧ Enters s s' virtAddr args.length := by
  have hgap' := hgap.mono (le_pageRounded hlen)
  obtain ⟨s', hreg, hinv, henters⟩ := h.register p kernelPageDirectory (args.vma virtAddr) hroom
    (fun v hv => (hgap'.clear v hv).imp id fun hc =>
      ⟨hc.le, UInt32.lt_iff_toNat_lt.2 ((Nat.le_add_right _ _).trans_lt hc)⟩)
    hgap'.below (Nat.add_pos_left hgap'.pos _)
  refine ⟨s', ?_, hinv, henters⟩
  simp only [ZeldaOS.kernelMapVma, hsearch, bind, Except.bind, if_neg h0, hreg]
  rfl

theorem LayoutInv.kernelMapVma (h : LayoutInv s front) (hroom : front.length < kernelVmaArrayLength)
    (hlen : args.length ≤ 0xfffff000) :
    ∃ s' virtAddr front', ZeldaOS.kernelMapVma p kernelPageDirectory s args = .ok (s', virtAddr) ∧
      LayoutInv s' front' ∧ front'.length ≤ front.length + 1 ∧
      (virtAddr = 0 ∧ s' = s ∨ Enters s s' virtAddr args.length) := by
  obtain ⟨virtAddr, hsearch, hgap⟩ := h.freeAddressFrom (pageRounded args.length) [] s.vmas rfl
  have hsearch' : searchFreeKernelVirtualAddress s.vmas args.length = .ok virtAddr := hsearch
  by_cases h0 : virtAddr = 0
  · refine ⟨s, virtAddr, front, ?_, h, Nat.le_succ _, .inl ⟨h0, rfl⟩⟩
    simp only [ZeldaOS.kernelMapVma, hsearch', bind, Except.bind]
    exact if_pos h0
  · obtain ⟨s', hcall, hinv, henters⟩ := h.mapAt p kernelPageDirectory hroom hlen hsearch' h0 (hgap.resolve_left h0)
    exact ⟨s', virtAddr, _, hcall, hinv, by simp, .inr henters⟩

theorem LayoutInv.run (h : LayoutInv s front) {ops : List MapVmaArgs}
    (hroom : front.length + ops.length ≤ kernelVmaArrayLength) (hlen : ∀ args ∈ ops, args.length ≤ 0xfffff000) :
    ∃ s' front', runSteps (mapVmaStep p kernelPageDirectory) s ops = .ok s' ∧ LayoutInv s' front' ∧
      front'.length ≤ front.length + ops.length := by
  induction ops generalizing s front with
  | nil => exact ⟨s, front, rfl, h, le_rfl⟩
  | cons args ops ih =>
    rw [length_cons] at hroom ⊢
    obtain ⟨hargs, hops⟩ := forall_mem_cons.1 hlen
    obtain ⟨s1, virtAddr, front1, hcall, h1, hlen1, -⟩ := h.kernelMapVma p kernelPageDirectory (by omega) hargs
    have hstep : mapVmaStep p kernelPageDirectory s args = .ok s1 := by rw [mapVmaStep, hcall]; rfl
    obtain ⟨s', front', hrun, h', hlen'⟩ := ih h1 (by omega) hops
    refine ⟨s', front', ?_, h', by omega⟩
    rw [runSteps, hstep]
    exact hrun

/-! ## The start -/

def KernelVma.initSlot (vma : KernelVma) : VmaSlot := VmaSlot.entered ⟨vma, false⟩ .zero

theorem LayoutInv.registerAll (h : LayoutInv s front) {vmas : List KernelVma}
    (hroom : front.length + vmas.length ≤ kernelVmaArrayLength)
    (hbehind : ∀ v ∈ front, ∀ w ∈ vmas, v.stop ≤ w.virtAddr.toNat)
    (hsorted : vmas.Pairwise fun v w => v.stop ≤ w.virtAddr.toNat)
    (hbelow : ∀ v ∈ vmas, v.stop ≤ userspaceBottom) (hpos : ∀ v ∈ vmas, 0 < v.stop) :
    ∃ s', vmas.foldlM (registerInitVma p kernelPageDirectory) s = .ok s' ∧
      LayoutInv s' (front ++ vmas.map KernelVma.initSlot) := by
  induction vmas generalizing s front with
  | nil => exact ⟨s, rfl, by simpa using h⟩
  | cons vma vmas ih =>
    rw [length_cons] at hroom
    obtain ⟨hvma, hsorted'⟩ := pairwise_cons.1 hsorted
    obtain ⟨hbelow1, hbelow'⟩ := forall_mem_cons.1 hbelow
    obtain ⟨hpos1, hpos'⟩ := forall_mem_cons.1 hpos
    obtain ⟨s1, hreg, h1, -⟩ := h.register p kernelPageDirectory ⟨vma, false⟩ (by omega)
      (fun v hv => .inl (hbehind v hv vma mem_cons_self)) hbelow1 hpos1
    have hstep : registerInitVma p kernelPageDirectory s vma = .ok s1 := by
      rw [registerInitVma, hreg]
      rfl
    have hlen1 : (front ++ [VmaSlot.entered ⟨vma, false⟩ .zero]).length = front.length + 1 := by simp
    obtain ⟨s', hrun, h'⟩ := ih h1 (by omega)
      (forall_mem_append.2 ⟨fun v hv w hw => hbehind v hv w (mem_cons_of_mem _ hw),
        forall_mem_singleton.2 hvma⟩) hsorted' hbelow' hpos'
    refine ⟨s', ?_, ?_⟩
    · rw [foldlM_cons, hstep]
      exact hrun
    rw [append_assoc] at h'
    exact h'

theorem layoutInv_start (frames : FrameState) {sysMemStart : UInt32}
    (hlow : 0x100000 ≤ sysMemStart) (hhigh : sysMemStart ≤ 0x4000000) :
    ∃ s, kernelVmaStart p kernelPageDirectory frames sysMemStart = .ok s ∧
      LayoutInv s ((kernelVmaInit sysMemStart).map KernelVma.initSlot) := by
  have hempty : LayoutInv ⟨List.replicate kernelVmaArrayLength .zero, frames⟩ [] :=
    ⟨rfl, forall_mem_nil _, forall_mem_nil _, .nil, forall_mem_nil _, forall_mem_nil _⟩
  have himage : 0x100000 + (sysMemStart - 0x100000).toNat = sysMemStart.toNat := by
    rw [UInt32.toNat_sub_of_le _ _ hlow]
    exact Nat.add_sub_of_le (UInt32.le_iff_toNat_le.1 hlow)
  have hlow' : 0x100000 ≤ sysMemStart.toNat := UInt32.le_iff_toNat_le.1 hlow
  have hhigh' : sysMemStart.toNat ≤ 0x4000000 := UInt32.le_iff_toNat_le.1 hhigh
  refine hempty.registerAll p kernelPageDirectory (show 0 + 4 ≤ 1024 by decide) (forall_mem_nil _) ?_ ?_ ?_
  all_goals simp only [kernelVmaInit, pairwise_cons, forall_mem_cons, KernelVma.stop]
  · simp
    omega
  · simp [userspaceBottom]
    omega
  · simp

end

/-- **The areas of the kernel stay disjoint.** -/
theorem kernel_layout_holds (p : PhysicalMemory) (kernelPageDirectory : ℕ) (frames : FrameState) (sysMemStart : UInt32)
    (hlow : 0x100000 ≤ sysMemStart) (hhigh : sysMemStart ≤ 0x4000000) (ops : List MapVmaArgs)
    (hcount : ops.length ≤ 1000) (hlen : ∀ args ∈ ops, args.length ≤ 0xfffff000) :
    ∃ s₀ s, kernelVmaStart p kernelPageDirectory frames sysMemStart = .ok s₀ ∧
      runSteps (mapVmaStep p kernelPageDirectory) s₀ ops = .ok s ∧ VmaLayout s ∧
      (ops.length < 1000 → ∀ args : MapVmaArgs, args.length ≤ 0xfffff000 →
        ∃ s' virtAddr, kernelMapVma p kernelPageDirectory s args = .ok (s', virtAddr) ∧
          (virtAddr = 0 ∧ s' = s ∨ Enters s s' virtAddr args.length)) := by
  obtain ⟨s₀, hstart, h0⟩ := layoutInv_start p kernelPageDirectory frames hlow hhigh
  obtain ⟨s, front, hrun, h, hlen'⟩ := h0.run p kernelPageDirectory (show 4 + ops.length ≤ 1024 by omega) hlen
  change front.length ≤ 4 + ops.length at hlen'
  refine ⟨s₀, s, hstart, hrun, h.layout, fun _ args hargs => ?_⟩
  obtain ⟨s', virtAddr, -, hcall, -, -, hret⟩ := h.kernelMapVma p kernelPageDirectory
    (show front.length < 1024 by omega) hargs
  exact ⟨s', virtAddr, hcall, hret⟩

theorem kernel_layout_holds_small : ∃ s₀ s, kernelVmaStart smallMemory 0x4000000 bareFrames 0x101000 = .ok s₀ ∧
      runSteps (mapVmaStep smallMemory 0x4000000) s₀
        [⟨1, 1, 0x400000, 0x1800, 1, 0, 0⟩, ⟨1, 0, 0x500000, 0x3ffff000, 1, 0, 0⟩] = .ok s ∧ VmaLayout s := by
  obtain ⟨s₀, s, hstart, hrun, hlayout, -⟩ := kernel_layout_holds smallMemory 0x4000000 bareFrames 0x101000 (by decide)
    (by decide) [⟨1, 1, 0x400000, 0x1800, 1, 0, 0⟩, ⟨1, 0, 0x500000, 0x3ffff000, 1, 0, 0⟩] (by decide) (by decide)
  exact ⟨s₀, s, hstart, hrun, hlayout⟩

end ZeldaOS
