import ZeldaOS.Paging.Area

/-!
# Ownership of frames

Which page of which task is mapped to a frame that `get_page` handed out, apart from how the tables say so.

* `Owns.map` and `Owns.unmap`: a page gets or loses its frame.
-/

namespace ZeldaOS

open Machine Function

/-! ## Areas -/

def VmArea.Covers (vma : VmArea) (page : ℕ) : Prop :=
  vma.virtAddr ≤ page * 4096 ∧ page * 4096 < vma.virtAddr + vma.length

def VmArea.Disjoint (a b : VmArea) : Prop :=
  a.virtAddr + a.length ≤ b.virtAddr ∨ b.virtAddr + b.length ≤ a.virtAddr

instance VmArea.symm_disjoint : Std.Symm VmArea.Disjoint := ⟨fun _ _ => Or.symm⟩

structure Areas (p : PhysicalMemory) (vmas : List VmArea) : Prop where
  virtAddr : ∀ vma ∈ vmas, 4096 ∣ vma.virtAddr
  phyAddr : ∀ vma ∈ vmas, 4096 ∣ vma.phyAddr
  length : ∀ vma ∈ vmas, 4096 ∣ vma.length
  linear : ∀ vma ∈ vmas, vma.virtAddr + vma.length ≤ 2 ^ 32
  disjoint : vmas.Pairwise VmArea.Disjoint
  device : ∀ vma ∈ vmas, vma.isExact = true → ∀ page, vma.Covers page → ¬IsFrame p (vma.exactAddr (page * 4096))

variable {p : PhysicalMemory} {vma : VmArea} {page addr : ℕ}

section
variable {vmas : List VmArea}

theorem Areas.unique (h : Areas p vmas) {vma' : VmArea} (hv : vma ∈ vmas) (hv' : vma' ∈ vmas) (hc : vma.Covers page)
    (hc' : vma'.Covers page) : vma = vma' := by
  by_contra hne
  have hd : vma.virtAddr + vma.length ≤ vma'.virtAddr ∨ vma'.virtAddr + vma'.length ≤ vma.virtAddr :=
    h.disjoint.forall hv hv' hne
  have := hc.1
  have := hc.2
  have := hc'.1
  have := hc'.2
  omega

theorem Areas.covers (h : Areas p vmas) (hv : vma ∈ vmas) (hlo : vma.virtAddr ≤ addr)
    (hhi : addr < vma.virtAddr + vma.length) : vma.Covers (addr / 4096) := by
  obtain ⟨a, ha⟩ := h.virtAddr vma hv
  constructor <;> omega

theorem Areas.search (h : Areas p vmas) {virt : UInt32} (hs : searchUserspaceVmaByAddr vmas virt.toNat = some vma) :
    vma ∈ vmas ∧ vma.Covers (pageOf virt) := by
  have hv := List.mem_of_find?_eq_some hs
  have hp := List.find?_some hs
  have hlin := h.linear vma hv
  rw [Bool.and_eq_true, decide_eq_true_iff, decide_eq_true_iff, Nat.mod_eq_of_lt (by omega)] at hp
  exact ⟨hv, h.covers hv hp.1 hp.2⟩

theorem VmArea.exactAddr_lt (vma : VmArea) (addr : ℕ) : vma.exactAddr addr < 2 ^ 32 :=
  Nat.mod_lt _ (by decide)

theorem Areas.exactAddr_page (h : Areas p vmas) (hv : vma ∈ vmas) (hlo : vma.virtAddr ≤ addr) :
    vma.exactAddr addr / 4096 * 4096 = vma.exactAddr (addr / 4096 * 4096) := by
  obtain ⟨a, ha⟩ := h.virtAddr vma hv
  obtain ⟨c, hc⟩ := h.phyAddr vma hv
  unfold VmArea.exactAddr
  omega

end

variable {τ : Type}

/-! ## Owners -/

/-- The frames handed out are different occupied frames, each mapped by one page of its task, and a page is mapped to
such a frame or to the exact memory behind it. -/
structure Owns (p : PhysicalMemory) (vmas : τ → List VmArea) (L : τ → ℕ → Option ℕ) (bitmap : Bitmap)
    (handed : τ → List ℕ) : Prop where
  nodup : ∀ t, (handed t).Nodup
  frame : ∀ t, ∀ f ∈ handed t, IsFrame p f ∧ isPageFree bitmap f = false
  apart : ∀ t t' f, f ∈ handed t → f ∈ handed t' → t = t'
  owner : ∀ t, ∀ f ∈ handed t, ∃ page < 2 ^ 20, L t page = some f
  once : ∀ t, ∀ f ∈ handed t, ∀ page < 2 ^ 20, ∀ page' < 2 ^ 20, L t page = some f → L t page' = some f → page = page'
  mapped : ∀ t, ∀ page < 2 ^ 20, ∀ f, L t page = some f → ∃ vma ∈ vmas t, vma.Covers page ∧
    if vma.isExact then f = vma.exactAddr (page * 4096) else f ∈ handed t

section
variable {vmas : τ → List VmArea} {L L' : τ → ℕ → Option ℕ} {bitmap : Bitmap} {handed : τ → List ℕ} {t : τ} {f : ℕ}

theorem lookup_changed (hother : ∀ t', ∀ page' < 2 ^ 20, t' ≠ t ∨ page' ≠ page → L' t' page' = L t' page') {t' : τ}
    {page' : ℕ} (hpage' : page' < 2 ^ 20) (hl : L' t' page' = some f) :
    (t' = t ∧ page' = page) ∨ ¬(t' = t ∧ page' = page) ∧ L t' page' = some f := by
  by_cases hp : t' = t ∧ page' = page
  · exact .inl hp
  rw [hother t' page' hpage' (not_and_or.1 hp)] at hl
  exact .inr ⟨hp, hl⟩

theorem mem_update_cons [DecidableEq τ] {handed : τ → List ℕ} {t' : τ} {g : ℕ} :
    g ∈ update handed t (f :: handed t) t' ↔ t' = t ∧ g = f ∨ g ∈ handed t' := by
  by_cases ht : t' = t
  · rw [ht, update_self, List.mem_cons]
    simp
  · simp [ht]

variable (h : Owns p vmas L bitmap handed)
include h

theorem Owns.congr {bitmap' : Bitmap} (hL : ∀ t, ∀ page < 2 ^ 20, L' t page = L t page)
    (hb : ∀ f, isPageFree bitmap f = false → isPageFree bitmap' f = false) : Owns p vmas L' bitmap' handed where
  nodup := h.nodup
  frame t f hf := ⟨(h.frame t f hf).1, hb f (h.frame t f hf).2⟩
  apart := h.apart
  owner t f hf := by
    obtain ⟨page, hpage, hl⟩ := h.owner t f hf
    exact ⟨page, hpage, (hL t page hpage).trans hl⟩
  once t f hf page hpage page' hpage' hl hl' :=
    h.once t f hf page hpage page' hpage' (hL t page hpage ▸ hl) (hL t page' hpage' ▸ hl')
  mapped t page hpage f hl := h.mapped t page hpage f (hL t page hpage ▸ hl)

theorem Owns.handed_of_mapped (ha : Areas p (vmas t)) (hpage : page < 2 ^ 20) (hl : L t page = some f)
    (hv : vma ∈ vmas t) (hc : vma.Covers page)
    (hx : vma.isExact = false) : f ∈ handed t := by
  obtain ⟨vma', hv', hc', hf⟩ := h.mapped t page hpage f hl
  rw [← ha.unique hv hv' hc hc', hx] at hf
  exact hf

theorem Owns.not_frame_of_exact (ha : Areas p (vmas t)) (hpage : page < 2 ^ 20) (hl : L t page = some f)
    (hv : vma ∈ vmas t) (hc : vma.Covers page)
    (hx : vma.isExact = true) : f = vma.exactAddr (page * 4096) ∧ ¬IsFrame p f := by
  obtain ⟨vma', hv', hc', hf⟩ := h.mapped t page hpage f hl
  rw [← ha.unique hv hv' hc hc', hx] at hf
  exact ⟨hf, hf ▸ ha.device vma hv hx page hc⟩

theorem Owns.handed_of_frame (ha : ∀ t, Areas p (vmas t)) (hpage : page < 2 ^ 20)
    (hl : L t page = some f) (hf : IsFrame p f) : f ∈ handed t := by
  obtain ⟨vma, hv, hc, hm⟩ := h.mapped t page hpage f hl
  cases hx : vma.isExact with
  | true => exact absurd hf (h.not_frame_of_exact (ha t) hpage hl hv hc hx).2
  | false => exact h.handed_of_mapped (ha t) hpage hl hv hc hx

variable (hother : ∀ t', ∀ page' < 2 ^ 20, t' ≠ t ∨ page' ≠ page → L' t' page' = L t' page')
include hother

theorem Owns.owner_kept {t' : τ} (hf : f ∈ handed t') (hne : t' = t → L t page ≠ some f) :
    ∃ page' < 2 ^ 20, L' t' page' = some f := by
  obtain ⟨page', hpage', hl⟩ := h.owner t' f hf
  refine ⟨page', hpage', (hother t' page' hpage' (not_and_or.1 ?_)).trans hl⟩
  rintro ⟨rfl, rfl⟩
  exact hne rfl hl

theorem Owns.exact (ha : ∀ t, Areas p (vmas t)) (hpage : page < 2 ^ 20)
    (hv : vma ∈ vmas t) (hc : vma.Covers page) (hx : vma.isExact = true)
    (hself : ∀ f, L' t page = some f → f = vma.exactAddr (page * 4096)) : Owns p vmas L' bitmap handed := by
  -- a handed frame is mapped elsewhere, before and after
  have hback {t' : τ} {page' f : ℕ} (hpage' : page' < 2 ^ 20) (hf : f ∈ handed t')
      (hl : L' t' page' = some f) : L t' page' = some f := by
    rcases lookup_changed hother hpage' hl with ⟨rfl, rfl⟩ | ⟨-, hl⟩
    · rw [hself f hl] at hf
      exact absurd (h.frame t' _ hf).1 ((ha t').device vma hv hx page' hc)
    · exact hl
  refine ⟨h.nodup, h.frame, h.apart, fun t' f hf => h.owner_kept hother hf ?_,
    fun t' f hf p1 h1 p2 h2 hl1 hl2 => ?_, fun t' page' hpage' f hl => ?_⟩
  · rintro rfl hl
    exact (h.not_frame_of_exact (ha t') hpage hl hv hc hx).2 (h.frame t' f hf).1
  · exact h.once t' f hf p1 h1 p2 h2 (hback h1 hf hl1) (hback h2 hf hl2)
  rcases lookup_changed hother hpage' hl with ⟨rfl, rfl⟩ | ⟨-, hl⟩
  · exact ⟨vma, hv, hc, by rw [if_pos hx, hself f hl]⟩
  · exact h.mapped t' page' hpage' f hl

theorem Owns.map [DecidableEq τ] (ha : ∀ t, Areas p (vmas t)) (hpage : page < 2 ^ 20) (hv : vma ∈ vmas t)
    (hc : vma.Covers page) (hx : vma.isExact = false) (hnone : L t page = none) (hf : IsFrame p f)
    (hfree : isPageFree bitmap f = true) (hself : L' t page = some f) :
    Owns p vmas L' (bitmap.set (f >>> 12)) (update handed t (f :: handed t)) := by
  have hnew (t' : τ) : f ∉ handed t' := fun hm => by
    have := (h.frame t' f hm).2
    rw [hfree] at this
    cases this
  have hL {t' : τ} {page' g : ℕ} (hpage' : page' < 2 ^ 20) (hl : L' t' page' = some g) :
      t' = t ∧ page' = page ∧ g = f ∨ L t' page' = some g ∧ g ≠ f := by
    rcases lookup_changed hother hpage' hl with ⟨rfl, rfl⟩ | ⟨-, hl⟩
    · rw [hself] at hl
      exact .inl ⟨rfl, rfl, (Option.some.inj hl).symm⟩
    refine .inr ⟨hl, ?_⟩
    rintro rfl
    exact hnew t' (h.handed_of_frame ha hpage' hl hf)
  refine ⟨fun t' => ?_, fun t' g hg => ?_, fun t1 t2 g h1 h2 => ?_, fun t' g hg => ?_,
    fun t' g hg p1 h1 p2 h2 hl1 hl2 => ?_, fun t' page' hpage' g hl => ?_⟩
  · by_cases ht : t' = t
    · rw [ht, update_self]
      exact List.nodup_cons.2 ⟨hnew t, h.nodup t⟩
    rw [update_of_ne ht]
    exact h.nodup t'
  · have hset : isPageFree (bitmap.set (f >>> 12)) g = !(decide (g >>> 12 = f >>> 12) || bitmap.test (g >>> 12)) := by
      rw [isPageFree, Bitmap.test_set]
      split_ifs with hs <;> simp [hs]
    rcases mem_update_cons.1 hg with ⟨-, rfl⟩ | hg
    · exact ⟨hf, by simp [hset]⟩
    have hold := (h.frame t' g hg).2
    rw [isPageFree, Bool.not_eq_false'] at hold
    exact ⟨(h.frame t' g hg).1, by simp [hset, hold]⟩
  · rcases mem_update_cons.1 h1 with ⟨ht1, hg1⟩ | h1 <;>
      rcases mem_update_cons.1 h2 with ⟨ht2, hg2⟩ | h2
    · rw [ht1, ht2]
    · exact absurd (hg1 ▸ h2) (hnew t2)
    · exact absurd (hg2 ▸ h1) (hnew t1)
    · exact h.apart t1 t2 g h1 h2
  · rcases mem_update_cons.1 hg with ⟨rfl, rfl⟩ | hg
    · exact ⟨page, hpage, hself⟩
    · exact h.owner_kept hother hg fun _ => hnone ▸ (Option.some_ne_none g).symm
  · rcases hL h1 hl1 with ⟨-, hp1, hg1⟩ | ⟨hl1, hg1⟩ <;> rcases hL h2 hl2 with ⟨-, hp2, hg2⟩ | ⟨hl2, hg2⟩
    · rw [hp1, hp2]
    · exact absurd hg1 hg2
    · exact absurd hg2 hg1
    refine h.once t' g ?_ p1 h1 p2 h2 hl1 hl2
    exact (mem_update_cons.1 hg).resolve_left fun hc => hg1 hc.2
  rcases hL hpage' hl with ⟨rfl, rfl, rfl⟩ | ⟨hl, -⟩
  · refine ⟨vma, hv, hc, ?_⟩
    rw [hx, if_neg (by decide), update_self]
    exact List.mem_cons_self
  obtain ⟨vma', hv', hc', hm⟩ := h.mapped t' page' hpage' g hl
  refine ⟨vma', hv', hc', ?_⟩
  split_ifs at hm ⊢ with hx'
  · exact hm
  · exact mem_update_cons.2 (.inr hm)

theorem Owns.unmap [DecidableEq τ] (hpage : page < 2 ^ 20) (hl : L t page = some f)
    (hf : f ∈ handed t) (hself : L' t page = none) :
    Owns p vmas L' (freePage bitmap f) (update handed t ((handed t).erase f)) := by
  have hmem {t' : τ} {g : ℕ} : g ∈ update handed t ((handed t).erase f) t' ↔ g ∈ handed t' ∧ g ≠ f := by
    by_cases ht : t' = t
    · rw [ht, update_self, (h.nodup t).mem_erase_iff]
      exact and_comm
    rw [update_of_ne ht]
    refine ⟨fun hg => ⟨hg, ?_⟩, And.left⟩
    rintro rfl
    exact ht (h.apart t' t g hg hf)
  have hback {t' : τ} {page' g : ℕ} (hpage' : page' < 2 ^ 20) (hl' : L' t' page' = some g) :
      ¬(t' = t ∧ page' = page) ∧ L t' page' = some g := by
    rcases lookup_changed hother hpage' hl' with ⟨rfl, rfl⟩ | hkept
    · rw [hself] at hl'
      cases hl'
    · exact hkept
  refine ⟨fun t' => ?_, fun t' g hg => ?_, fun t1 t2 g h1 h2 => ?_, fun t' g hg => ?_,
    fun t' g hg p1 h1 p2 h2 hl1 hl2 => ?_, fun t' page' hpage' g hl' => ?_⟩
  · by_cases ht : t' = t
    · rw [ht, update_self]
      exact (h.nodup t).erase f
    rw [update_of_ne ht]
    exact h.nodup t'
  · obtain ⟨hg, hne⟩ := hmem.1 hg
    obtain ⟨hframe, hocc⟩ := h.frame t' g hg
    refine ⟨hframe, ?_⟩
    have hoff : g >>> 12 ≠ f >>> 12 := fun he =>
      hne ((shiftRight_inj hframe.aligned (h.frame t f hf).1.aligned).1 he)
    rw [isPageFree, freePage, Bitmap.test_clear, if_neg hoff]
    exact hocc
  · exact h.apart t1 t2 g (hmem.1 h1).1 (hmem.1 h2).1
  · obtain ⟨hg, hne⟩ := hmem.1 hg
    exact h.owner_kept hother hg fun _ he => hne (Option.some.inj (hl.symm.trans he)).symm
  · exact h.once t' g (hmem.1 hg).1 p1 h1 p2 h2 (hback h1 hl1).2 (hback h2 hl2).2
  obtain ⟨hp, hl0⟩ := hback hpage' hl'
  obtain ⟨vma', hv', hc', hm⟩ := h.mapped t' page' hpage' g hl0
  refine ⟨vma', hv', hc', ?_⟩
  split_ifs at hm ⊢ with hx'
  · exact hm
  refine hmem.2 ⟨hm, ?_⟩
  rintro rfl
  obtain rfl := h.apart t' t g hm hf
  exact hp ⟨rfl, h.once t' g hm page' hpage' page hpage hl0 hl⟩

end

end ZeldaOS
