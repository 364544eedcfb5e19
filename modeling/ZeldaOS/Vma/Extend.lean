import ZeldaOS.Machine.Runs
import ZeldaOS.Vma.Model

/-!
# Areas stay apart

What `extend_vm_area` keeps of the places of the areas.

* `areas_stay_apart`: extensions in bounds keep the areas apart.
-/

namespace ZeldaOS

open Machine List

/-! ## One extension -/

def VmArea.Holds (vma : VmArea) (x : ℕ) : Prop := vma.virtAddr ≤ x ∧ x < vma.virtAddr + vma.length

structure WellPlaced (vmas : List UserVma) : Prop where
  inRange : ∀ vma ∈ vmas, vma.virtAddr + vma.length < 2 ^ 64
  apart : ∀ (i j : ℕ) (a b : UserVma), i ≠ j → vmas[i]? = some a → vmas[j]? = some b → ∀ x, ¬(a.Holds x ∧ b.Holds x)

/-- The new bounds are in order and fit in 64 bits, and no other area lies between them. -/
def Extendable (vmas : List UserVma) (target : ℕ) (direction : ExtendDirection) (length : ℤ) : Prop :=
  ∀ vma ∈ vmas[target]?,
    (0 ≤ vma.extendedStart length direction ∧ vma.extendedStart length direction ≤ vma.extendedEnd length direction ∧
      vma.extendedEnd length direction < 2 ^ 64) ∧
    ∀ other ∈ vmas.eraseIdx target, 0 < other.length → ¬(vma.extendedStart length direction ≤ other.virtAddr ∧
        other.virtAddr + other.length ≤ vma.extendedEnd length direction)

instance decidableExtendable (vmas : List UserVma) (target : ℕ) (direction : ExtendDirection) (length : ℤ) :
    Decidable (Extendable vmas target direction length) :=
  match h : vmas[target]? with
  | none => .isTrue fun vma hvma => by rw [h] at hvma; cases hvma
  | some vma => decidable_of_iff
      ((0 ≤ vma.extendedStart length direction ∧ vma.extendedStart length direction ≤ vma.extendedEnd length direction ∧
        vma.extendedEnd length direction < 2 ^ 64) ∧
      ∀ other ∈ vmas.eraseIdx target, 0 < other.length → ¬(vma.extendedStart length direction ≤ other.virtAddr ∧
          other.virtAddr + other.length ≤ vma.extendedEnd length direction)) (by
      rw [Extendable, h]
      simp)

variable {vmas : List UserVma} {target : ℕ} {direction : ExtendDirection} {length : ℤ}

section
variable {vma : UserVma}

theorem u64_of_range {z : ℤ} (h0 : 0 ≤ z) (h : z < 2 ^ 64) : (u64 z : ℤ) = z := by
  unfold u64
  omega

theorem extendVmArea_failed (h : (extendVmArea vmas target direction length).2 ≠ 0) :
    (extendVmArea vmas target direction length).1 = vmas := by
  rw [extendVmArea] at h ⊢
  cases hv : vmas[target]? with
  | none => rfl
  | some vma =>
    rw [hv] at h
    dsimp only at h ⊢
    split_ifs at h ⊢
    · rfl
    · exact absurd rfl h

theorem extended_bounds (hstart : 0 ≤ vma.extendedStart length direction)
    (hle : vma.extendedStart length direction ≤ vma.extendedEnd length direction)
    (hend : vma.extendedEnd length direction < 2 ^ 64) :
    ((__extendVmArea vma direction length).virtAddr : ℤ) = vma.extendedStart length direction ∧
      ((__extendVmArea vma direction length).virtAddr +
        (__extendVmArea vma direction length).length : ℤ) = vma.extendedEnd length direction ∧
      ((__extendVmArea vma direction length).length : ℤ) = vma.length + length := by
  cases direction with
  | upward =>
    simp only [VmArea.extendedStart, VmArea.extendedEnd] at hstart hle hend
    have hlength := u64_of_range (z := vma.length + length) (by omega) (by omega)
    refine ⟨rfl, ?_, hlength⟩
    change (vma.virtAddr + u64 (vma.length + length) : ℤ) = vma.virtAddr + vma.length + length
    omega
  | downward =>
    simp only [VmArea.extendedStart, VmArea.extendedEnd] at hstart hle hend
    have hlength := u64_of_range (z := vma.length + length) (by omega) (by omega)
    have hvirt := u64_of_range hstart (by omega)
    refine ⟨hvirt, ?_, hlength⟩
    change (u64 (vma.virtAddr - length) + u64 (vma.length + length) : ℤ) = vma.virtAddr + vma.length
    omega

theorem outside_of_not_conflicts {a : VmArea} {s e : ℕ} (ha : a.virtAddr + a.length < 2 ^ 64)
    (htest : a.conflicts s e = false) (hbetween : 0 < a.length → ¬(s ≤ a.virtAddr ∧ a.virtAddr + a.length ≤ e))
    {x : ℕ} (hx : a.Holds x) : ¬(s ≤ x ∧ x < e) := by
  rw [VmArea.conflicts, Nat.mod_eq_of_lt ha] at htest
  simp only [Bool.or_eq_false_iff, decide_eq_false_iff_not] at htest
  obtain ⟨hx1, hx2⟩ := hx
  have hpos : 0 < a.length := by omega
  omega

theorem extendVmArea_extended (hw : WellPlaced vmas) (ht : vmas[target]? = some vma)
    (hc : Extendable vmas target direction length) (hr : (extendVmArea vmas target direction length).2 = 0) :
    WellPlaced (extendVmArea vmas target direction length).1 ∧
      ∃ vma', (extendVmArea vmas target direction length).1[target]? = some vma' ∧
        (vma'.length : ℤ) = vma.length + length ∧ (0 ≤ length → ∀ x, vma.Holds x → vma'.Holds x) := by
  obtain ⟨⟨hstart, hle, hend⟩, hothers⟩ := hc vma ht
  obtain ⟨hb1, hb2, hb3⟩ := extended_bounds hstart hle hend
  have hlt : target < vmas.length := (List.getElem?_eq_some_iff.1 ht).1
  rw [extendVmArea, ht] at hr ⊢
  dsimp only at hr ⊢
  split_ifs at hr ⊢ with hany
  · exact absurd hr (by decide : -errInvalidArg ≠ 0)
  set vma' := __extendVmArea vma direction length with hvma'
  simp only [Bool.not_eq_true, any_eq_false] at hany
  have hset : ∀ j, (vmas.set target vma')[j]? = if j = target then some vma' else vmas[j]? := by
    intro j
    by_cases hj : target = j
    · subst hj
      simp [hlt]
    · simp [hj, Ne.symm hj]
  -- no other area holds an address between the new bounds
  have hnew : ∀ j b, j ≠ target → vmas[j]? = some b → ∀ x, ¬(vma'.Holds x ∧ b.Holds x) := by
    rintro j b hj hb x ⟨hx, hbx⟩
    have hmem : b ∈ vmas.eraseIdx target := mem_eraseIdx_iff_getElem?.2 ⟨j, hj, hb⟩
    have hconflict := hany b hmem
    have h1 : u64 (vma.extendedStart length direction) = vma'.virtAddr := by
      have := u64_of_range hstart (by omega)
      omega
    have h2 : u64 (vma.extendedEnd length direction) = vma'.virtAddr + vma'.length := by
      have := u64_of_range (by omega) hend
      omega
    rw [h1, h2] at hconflict
    refine outside_of_not_conflicts (hw.inRange b (mem_of_getElem? hb)) hconflict (fun hpos => ?_) hbx hx
    have := hothers b hmem hpos
    omega
  refine ⟨⟨fun a ha => ?_, fun i j a b hij ha hb x hx => ?_⟩, vma', ?_, hb3, fun hlen x hx => ?_⟩
  · rcases mem_or_eq_of_mem_set ha with ha | rfl
    · exact hw.inRange a ha
    · omega
  · rw [hset] at ha hb
    split_ifs at ha hb with hi hj hj
    · exact hij (hi.trans hj.symm)
    · cases ha
      exact hnew j b hj hb x hx
    · cases hb
      exact hnew i a hi ha x hx.symm
    · exact hw.apart i j a b hij ha hb x hx
  · rw [hset, if_pos rfl]
  obtain ⟨hx1, hx2⟩ := hx
  cases direction with
  | upward =>
    simp only [VmArea.extendedStart, VmArea.extendedEnd] at hb1 hb2
    exact ⟨by omega, by omega⟩
  | downward =>
    simp only [VmArea.extendedStart, VmArea.extendedEnd] at hb1 hb2
    exact ⟨by omega, by omega⟩

end

/-! ## Runs -/

inductive VmaOp where
  | extend (target : ℕ) (direction : ExtendDirection) (length : ℤ)
  | sbrk (increment : ℤ)

def VmaOp.step (vmas : List UserVma) : VmaOp → Except Fault (List UserVma)
  | .extend target direction length => .ok (extendVmArea vmas target direction length).1
  | .sbrk increment => .ok (callSysSbrk vmas increment).1

/-- The extension stays in bounds and does not reach around another area. -/
def VmaOp.Safe (vmas : List UserVma) : VmaOp → Prop
  | .extend target direction length => Extendable vmas target direction length
  | .sbrk increment => ∀ target ∈ searchUserspaceVma vmas .heap, Extendable vmas target .upward increment

instance decidableVmaSafe (vmas : List UserVma) : (op : VmaOp) → Decidable (op.Safe vmas)
  | .extend target direction length => decidableExtendable vmas target direction length
  | .sbrk increment =>
    match h : searchUserspaceVma vmas .heap with
    | none => .isTrue fun target ht => by rw [h] at ht; cases ht
    | some target => decidable_of_iff (Extendable vmas target .upward increment) (by
        rw [VmaOp.Safe, h]
        simp)

theorem callSysSbrk_eq (vmas : List UserVma) (increment : ℤ) :
    (callSysSbrk vmas increment).1 = vmas ∨ ∃ target, searchUserspaceVma vmas .heap = some target ∧
      (callSysSbrk vmas increment).1 = (extendVmArea vmas target .upward increment).1 := by
  rw [callSysSbrk]
  cases h : searchUserspaceVma vmas .heap with
  | none => exact .inl rfl
  | some target => exact .inr ⟨target, rfl, rfl⟩

theorem WellPlaced.extend (hw : WellPlaced vmas) (hc : Extendable vmas target direction length) :
    WellPlaced (extendVmArea vmas target direction length).1 := by
  by_cases hr : (extendVmArea vmas target direction length).2 = 0
  · cases hv : vmas[target]? with
    | none =>
      rw [extendVmArea, hv] at hr
      exact absurd hr (by decide : -errInvalidArg ≠ 0)
    | some vma => exact (extendVmArea_extended hw hv hc hr).1
  · rw [extendVmArea_failed hr]
    exact hw

theorem WellPlaced.step (op : VmaOp) (hw : WellPlaced vmas) (hc : op.Safe vmas) :
    ∃ vmas', op.step vmas = .ok vmas' ∧ WellPlaced vmas' := by
  cases op with
  | extend target direction length => exact ⟨_, rfl, hw.extend hc⟩
  | sbrk increment =>
    refine ⟨_, rfl, ?_⟩
    rcases callSysSbrk_eq vmas increment with h | ⟨target, ht, h⟩
    · rw [h]
      exact hw
    rw [h]
    exact hw.extend (hc target ht)

/-- **In every run whose extensions stay in bounds and reach around no area, the areas stay apart.** -/
theorem areas_stay_apart (vmas : List UserVma) (ops : List VmaOp) (hw : WellPlaced vmas)
    (hsafe : Along (fun vmas op => VmaOp.step vmas op) (fun vmas op => op.Safe vmas) vmas ops) :
    ∃ vmas', runSteps (fun vmas op => VmaOp.step vmas op) vmas ops = .ok vmas' ∧ WellPlaced vmas' ∧
      ∀ target direction length, ((extendVmArea vmas' target direction length).2 ≠ 0 →
          (extendVmArea vmas' target direction length).1 = vmas') ∧
        (∀ vma, vmas'[target]? = some vma → Extendable vmas' target direction length →
          (extendVmArea vmas' target direction length).2 = 0 →
          WellPlaced (extendVmArea vmas' target direction length).1 ∧
            ∃ vma', (extendVmArea vmas' target direction length).1[target]? = some vma' ∧
              (vma'.length : ℤ) = vma.length + length ∧ (0 ≤ length → ∀ x, vma.Holds x → vma'.Holds x)) := by
  obtain ⟨vmas', hrun, hw'⟩ := inv_run_total (fun vmas op hw hc => WellPlaced.step op hw hc) hw hsafe
  exact ⟨vmas', hrun, hw', fun target direction length =>
    ⟨extendVmArea_failed, fun vma ht hc hr => extendVmArea_extended hw' ht hc hr⟩⟩

theorem wellPlaced_of_sorted (hrange : ∀ vma ∈ vmas, vma.virtAddr + vma.length < 2 ^ 64)
    (hsorted : vmas.Pairwise fun a b => a.virtAddr + a.length ≤ b.virtAddr) : WellPlaced vmas := by
  refine ⟨hrange, fun i j a b hij ha hb x hx => ?_⟩
  obtain ⟨hi, rfl⟩ := List.getElem?_eq_some_iff.1 ha
  obtain ⟨hj, rfl⟩ := List.getElem?_eq_some_iff.1 hb
  obtain ⟨⟨h1, h2⟩, h3, h4⟩ := hx
  rcases Nat.lt_or_gt_of_ne hij with h | h
  · have := pairwise_iff_getElem.1 hsorted i j hi hj h
    omega
  have := pairwise_iff_getElem.1 hsorted j i hj hi h
  omega

def programAreas : List UserVma :=
  [⟨⟨0, 0, 0x40000000, false, false, false, false⟩, .kernel, true, false, false⟩,
    ⟨⟨0x40000000, 0, 0x2000, false, true, false, false⟩, .textAndData 0, false, true, true⟩,
    ⟨⟨0x40002000, 0, 0, false, true, false, false⟩, .heap, false, false, false⟩,
    ⟨⟨0x9f800000, 0, 0x800000, false, true, false, false⟩, .stack, false, true, false⟩,
    ⟨⟨0xa0000000, 0, 0x100000, false, true, false, false⟩, .signalStack, false, true, false⟩]

theorem programAreas_wellPlaced : WellPlaced programAreas :=
  wellPlaced_of_sorted (by decide) (by decide)

theorem areas_stay_apart_small :
    ∃ vmas', runSteps (fun vmas op => VmaOp.step vmas op) programAreas [.sbrk 0x3000, .sbrk (-0x1000)] =
        .ok vmas' ∧ WellPlaced vmas' := by
  obtain ⟨vmas', hrun, hw, -⟩ := areas_stay_apart programAreas [.sbrk 0x3000, .sbrk (-0x1000)]
    programAreas_wellPlaced (by decide)
  exact ⟨vmas', hrun, hw⟩

/-- One `sbrk` of 1.75 GiB is granted, and the heap then holds the whole stack. -/
theorem sbrk_covers_stack : WellPlaced programAreas ∧ (callSysSbrk programAreas 0x70000000).2 = 0x40002000 ∧
      ¬WellPlaced (callSysSbrk programAreas 0x70000000).1 := by
  refine ⟨programAreas_wellPlaced, by decide, fun hw => ?_⟩
  have hheap : (callSysSbrk programAreas 0x70000000).1[2]? =
      some ⟨⟨0x40002000, 0, 0x70000000, false, true, false, false⟩, .heap, false, false, false⟩ := by decide
  have hstack : (callSysSbrk programAreas 0x70000000).1[3]? =
      some ⟨⟨0x9f800000, 0, 0x800000, false, true, false, false⟩, .stack, false, true, false⟩ := by decide
  exact hw.apart 2 3 _ _ (by decide) hheap hstack 0x9f800000 ⟨⟨by decide, by decide⟩, by decide, by decide⟩

end ZeldaOS
