import ZeldaOS.Heap.Spec
import ZeldaOS.Timer.Model

/-!
# Timers fire when they are due

The timers of a run in which every cancellation is safe, and a run in which one is not.

* `timersFire_of_cancelsSafe`: every timer fires when it is due.
-/

namespace ZeldaOS

open Machine List Function

/-! ## The invariant -/

theorem Complete.holds_iff {h : Heap} {a : ℕ → ℕ} {n e : ℕ} (hc : Complete h a n e) {x : ℕ} :
    h.Holds x ↔ x ∈ members a := by
  constructor
  · intro hx
    induction hx with
    | root h0 => exact ⟨⟨0, hc.root.symm⟩, h0⟩
    | left _ h0 ih =>
      obtain ⟨i, hi, rfl⟩ := hc.mem_members.mp ih
      exact ⟨⟨_, (hc.left i hi).symm⟩, h0⟩
    | right _ h0 ih =>
      obtain ⟨i, hi, rfl⟩ := hc.mem_members.mp ih
      exact ⟨⟨_, (hc.right i hi).symm⟩, h0⟩
  intro hx
  obtain ⟨i, hi, rfl⟩ := hc.mem_members.mp hx
  clear hx
  induction i using Nat.strong_induction_on with
  | _ i ih =>
    by_cases h0 : i = 0
    · subst h0
      rw [← hc.root]
      exact .root (hc.root ▸ hc.ne_zero 0 hi)
    have hpos := Nat.pos_of_ne_zero h0
    have hup := up_lt hpos
    have hparent := ih (up i) hup (hup.trans hi)
    rcases (up_eq_iff hpos).mp rfl with hside | hside
    · have hl := hc.left _ (hup.trans hi)
      rw [← hside] at hl
      exact hl ▸ hparent.left (hl ▸ hc.ne_zero i hi)
    have hr := hc.right _ (hup.trans hi)
    rw [← hside] at hr
    exact hr ▸ hparent.right (hr ▸ hc.ne_zero i hi)

def expiresBefore (timeToExpire : ℕ → ℕ) (x y : ℕ) : Prop := timeToExpire x ≤ timeToExpire y

theorem orders_timerCompare (timeToExpire : ℕ → ℕ) :
    Orders (timerCompare timeToExpire) (expiresBefore timeToExpire) where
  trans _ _ _ := le_trans
  total x y := le_total (timeToExpire x) (timeToExpire y)
  lt_iff x y := by
    rw [timerCompare, expiresBefore, not_le]
    split_ifs with h1 h2 <;> simp [h1]

/-- The heap holds the pending timers in the order of their expiry. -/
structure TimerInv (s : TimerState) (p : Pending) (a : ℕ → ℕ) (n : ℕ) : Prop where
  complete : Complete s.heap a n 0
  ordered : HeapOrdered (expiresBefore s.timeToExpire) a n
  ready : ∀ t ∈ members a, s.scheduled t = true ∧ s.callback t ≠ 0
  pending : ∀ t time, p t = some time ↔ t ∈ members a ∧ s.timeToExpire t = time

section
variable {s : TimerState} {p : Pending} {a : ℕ → ℕ} {n : ℕ}

theorem TimerInv.represents (h : TimerInv s p a n) : Represents s p := fun t time => by
  rw [h.pending, h.complete.holds_iff]

theorem TimerInv.pending_none (h : TimerInv s p a n) {t : ℕ} (ht : t ∉ members a) : p t = none := by
  cases hp : p t with
  | none => rfl
  | some time => exact absurd ((h.pending t time).mp hp).1 ht

theorem TimerInv.pending_some (h : TimerInv s p a n) {t : ℕ} (ht : t ∈ members a) : p t = some (s.timeToExpire t) :=
  (h.pending t _).mpr ⟨ht, rfl⟩

/-! ## The calls -/

theorem registerTimer_spec (h : TimerInv s p a n) (time : ℕ) {t callback : ℕ} (h0 : t ≠ 0)
    (hd : s.heap.Detached t) (hcb : callback ≠ 0) :
    ∃ s' a', registerTimer { s with
          timeToExpire := update s.timeToExpire t time
          callback := update s.callback t callback } t = .ok s' ∧
      s'.calls = s.calls ∧ p t = none ∧
      TimerInv s' (update p t (some time)) a' (n + 1) := by
  have ht := h.complete.notMem_of_detached hd
  have hne : ∀ u ∈ members a, u ≠ t := fun u hu he => ht (he ▸ hu)
  obtain ⟨⟨hp, hl, hr⟩, -⟩ := hd
  have hmem : ∀ i < n, a i ∈ members a := fun i hi => h.complete.mem_members.mpr ⟨i, hi, rfl⟩
  obtain ⟨heap, a', hattach, hc', hmem', -, hord⟩ := attachHeapNode_spec
    (timerCompare (update s.timeToExpire t time)) h.complete h0 ht
  have hord' := hord _ (orders_timerCompare _) fun i hi0 hi => by
    have hup := (up_lt hi0).trans hi
    rw [expiresBefore, update_of_ne (hne _ (hmem _ hup)), update_of_ne (hne _ (hmem i hi))]
    exact h.ordered i hi0 hi
  rw [registerTimer, ensure_of hl, ensure_of hr, ensure_of hp]
  simp only [bind, Except.bind, hattach]
  refine ⟨_, a', rfl, rfl, h.pending_none ht, hc', hord', fun u hu => ?_, fun u v => ?_⟩
  · rw [hmem', Set.mem_insert_iff] at hu
    dsimp only
    rcases hu with rfl | hu
    · rw [update_self, update_self]
      exact ⟨rfl, hcb⟩
    rw [update_of_ne (hne u hu), update_of_ne (hne u hu)]
    exact h.ready u hu
  rw [hmem', Set.mem_insert_iff]
  by_cases hut : u = t
  · rw [hut, update_self]
    simp
  dsimp only
  rw [update_of_ne hut, update_of_ne hut, h.pending]
  simp [hut]

theorem cancelTimer_spec (h : TimerInv s p a n) {t : ℕ} (h0 : t ≠ 0) (hsafe : (TimerOp.cancel t).Safe s) :
    ∃ s' a' n', cancelTimer s t = .ok s' ∧ s'.calls = s.calls ∧ TimerInv s' (update p t none) a' n' := by
  -- in both cases the heap is left without the timer
  obtain ⟨heap, a', n', hdel, hc', hmem', hord⟩ : ∃ heap a' n',
      deleteHeapNode (timerCompare s.timeToExpire) s.heap t = .ok heap ∧ Complete heap a' n' 0 ∧
      members a' = members a \ {t} ∧ HeapOrdered (expiresBefore s.timeToExpire) a' n' := by
    by_cases ht : t ∈ members a
    · obtain ⟨i, hi, rfl⟩ := h.complete.mem_members.mp ht
      obtain ⟨m, rfl⟩ : ∃ m, n = m + 1 := ⟨n - 1, by omega⟩
      obtain ⟨heap, a', hdel, hc', hmem', -, hord⟩ := deleteHeapNode_spec
        (timerCompare s.timeToExpire) h.complete (Nat.lt_succ_iff.mp hi)
      refine ⟨heap, a', m, hdel, hc', hmem', hord _ (orders_timerCompare _) h.ordered fun hi0 him => ?_⟩
      have hup := (up_lt hi0).trans hi
      have hlast := hsafe (a m) (by
        rw [searchLastNode_spec h.complete (Nat.succ_pos m)]
        rfl)
      rw [h.complete.parent i hi, if_neg hi0.ne'] at hlast
      rcases hlast with hz | heq | hle
      · exact absurd hz (h.complete.ne_zero _ hup)
      · exact absurd (h.complete.inj m (Nat.lt_succ_self m) i hi heq) him.ne'
      · exact hle
    · exact ⟨s.heap, a, n, deleteHeapNode_detached _ h.complete ht, h.complete,
        (Set.sdiff_singleton_eq_self ht).symm, h.ordered⟩
  have hout : t ∉ members a' := by
    rw [hmem']
    exact fun hx => hx.2 rfl
  obtain ⟨hp, hl, hr⟩ := hc'.apart t h0 h0 (hc'.notMem_members.mp hout)
  rw [cancelTimer, hdel]
  simp only [bind, Except.bind, ensure_of hp, ensure_of hl, ensure_of hr]
  refine ⟨_, a', n', rfl, rfl, hc', hord, fun u hu => ?_, fun u v => ?_⟩
  · rw [hmem'] at hu
    dsimp only
    rw [update_of_ne hu.2]
    exact h.ready u hu.1
  rw [hmem', Set.mem_sdiff, Set.mem_singleton_iff]
  by_cases hut : u = t
  · rw [hut, update_self]
    simp
  rw [update_of_ne hut, h.pending]
  simp [hut]

theorem ScheduleSpec.cons {now : ℕ} {p' : Pending} {t time : ℕ} {fired : List ℕ}
    (h : ScheduleSpec now (update p t none) fired p') (ht : p t = some time)
    (hdue : time ≤ now) (hmin : ∀ u, ∀ time' ∈ p u, time ≤ time') : ScheduleSpec now p (t :: fired) p' := by
  have hfired : ∀ u ∈ fired, u ≠ t := by
    rintro u hu rfl
    obtain ⟨v, hv, -⟩ := (h.mem_iff u).mp hu
    simp at hv
  refine ⟨nodup_cons.mpr ⟨fun hc => hfired t hc rfl, h.nodup⟩, fun u => ?_,
    pairwise_cons.mpr ⟨fun u _ v hv v' hv' => ?_, ?_⟩, fun u => ?_⟩
  · by_cases hut : u = t
    · subst hut
      simpa [ht] using hdue
    rw [mem_cons, h.mem_iff, update_of_ne hut]
    simp [hut]
  · rw [Option.mem_def, ht, Option.some.injEq] at hv
    exact hv ▸ hmin u v' hv'
  · refine h.sorted.imp_of_mem fun {u w} hu hw hle v hv v' hv' => hle v ?_ v' ?_
    · rwa [update_of_ne (hfired u hu)]
    · rwa [update_of_ne (hfired w hw)]
  rw [h.rest]
  by_cases hut : u = t
  · subst hut
    simp
  · simp [hut]

theorem scheduleTimer_spec (h : TimerInv s p a n) (fuel : ℕ) (hfuel : n < fuel) :
    ∃ s' p' a' n' fired, scheduleTimer fuel s = .ok s' ∧ s'.calls = s.calls ++ fired ∧
      s'.jiffies = s.jiffies ∧ ScheduleSpec s.jiffies p fired p' ∧ TimerInv s' p' a' n' ∧
      ∀ t ∈ members a', s.jiffies < s'.timeToExpire t := by
  induction fuel generalizing s p a n with
  | zero => omega
  | succ fuel ih =>
    rw [scheduleTimer]
    have hfirst : ∀ t ∈ members a, s.timeToExpire (a 0) ≤ s.timeToExpire t := fun t ht => by
      obtain ⟨i, hi, rfl⟩ := h.complete.mem_members.mp ht
      have ho := orders_timerCompare s.timeToExpire
      exact h.ordered.first_le ho.trans ho.refl hi
    -- the loop ends with an empty heap, or at a root that is not due
    have hstop : (∀ t ∈ members a, s.jiffies < s.timeToExpire t) → ScheduleSpec s.jiffies p [] p :=
      fun hlate => ⟨nodup_nil, fun t => by
        simp only [not_mem_nil, false_iff, not_exists, not_and, not_le, Option.mem_def]
        intro time ht
        obtain ⟨hmem, rfl⟩ := (h.pending t time).mp ht
        exact hlate t hmem, List.Pairwise.nil, fun t => by simp⟩
    rcases Nat.eq_zero_or_pos n with rfl | hn
    · have hroot : s.heap.root = 0 := h.complete.root.trans (h.complete.eq_zero 0 le_rfl)
      have hlate : ∀ t ∈ members a, s.jiffies < s.timeToExpire t := fun t ht => by
        obtain ⟨i, hi, -⟩ := h.complete.mem_members.mp ht
        omega
      rw [if_pos hroot]
      exact ⟨s, p, a, 0, [], rfl, (append_nil _).symm, rfl, hstop hlate, h, hlate⟩
    have hmem0 : a 0 ∈ members a := h.complete.mem_members.mpr ⟨0, hn, rfl⟩
    obtain ⟨hsched, hcb⟩ := h.ready _ hmem0
    rw [h.complete.root, if_neg (h.complete.ne_zero 0 hn), ensure_of hsched]
    simp only [bind, Except.bind]
    by_cases hlate : s.jiffies < s.timeToExpire (a 0)
    · have hall := fun t ht => hlate.trans_le (hfirst t ht)
      rw [if_pos hlate]
      exact ⟨s, p, a, n, [], rfl, (append_nil _).symm, rfl, hstop hall, h, hall⟩
    obtain ⟨m, rfl⟩ : ∃ m, n = m + 1 := ⟨n - 1, by omega⟩
    obtain ⟨heap, a', hdet, hc', hmem', -, hord⟩ :=
      detachHeapNode_spec (timerCompare s.timeToExpire) h.complete
    have h' : TimerInv { s with heap, calls := s.calls ++ [a 0] } (update p (a 0) none) a' m := by
      refine ⟨hc', hord _ (orders_timerCompare _) h.ordered, fun t ht => ?_, fun t time => ?_⟩
      · rw [hmem'] at ht
        exact h.ready t ht.1
      rw [hmem', Set.mem_sdiff, Set.mem_singleton_iff]
      by_cases hta : t = a 0
      · rw [hta, update_self]
        simp
      rw [update_of_ne hta, h.pending]
      simp [hta]
    obtain ⟨s', p', a'', n', fired, hloop, hcalls, hj, hspec, hinv, hlate'⟩ := ih h' (by omega)
    rw [if_neg hlate, hdet]
    simp only [ensure_of (h.complete.ne_zero 0 hn), ensure_of (not_lt.mp hlate), ensure_of hsched, ensure_of hcb]
    refine ⟨s', p', a'', n', a 0 :: fired, hloop, by simpa using hcalls, hj, ?_, hinv, hlate'⟩
    refine hspec.cons (h.pending_some hmem0) (not_lt.mp hlate) fun u time' hu => ?_
    obtain ⟨hu', rfl⟩ := (h.pending u time').mp hu
    exact hfirst u hu'

end

theorem timerInv_init : TimerInv timerInit (fun _ => none) (fun _ => 0) 0 where
  complete := ⟨by simp, by simp, by simp, rfl, by simp, by simp, by simp, fun _ _ _ _ => ⟨rfl, rfl, rfl⟩, le_rfl⟩
  ordered := fun _ _ hi => absurd hi (Nat.not_lt_zero _)
  ready := by simp [members]
  pending := by simp [members]

theorem timerInv_step {s : TimerState} {p : Pending} {a : ℕ → ℕ} {n : ℕ} (h : TimerInv s p a n)
    {op : TimerOp} (hsafe : op.Safe s) : ∃ s' p' a' n' fired, s.step op = .ok s' ∧ s'.calls = s.calls ++ fired ∧
      StepSpec s p op fired p' ∧ TimerInv s' p' a' n' ∧ (op = .schedule → NoneDue s') := by
  by_cases hallow : op.Allowed s
  · simp only [TimerState.step, StepSpec, if_pos hallow]
    cases op with
    | register t time callback =>
      obtain ⟨h0, hd, hcb⟩ := hallow
      obtain ⟨s', a', hs, hcalls, hnone, h'⟩ := registerTimer_spec h time h0 hd hcb
      exact ⟨s', _, a', _, [], hs, by rw [hcalls, append_nil], ⟨hnone, rfl, rfl⟩, h', by simp⟩
    | cancel t =>
      obtain ⟨s', a', n', hs, hcalls, h'⟩ := cancelTimer_spec h hallow hsafe
      exact ⟨s', _, a', n', [], hs, by rw [hcalls, append_nil], ⟨rfl, rfl⟩, h', by simp⟩
    | tick d =>
      exact ⟨_, p, a, n, [], rfl, (append_nil _).symm, ⟨rfl, rfl⟩, ⟨h.complete, h.ordered, h.ready, h.pending⟩, by simp⟩
    | schedule =>
      have hbound := h.complete.bound
      obtain ⟨s', p', a', n', fired, hs, hcalls, hj, hspec, h', hlate⟩ :=
        scheduleTimer_spec h s.heap.fuel (by unfold Heap.fuel; omega)
      refine ⟨s', p', a', n', fired, hs, hcalls, hspec, h', fun _ t ht => ?_⟩
      rw [hj]
      exact hlate t (h'.complete.holds_iff.mp ht)
  · simp only [TimerState.step, StepSpec, if_neg hallow]
    refine ⟨s, p, a, n, [], rfl, (append_nil _).symm, ⟨rfl, rfl⟩, h, ?_⟩
    rintro rfl
    exact absurd trivial hallow

theorem timersFire_of_inv {s : TimerState} {p : Pending} {a : ℕ → ℕ} {n : ℕ} (h : TimerInv s p a n)
    {ops : List TimerOp} (hsafe : CancelsSafe s ops) : TimersFire s p ops := by
  induction ops generalizing s p a n with
  | nil => trivial
  | cons op ops ih =>
    obtain ⟨hop, hops⟩ := hsafe
    obtain ⟨s', p', a', n', fired, hs, hcalls, hspec, h', hdue⟩ := timerInv_step h hop
    exact ⟨s', fired, p', hs, hcalls, hspec, h'.represents, hdue, ih h' (hops s' (by rw [hs]; rfl))⟩

/-- **In every run whose cancellations are safe, every registered timer fires once, in order and when it is due, unless
it is cancelled.** -/
theorem timersFire_of_cancelsSafe (ops : List TimerOp) (h : CancelsSafe timerInit ops) :
    TimersFire timerInit (fun _ => none) ops :=
  timersFire_of_inv timerInv_init h

theorem timersFire_of_cancelsSafe_three :
    CancelsSafe timerInit [.register 1 5 9, .register 2 3 9, .register 3 4 9, .cancel 1, .tick 4, .schedule] ∧
      TimersFire timerInit (fun _ => none) [.register 1 5 9, .register 2 3 9, .register 3 4 9,
        .cancel 1, .tick 4, .schedule] :=
  have hsafe : CancelsSafe timerInit [.register 1 5 9, .register 2 3 9, .register 3 4 9, .cancel 1,
    .tick 4, .schedule] := by decide
  ⟨hsafe, timersFire_of_cancelsSafe _ hsafe⟩

theorem TimersFire.noneDue {s : TimerState} {p : Pending} {ops : List TimerOp}
    (h : TimersFire s p (ops ++ [.schedule])) : ∃ s', s.run (ops ++ [.schedule]) = .ok s' ∧ NoneDue s' := by
  induction ops generalizing s p with
  | nil =>
    obtain ⟨s', -, -, hs, -, -, -, hdue, -⟩ := h
    refine ⟨s', ?_, hdue rfl⟩
    rw [nil_append, TimerState.run, hs]
    rfl
  | cons op ops ih =>
    obtain ⟨s1, _, _, hs1, -, -, -, -, h⟩ := h
    obtain ⟨s', hs, hdue⟩ := ih h
    refine ⟨s', ?_, hdue⟩
    rw [cons_append, TimerState.run, hs1]
    exact hs

/-- Timer `7` takes the place of the cancelled timer `4` below timer `2`, which expires later. -/
theorem not_timersFire_cancel : ¬ TimersFire timerInit (fun _ => none)
      ([.register 1 1 9, .register 2 4 9, .register 3 2 9, .register 4 5 9, .register 5 6 9,
        .register 6 7 9, .register 7 3 9, .cancel 4, .tick 3] ++ [.schedule]) := by
  intro h
  obtain ⟨s', hs, hdue⟩ := h.noneDue
  have hrun : (timerInit.run ([.register 1 1 9, .register 2 4 9, .register 3 2 9, .register 4 5 9,
      .register 5 6 9, .register 6 7 9, .register 7 3 9, .cancel 4, .tick 3] ++ [.schedule])).map
      (fun s => (s.heap.root, s.heap.nodes.left 2, s.jiffies, s.timeToExpire 7)) =
      .ok (2, 7, 3, 3) := by decide +kernel
  rw [hs] at hrun
  obtain ⟨hroot, hleft, hj, htime⟩ : s'.heap.root = 2 ∧ s'.heap.nodes.left 2 = 7 ∧ s'.jiffies = 3 ∧
      s'.timeToExpire 7 = 3 := by simpa [Except.map] using hrun
  have h2 : s'.heap.Holds 2 := hroot ▸ .root (by rw [hroot]; decide)
  have h7 : s'.heap.Holds 7 := hleft ▸ h2.left (by rw [hleft]; decide)
  have hlt := hdue 7 h7
  omega

end ZeldaOS
