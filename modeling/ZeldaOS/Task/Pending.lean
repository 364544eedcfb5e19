import ZeldaOS.Task.Legal
import Mathlib.Order.Bounds.Basic

/-!
# Pending signals

The flag `signal_pending` against the bits `signaled`, along any run on one task.

* `signals_bookkept`: `signal_pending` says whether a signal is queued.
-/

namespace ZeldaOS

/-! ## Runs -/

/-- The calls; what the rest of the kernel does to the task between them is `other`. -/
inductive SignalOp where
  | signal (sig : Sig) (h : sig ≠ 0)
  | sysSignal (signal : ℤ) (handler : ℕ)
  | processSignal
  | other (state nonStopState : TaskState) (interruptDepth : ℕ) (signalScheduled : Bool)

def Task.signalStep (t : Task) : SignalOp → Except Panic Task
  | .signal sig _ => signalTask t sig
  | .sysSignal signal handler => .ok (callSysSignal t signal handler)
  | .processSignal => (taskProcessSignal t).map Prod.fst
  | .other state nonStopState interruptDepth signalScheduled =>
    .ok { t with state, nonStopState, interruptDepth, signalScheduled }

def Task.signalRun (t : Task) (ops : List SignalOp) : Except Panic Task := ops.foldlM Task.signalStep t

def Task.signalStart (t : Task) : Task := taskSignalInit { t with signalPending := false }

def Task.queued (t : Task) : Set Sig := {sig | (t.sigEntries sig).signaled = true}

def Task.Acts (t : Task) : Prop :=
  t.privilegeLevel = 3 ∧ t.interruptDepth = 1 ∧ t.signalScheduled = false ∧ t.signalPending = true

def Task.Posts (t : Task) (op : SignalOp) (sig : Sig) : Prop :=
  (∃ h, op = .signal sig h) ∧ (t.sigEntries sig).valid = true ∧
    (t.sigEntries sig).action ≠ .stop ∧ (t.sigEntries sig).action ≠ .continue

def Task.Takes (t : Task) (op : SignalOp) (sig : Sig) : Prop :=
  op = .processSignal ∧ t.Acts ∧ IsLeast t.queued sig

/-- The flag says whether something is queued, and what is queued can be handled. -/
structure Task.Bookkept (t : Task) : Prop where
  pending : t.signalPending = true ↔ t.queued.Nonempty
  disposed : t.Disposed
  other : ∀ sig ∈ t.queued, sigClass sig = .other

variable {t : Task} {sig : Sig}

theorem Task.Bookkept.disposition (h : t.Bookkept) (hq : sig ∈ t.queued) :
    (t.sigEntries sig).valid = true ∧ ((t.sigEntries sig).action = .exit ∨
      (t.sigEntries sig).action = .ignore ∨ (t.sigEntries sig).action = .user) := by
  have hfit := h.disposed sig
  rw [h.other sig hq] at hfit
  obtain ⟨hv, hs, hc⟩ := hfit
  refine ⟨hv, ?_⟩
  cases ha : (t.sigEntries sig).action with
  | exit => exact Or.inl rfl
  | ignore => exact Or.inr (Or.inl rfl)
  | user => exact Or.inr (Or.inr rfl)
  | stop => exact absurd ha hs
  | «continue» => exact absurd ha hc

theorem bookkept_start (t : Task) : t.signalStart.Bookkept := by
  have hq : t.signalStart.queued = ∅ := by
    ext sig
    change (initEntry sig).signaled = true ↔ False
    revert sig
    decide
  refine ⟨?_, initEntry_fits, ?_⟩
  · rw [hq]
    simp [Task.signalStart, taskSignalInit]
  · simp [hq]

variable {start : ℕ}

/-! ## The next signal -/

theorem nextSignal_eq_none_iff :
    nextSignal t start = none ↔ ∀ sig : Sig, start ≤ sig.val → (t.sigEntries sig).valid = true →
      (t.sigEntries sig).signaled = false := by
  simp [nextSignal, List.find?_eq_none]

theorem nextSignal_eq_some (h : nextSignal t start = some sig) :
    (t.sigEntries sig).signaled = true ∧ ∀ sig' : Sig, start ≤ sig'.val →
      (t.sigEntries sig').valid = true → (t.sigEntries sig').signaled = true → sig ≤ sig' := by
  rw [nextSignal, List.find?_eq_some_iff_getElem] at h
  obtain ⟨hp, i, hi, hget, hbefore⟩ := h
  refine ⟨by simpa using (Bool.and_eq_true_iff.1 hp).2, fun sig' hstart hv hs => ?_⟩
  by_contra hlt
  have hval : sig'.val < i := by
    rw [← hget] at hlt
    simpa [Fin.lt_def] using hlt
  have := hbefore sig'.val hval
  simp [hstart, hv, hs] at this

theorem Task.Bookkept.pos (h : t.Bookkept) (hq : sig ∈ t.queued) : 1 ≤ sig.val := by
  have hc := h.other sig hq
  revert hc
  clear hq h
  revert sig
  decide

theorem Task.Bookkept.nextSignal_cases (h : t.Bookkept) : (nextSignal t 1 = none ∧ t.queued = ∅) ∨
      ∃ sig, nextSignal t 1 = some sig ∧ IsLeast t.queued sig := by
  cases hn : nextSignal t 1 with
  | none =>
    refine Or.inl ⟨rfl, Set.eq_empty_of_forall_notMem fun sig hq => ?_⟩
    have hclear := nextSignal_eq_none_iff.1 hn sig (h.pos hq) (h.disposition hq).1
    exact Bool.false_ne_true (hclear.symm.trans hq)
  | some sig =>
    obtain ⟨hs, hleast⟩ := nextSignal_eq_some hn
    exact Or.inr ⟨sig, rfl, hs, fun sig' hq => hleast sig' (h.pos hq) (h.disposition hq).1 hq⟩

theorem Task.taken_sigEntries (t : Task) (sig : Sig) : (t.taken sig).sigEntries =
    Function.update t.sigEntries sig { t.sigEntries sig with signaled := false } := by
  unfold Task.taken
  dsimp only
  split_ifs <;> rfl

theorem Task.queued_taken (t : Task) (sig : Sig) : (t.taken sig).queued = t.queued \ {sig} := by
  ext sig'
  simp only [Task.queued, Task.taken_sigEntries, Set.mem_ofPred_eq, Set.mem_sdiff, Set.mem_singleton_iff]
  by_cases hs : sig' = sig
  · simp [hs]
  · simp [hs]

theorem Task.Disposed.taken (h : t.Disposed) (sig : Sig) : (t.taken sig).Disposed := by
  unfold Task.Disposed
  rw [Task.taken_sigEntries]
  exact h.setEntry ((h sig).signaled false)

theorem Task.Bookkept.taken (h : t.Bookkept) (hl : IsLeast t.queued sig) : (t.taken sig).Bookkept := by
  have hothers : ∀ sig' ∈ (t.taken sig).queued, sigClass sig' = .other := by
    intro sig' hq
    rw [Task.queued_taken] at hq
    exact h.other sig' hq.1
  refine ⟨?_, h.disposed.taken sig, hothers⟩
  have hpend : t.signalPending = true := h.pending.2 ⟨sig, hl.1⟩
  set t1 := t.setEntry sig { t.sigEntries sig with signaled := false } with ht1
  have hq1 : t1.queued = (t.taken sig).queued := by
    rw [Task.queued, Task.queued, Task.taken_sigEntries]
    rfl
  have hflag : (t.taken sig).signalPending = decide (nextSignal t1 (sig.val + 1) ≠ none) := by
    unfold Task.taken
    dsimp only
    cases nextSignal t1 (sig.val + 1) with
    | none => rfl
    | some sig' => exact hpend
  rw [hflag, decide_eq_true_iff, ← not_iff_not, not_not, Set.not_nonempty_iff_eq_empty, ← hq1, nextSignal_eq_none_iff]
  constructor
  · intro hnone
    refine Set.eq_empty_of_forall_notMem fun sig' hq => ?_
    have hq' := hq
    rw [hq1, Task.queued_taken] at hq'
    have hlt : sig < sig' := lt_of_le_of_ne (hl.2 hq'.1) (Ne.symm hq'.2)
    have hv : (t1.sigEntries sig').valid = true := by
      have := (h.disposition hq'.1).1
      simpa [ht1, Task.setEntry, Function.update_of_ne hq'.2] using this
    exact Bool.false_ne_true ((hnone sig' hlt hv).symm.trans hq)
  · intro hempty sig' _ _
    by_contra hs
    have : sig' ∈ t1.queued := by simpa [Task.queued] using hs
    rw [hempty] at this
    exact this

variable {t' : Task}

theorem Task.Bookkept.congr (h : t.Bookkept) (he : t'.sigEntries = t.sigEntries)
    (hp : t'.signalPending = t.signalPending) : t'.Bookkept := by
  have hq : t'.queued = t.queued := by rw [Task.queued, he, Task.queued]
  exact ⟨by rw [hp, hq, h.pending], fun sig => he ▸ h.disposed sig, by rw [hq]; exact h.other⟩

/-! ## The calls -/

theorem rawTaskWakeUp_kept (h : rawTaskWakeUp t = .ok t') :
    t'.sigEntries = t.sigEntries ∧ t'.signalPending = t.signalPending := by
  rcases rawTaskWakeUp_cases h with ⟨-, rfl⟩ | ⟨-, rfl⟩ | ⟨-, rfl⟩ <;> exact ⟨rfl, rfl⟩

theorem signalTask_kept (h : signalTask t sig = .ok t')
    (hk : (t.sigEntries sig).valid = false ∨ (t.sigEntries sig).action = .stop ∨
    (t.sigEntries sig).action = .continue) :
    t'.sigEntries = t.sigEntries ∧ t'.signalPending = t.signalPending := by
  have h0 : sig ≠ 0 := by
    rintro rfl
    cases h
  by_cases hv : (t.sigEntries sig).valid = false
  · simp only [signalTask, h0, hv, if_true, if_false] at h
    cases h
    exact ⟨rfl, rfl⟩
  rcases hk.resolve_left hv with ha | ha <;>
    simp only [signalTask, h0, hv, ha, if_false, transitState, bind, Except.bind] at h <;>
    split_ifs at h <;> cases h <;> exact ⟨rfl, rfl⟩

theorem signalTask_queued (hb : t.Bookkept) (h0 : sig ≠ 0) (h : signalTask t sig = .ok t') :
    t'.Bookkept ∧ ∀ sig', sig' ∈ t'.queued ↔ t.Posts (.signal sig h0) sig' ∨ sig' ∈ t.queued := by
  by_cases hk : (t.sigEntries sig).valid = false ∨ (t.sigEntries sig).action = .stop ∨
      (t.sigEntries sig).action = .continue
  · obtain ⟨he, hp⟩ := signalTask_kept h hk
    refine ⟨hb.congr he hp, fun sig' => ?_⟩
    rw [Task.queued, he]
    refine ⟨Or.inr, fun hor => hor.resolve_left ?_⟩
    rintro ⟨⟨_, heq⟩, hv, hs, hc⟩
    obtain rfl : sig = sig' := by injection heq
    rcases hk with hk | hk | hk
    · exact Bool.false_ne_true (hk.symm.trans hv)
    · exact hs hk
    · exact hc hk
  push Not at hk
  obtain ⟨hv, hs, hc⟩ := hk
  have hvalid : (t.sigEntries sig).valid = true := by simpa using hv
  rw [signalTask_other h0 hvalid hs hc] at h
  obtain ⟨he, hp⟩ := rawTaskWakeUp_kept h
  have hq : ∀ sig', sig' ∈ t'.queued ↔ sig' = sig ∨ sig' ∈ t.queued := by
    intro sig'
    change (t'.sigEntries sig').signaled = true ↔ _
    rw [he]
    by_cases hsig : sig' = sig
    · simp [hsig, Task.setEntry]
    · simp [hsig, Task.setEntry, Task.queued]
  have hclass : sigClass sig = .other := by
    have hfit := hb.disposed sig
    cases hcl : sigClass sig <;> rw [hcl] at hfit
    case stop => exact absurd hfit.2.1 hs
    case cont => exact absurd hfit.2.1 hc
    case unsupported => exact absurd hfit hv
  refine ⟨⟨?_, ?_, ?_⟩, fun sig' => ?_⟩
  · rw [hp]
    exact ⟨fun _ => ⟨sig, (hq sig).2 (Or.inl rfl)⟩, fun _ => rfl⟩
  · unfold Task.Disposed
    rw [he]
    exact hb.disposed.setEntry ((hb.disposed sig).signaled true)
  · intro sig' hmem
    rcases (hq sig').1 hmem with rfl | hmem
    · exact hclass
    · exact hb.other sig' hmem
  rw [hq]
  refine or_congr_left ⟨?_, ?_⟩
  · rintro rfl
    exact ⟨⟨h0, rfl⟩, hvalid, hs, hc⟩
  rintro ⟨⟨_, heq⟩, -⟩
  injection heq with heq
  exact heq.symm

theorem callSysSignal_queued (hb : t.Bookkept) (n : ℤ) (entry : ℕ) :
    (callSysSignal t n entry).Bookkept ∧ (callSysSignal t n entry).queued = t.queued := by
  have hq : (callSysSignal t n entry).queued = t.queued := by
    obtain he | ⟨sig, -, he⟩ := callSysSignal_cases t n entry
    · rw [he]
    rw [he]
    ext sig'
    by_cases hs : sig' = sig
    · simp [Task.queued, Task.setEntry, hs]
    · simp [Task.queued, Task.setEntry, hs]
  have hp : (callSysSignal t n entry).signalPending = t.signalPending := by
    obtain he | ⟨sig, -, he⟩ := callSysSignal_cases t n entry
    · rw [he]
    rw [he]
    rfl
  refine ⟨⟨?_, disposed_callSysSignal hb.disposed n entry, ?_⟩, hq⟩
  · rw [hp, hq, hb.pending]
  rw [hq]
  exact hb.other

theorem taskProcessSignal_taken {r : Resume} (hb : t.Bookkept) (h : taskProcessSignal t = .ok (t', r)) :
    (¬t.Acts ∧ t'.sigEntries = t.sigEntries ∧ t'.signalPending = t.signalPending) ∨
      ∃ sig, t.Acts ∧ IsLeast t.queued sig ∧ t'.sigEntries = (t.taken sig).sigEntries ∧
        t'.signalPending = (t.taken sig).signalPending := by
  unfold taskProcessSignal at h
  split_ifs at h with hpl hst hpend
  · obtain ⟨hn, hempty⟩ | ⟨sig, hn, hleast⟩ := hb.nextSignal_cases
    · obtain ⟨sig, hq⟩ := hb.pending.1 hpend.2
      exact absurd hq (hempty ▸ Set.notMem_empty sig)
    refine Or.inr ⟨sig, ⟨hpl.1, hpl.2, hpend.1, hpend.2⟩, hleast, ?_⟩
    rw [handlePending_some hn] at h
    rcases (hb.disposition hleast.1).2 with ha | ha | ha <;> rw [ha] at h
    · simp only [transitState, bind, Except.bind] at h
      split_ifs at h
      cases h
      exact ⟨rfl, rfl⟩
    · cases h
      exact ⟨rfl, rfl⟩
    simp only [prepareSignalContext, bind, Except.bind] at h
    split_ifs at h
    cases h
    exact ⟨rfl, rfl⟩
  · cases h
    exact Or.inl ⟨fun ha => hpend ⟨ha.2.2.1, ha.2.2.2⟩, rfl, rfl⟩
  · cases h
    exact Or.inl ⟨fun ha => hpl ⟨ha.1, ha.2.1⟩, rfl, rfl⟩

theorem taskProcessSignal_ne_notReach (hb : t.Bookkept) : taskProcessSignal t ≠ .error .notReach := by
  unfold taskProcessSignal
  split_ifs
  · obtain ⟨hn, -⟩ | ⟨sig, hn, hleast⟩ := hb.nextSignal_cases
    · rw [handlePending, hn]
      simp
    rw [handlePending_some hn]
    rcases (hb.disposition hleast.1).2 with ha | ha | ha <;> rw [ha]
    · simp only [transitState, bind, Except.bind]
      split_ifs <;> simp
    · simp
    simp only [prepareSignalContext, bind, Except.bind]
    split_ifs <;> simp
  · simp
  · simp
  · simp

theorem signaled_signalStep {op : SignalOp} (hb : t.Bookkept) (h : t.signalStep op = .ok t') :
    t'.Bookkept ∧ ∀ sig, sig ∈ t'.queued ↔ t.Posts op sig ∨ sig ∈ t.queued ∧ ¬t.Takes op sig := by
  cases op with
  | signal sig h0 =>
    obtain ⟨hb', hq⟩ := signalTask_queued hb h0 h
    exact ⟨hb', fun sig' => by simp [hq sig', Task.Takes]⟩
  | sysSignal n entry =>
    cases h
    obtain ⟨hb', hq⟩ := callSysSignal_queued hb n entry
    exact ⟨hb', fun sig' => by simp [hq, Task.Takes, Task.Posts]⟩
  | processSignal =>
    obtain ⟨⟨t1, r⟩, hp, rfl⟩ := map_eq_ok h
    have hposts : ∀ sig, ¬t.Posts .processSignal sig := by
      rintro sig ⟨⟨_, heq⟩, -⟩
      cases heq
    obtain ⟨hacts, he, hf⟩ | ⟨sig, hacts, hleast, he, hf⟩ := taskProcessSignal_taken hb hp
    · have hq : t1.queued = t.queued := by rw [Task.queued, he, Task.queued]
      refine ⟨hb.congr he hf, fun sig => ?_⟩
      simp [hq, hposts, Task.Takes, hacts]
    have hq : t1.queued = t.queued \ {sig} := by
      rw [← Task.queued_taken, Task.queued, he, Task.queued]
    have htakes : ∀ sig', t.Takes .processSignal sig' ↔ sig' = sig := by
      intro sig'
      refine ⟨fun htk => htk.2.2.unique hleast, ?_⟩
      rintro rfl
      exact ⟨rfl, hacts, hleast⟩
    refine ⟨(hb.taken hleast).congr he hf, fun sig' => ?_⟩
    simp [hq, hposts, htakes]
  | other state nonStopState depth scheduled =>
    cases h
    exact ⟨hb.congr rfl rfl, fun sig' => by simp [Task.Takes, Task.Posts, Task.queued]⟩

theorem bookkept_signalRun {ops : List SignalOp} (hb : t.Bookkept) (h : t.signalRun ops = .ok t') : t'.Bookkept := by
  induction ops generalizing t with
  | nil =>
    cases h
    exact hb
  | cons op ops ih =>
    rw [Task.signalRun, List.foldlM_cons] at h
    cases hstep : t.signalStep op with
    | error p =>
      rw [hstep] at h
      cases h
    | ok t1 =>
      rw [hstep] at h
      exact ih (signaled_signalStep hb hstep).1 h

theorem fixed_initEntry (sig : Sig) (h : (initEntry sig).action = .stop ∨ (initEntry sig).action = .continue) :
    (∀ e : SignalEntry, e.Fits (sigClass sig) → e.action = (initEntry sig).action) ∧ sigClass sig ≠ .other := by
  have hinit := initEntry_fits sig
  have hclass : sigClass sig = .stop ∨ sigClass sig = .cont := by
    revert h
    revert sig
    decide
  rcases hclass with hc | hc <;> rw [hc] at hinit ⊢
  · exact ⟨fun e he => he.2.1.trans hinit.2.1.symm, by simp⟩
  · exact ⟨fun e he => he.2.1.trans hinit.2.1.symm, by simp⟩

/-- **`signal_pending` says whether a signal is queued, what is queued can be handled, and each call of
`task_process_signal` that acts takes the lowest queued signal.** -/
theorem signals_bookkept (t t' : Task) (ops : List SignalOp) (hrun : t.signalStart.signalRun ops = .ok t') :
    (t'.signalPending = true ↔ ∃ sig, (t'.sigEntries sig).signaled = true) ∧
    (∀ sig, (t'.sigEntries sig).signaled = true → (t'.sigEntries sig).valid = true ∧
      ((t'.sigEntries sig).action = .exit ∨ (t'.sigEntries sig).action = .ignore ∨
        (t'.sigEntries sig).action = .user)) ∧
    (∀ sig, (initEntry sig).action = .stop ∨ (initEntry sig).action = .continue →
      (t'.sigEntries sig).action = (initEntry sig).action ∧ (t'.sigEntries sig).signaled = false) ∧
    taskProcessSignal t' ≠ .error .notReach ∧
    ∀ op t'', t'.signalStep op = .ok t'' → ∀ sig, (t''.sigEntries sig).signaled = true ↔
      t'.Posts op sig ∨ (t'.sigEntries sig).signaled = true ∧ ¬t'.Takes op sig := by
  have hb := bookkept_signalRun (bookkept_start t) hrun
  refine ⟨hb.pending, fun sig hq => hb.disposition hq, fun sig hfixed => ?_,
    taskProcessSignal_ne_notReach hb, fun op t'' hstep => (signaled_signalStep hb hstep).2⟩
  obtain ⟨hact, hclass⟩ := fixed_initEntry sig hfixed
  refine ⟨hact _ (hb.disposed sig), ?_⟩
  rw [← Bool.not_eq_true]
  exact fun hq => hclass (hb.other sig hq)

theorem signals_bookkept_two : ∃ t',
    (createdTask true).signalStart.signalRun [.signal sigUsr1 (by decide), .signal sigInt (by decide),
      .sysSignal 2 0x40000000, .processSignal] = .ok t' ∧
    (t'.signalPending = true ↔ ∃ sig, (t'.sigEntries sig).signaled = true) := by
  obtain ⟨t', hrun⟩ : ∃ t', (createdTask true).signalStart.signalRun [.signal sigUsr1 (by decide),
      .signal sigInt (by decide), .sysSignal 2 0x40000000, .processSignal] = .ok t' := ⟨_, rfl⟩
  exact ⟨t', hrun, (signals_bookkept (createdTask true) t' _ hrun).1⟩

end ZeldaOS
