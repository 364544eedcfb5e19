import ZeldaOS.Task.Stop

/-!
# Legal state transitions

The events of `ZeldaOS.Task.Stop` together with the interrupt exits of the task and the return of a user handler.

* `transitionsLegal_iff`: when a run makes an illegal transition.
-/

namespace ZeldaOS

open List

/-! ## Runs -/

/-- The events of a task, its interrupt exits, and the return of its handler. -/
inductive KernelEvent where
  | base (e : Event)
  | interruptExit (depth : ℕ)
  | signalReturn

/-- The exit path runs for `current` only; a task that exits there yields for good. -/
def OneTask.kstep (s : OneTask) : KernelEvent → Except Panic OneTask
  | .base e => s.step e
  | .interruptExit depth =>
    if s.onCpu then (taskProcessSignal { s.task with interruptDepth := depth }).map fun r =>
      ⟨r.1, decide (r.2 ≠ .yielded)⟩
    else .ok s
  | .signalReturn =>
    if s.onCpu then
      if s.task.signalScheduled then .ok { s with task := { s.task with signalScheduled := false } }
      else .error .assertion
    else .ok s

def OneTask.krun (s : OneTask) (es : List KernelEvent) : Except Panic OneTask :=
  es.foldlM OneTask.kstep s

/-- Every `transit_state` call of the run is set in `transition_table`. -/
def TransitionsLegal (t : Task) (es : List KernelEvent) : Prop :=
  ∀ src dst, (OneTask.start t).krun es ≠ .error (.transition src dst)

/-- At an interrupt exit to PL3 of a stopped task, outside a user handler, the lowest pending signal terminates it. -/
def StoppedExit (s : OneTask) (e : KernelEvent) : Prop :=
  e = .interruptExit 1 ∧ s.onCpu = true ∧ s.task.privilegeLevel = 3 ∧
    s.task.state = .uninterruptible ∧ s.task.signalScheduled = false ∧
    s.task.signalPending = true ∧
    ∃ sig, nextSignal s.task 1 = some sig ∧ (s.task.sigEntries sig).action = .exit

/-- What holds of the task between two events. -/
structure Settled (s : OneTask) : Prop where
  nonStop : s.task.state = .uninterruptible → s.task.nonStopState = .running ∨ s.task.nonStopState = .interruptible
  cpu : s.onCpu = true → s.task.state = .running ∨ s.task.state = .uninterruptible ∧ s.task.nonStopState = .running

variable {t t' : Task}

/-! ## The calls -/

theorem rawTaskWakeUp_cases (h : rawTaskWakeUp t = .ok t') : (t.state = .running ∧ t' = t) ∨
    (t.state = .interruptible ∧ t' = { t with state := .running }) ∨
    (t.state = .uninterruptible ∧ t' = { t with nonStopState := .running }) := by
  unfold rawTaskWakeUp at h
  cases hst : t.state <;> simp only [hst] at h
  · cases h
  · exact Or.inl ⟨rfl, by simpa using h.symm⟩
  · simp only [transitState, hst, transitionTable, if_true] at h
    exact Or.inr (Or.inl ⟨rfl, (Except.ok.inj h).symm⟩)
  · split_ifs at h
    exact Or.inr (Or.inr ⟨rfl, (Except.ok.inj h).symm⟩)
  · cases h

theorem rawTaskWakeUp_ne_transition (t : Task) (src dst : TaskState) :
    rawTaskWakeUp t ≠ .error (.transition src dst) := by
  unfold rawTaskWakeUp
  cases hst : t.state <;> simp [transitState, hst, transitionTable]
  split_ifs <;> simp

variable {sig : Sig}

theorem signalTask_cases (h : signalTask t sig = .ok t') : t' = t ∨ ((t.state = .interruptible ∨ t.state = .running) ∧
      t' = { t with nonStopState := t.state, state := .uninterruptible }) ∨
    (t.state = .uninterruptible ∧ t' = { t with state := t.nonStopState, nonStopState := .zombie }) ∨
    rawTaskWakeUp { t.setEntry sig { t.sigEntries sig with signaled := true } with
      signalPending := true } = .ok t' := by
  by_cases h0 : sig = 0
  · simp [signalTask, h0] at h
  by_cases hv : (t.sigEntries sig).valid = false
  · simp only [signalTask, h0, hv, if_true, if_false] at h
    exact Or.inl (Except.ok.inj h).symm
  have hv' : (t.sigEntries sig).valid = true := by simpa using hv
  cases ha : (t.sigEntries sig).action with
  | stop =>
    rw [signalTask_stop h0 hv' ha] at h
    split_ifs at h with hst
    · exact Or.inr (Or.inl ⟨hst, (Except.ok.inj h).symm⟩)
    · exact Or.inl (Except.ok.inj h).symm
  | «continue» =>
    simp only [signalTask, h0, hv', ha, if_false, Bool.true_eq_false] at h
    split_ifs at h with hst
    · unfold transitState at h
      split_ifs at h
      · exact Or.inr (Or.inr (Or.inl ⟨hst, (Except.ok.inj h).symm⟩))
      · cases h
    · exact Or.inl (Except.ok.inj h).symm
  | exit | ignore | user =>
    rw [signalTask_other h0 hv' (by simp [ha]) (by simp [ha])] at h
    exact Or.inr (Or.inr (Or.inr h))

theorem signalTask_ne_transition (sig : Sig)
    (hn : t.state = .uninterruptible → t.nonStopState = .running ∨ t.nonStopState = .interruptible)
    (src dst : TaskState) : signalTask t sig ≠ .error (.transition src dst) := by
  by_cases h0 : sig = 0
  · simp [signalTask, h0]
  by_cases hv : (t.sigEntries sig).valid = false
  · simp [signalTask, h0, hv]
  have hv' : (t.sigEntries sig).valid = true := by simpa using hv
  cases ha : (t.sigEntries sig).action with
  | stop => rw [signalTask_stop h0 hv' ha]; simp
  | «continue» => rw [signalTask_cont h0 hv' ha hn]; simp
  | exit | ignore | user =>
    rw [signalTask_other h0 hv' (by simp [ha]) (by simp [ha])]
    exact rawTaskWakeUp_ne_transition _ _ _

theorem prepareSignalContext_ne_transition (t : Task) (sig : Sig) (src dst : TaskState) :
    prepareSignalContext t sig ≠ .error (.transition src dst) := by
  unfold prepareSignalContext
  split_ifs <;> simp

def Task.taken (t : Task) (sig : Sig) : Task :=
  let t₁ := t.setEntry sig { t.sigEntries sig with signaled := false }
  if (nextSignal t₁ (sig.val + 1)).isNone then { t₁ with signalPending := false } else t₁

@[simp] theorem Task.taken_state (t : Task) (sig : Sig) : (t.taken sig).state = t.state := by
  unfold Task.taken; dsimp only; split_ifs <;> rfl

@[simp] theorem Task.taken_nonStopState (t : Task) (sig : Sig) : (t.taken sig).nonStopState = t.nonStopState := by
  unfold Task.taken; dsimp only; split_ifs <;> rfl

@[simp] theorem Task.taken_action (t : Task) (sig : Sig) :
    ((t.taken sig).sigEntries sig).action = (t.sigEntries sig).action := by
  unfold Task.taken; dsimp only; split_ifs <;> simp [Task.setEntry]

theorem handlePending_some (h : nextSignal t 1 = some sig) : handlePending t = match (t.sigEntries sig).action with
      | .ignore => .ok (t.taken sig, resumeOf (t.taken sig))
      | .exit => transitState (t.taken sig) .exiting >>= fun t3 => .ok (t3, .yielded)
      | .user => prepareSignalContext (t.taken sig) sig >>= fun t3 =>
          .ok ({ t3 with signalScheduled := true }, .signaled)
      | _ => .error .notReach := by
  rw [← t.taken_action sig]
  unfold handlePending
  rw [h]
  rfl

theorem taskProcessSignal_cases {r : Resume} (h : taskProcessSignal t = .ok (t', r)) :
    (t'.state = t.state ∧ t'.nonStopState = t.nonStopState) ∨ (t'.state = .exiting ∧ r = .yielded) := by
  unfold taskProcessSignal at h
  split_ifs at h with hpl hst hpend
  · cases hn : nextSignal t 1 with
    | none =>
      rw [handlePending, hn] at h
      obtain ⟨rfl, -⟩ := Prod.mk.inj (Except.ok.inj h)
      exact Or.inl ⟨rfl, rfl⟩
    | some sig =>
      rw [handlePending_some hn] at h
      cases ha : (t.sigEntries sig).action <;> rw [ha] at h
      case exit =>
        unfold transitState at h
        split_ifs at h
        · obtain ⟨rfl, rfl⟩ := Prod.mk.inj (Except.ok.inj h)
          exact Or.inr ⟨rfl, rfl⟩
        · cases h
      case ignore =>
        obtain ⟨rfl, -⟩ := Prod.mk.inj (Except.ok.inj h)
        exact Or.inl ⟨t.taken_state sig, t.taken_nonStopState sig⟩
      case user =>
        unfold prepareSignalContext at h
        split_ifs at h
        · obtain ⟨rfl, -⟩ := Prod.mk.inj (Except.ok.inj h)
          exact Or.inl ⟨t.taken_state sig, t.taken_nonStopState sig⟩
        · cases h
      all_goals cases h
  all_goals
    obtain ⟨rfl, -⟩ := Prod.mk.inj (Except.ok.inj h)
    exact Or.inl ⟨rfl, rfl⟩

theorem handlePending_transition_iff (t : Task) (hst : t.state = .running ∨ t.state = .uninterruptible) :
    (∃ src dst, handlePending t = .error (.transition src dst)) ↔ t.state = .uninterruptible ∧
        ∃ sig, nextSignal t 1 = some sig ∧ (t.sigEntries sig).action = .exit := by
  cases hn : nextSignal t 1 with
  | none => simp [handlePending, hn]
  | some sig =>
    rw [handlePending_some hn]
    cases ha : (t.sigEntries sig).action
    case exit =>
      rcases hst with hst | hst <;> simp [transitState, hst, transitionTable, ha, bind, Except.bind]
    case user =>
      have := prepareSignalContext_ne_transition (t.taken sig) sig
      cases hp : prepareSignalContext (t.taken sig) sig <;> simp_all [bind, Except.bind]
    all_goals simp [ha]

theorem taskProcessSignal_transition_iff (t : Task) : (∃ src dst, taskProcessSignal t = .error (.transition src dst)) ↔
      t.privilegeLevel = 3 ∧ t.interruptDepth = 1 ∧ t.state = .uninterruptible ∧
        t.signalScheduled = false ∧ t.signalPending = true ∧
        ∃ sig, nextSignal t 1 = some sig ∧ (t.sigEntries sig).action = .exit := by
  unfold taskProcessSignal
  split_ifs with hpl hst hpend
  · rw [handlePending_transition_iff t hst]
    simp [hpl, hpend]
  · simp only [exists_false, false_iff]
    rintro ⟨-, -, -, hsched, hpending, -⟩
    exact hpend ⟨hsched, hpending⟩
  · simp only [not_or] at hst
    simp [hst]
  simp only [not_and] at hpl
  simp only [exists_false, false_iff]
  rintro ⟨h1, h2, -⟩
  exact hpl h1 h2

variable {α β : Type}

theorem map_eq_error_iff (f : α → β) (x : Except Panic α) (p : Panic) : x.map f = .error p ↔ x = .error p := by
  cases x <;> simp [Except.map]

theorem map_eq_ok {f : α → β} {x : Except Panic α} {b : β} (h : x.map f = .ok b) : ∃ a, x = .ok a ∧ f a = b := by
  cases x with
  | error p => cases h
  | ok a => exact ⟨a, rfl, Except.ok.inj h⟩

variable {s : OneTask}

/-! ## Settled tasks -/

theorem settled_wakeUp (hs : Settled s) {e : Sig → SignalEntry} {p : Bool}
    (h : rawTaskWakeUp { s.task with sigEntries := e, signalPending := p } = .ok t) : Settled { s with task := t } := by
  obtain ⟨hst, rfl⟩ | ⟨hst, rfl⟩ | ⟨hst, rfl⟩ := rawTaskWakeUp_cases h
  · exact ⟨hs.nonStop, hs.cpu⟩
  · exact ⟨(fun hc => by cases hc), fun _ => Or.inl rfl⟩
  · exact ⟨fun _ => Or.inl rfl, fun _ => Or.inr ⟨hst, rfl⟩⟩

theorem settled_signal (hs : Settled s) (h : signalTask s.task sig = .ok t) : Settled { s with task := t } := by
  obtain rfl | ⟨hst, rfl⟩ | ⟨hst, rfl⟩ | h := signalTask_cases h
  · exact hs
  · refine ⟨fun _ => hst.symm, fun hc => Or.inr ⟨rfl, ?_⟩⟩
    rcases hs.cpu hc with hr | ⟨hu, -⟩
    · exact hr
    rw [hu] at hst
    simp at hst
  · refine ⟨fun hu => ?_, fun hc => Or.inl ?_⟩
    · rcases hs.nonStop hst with hn | hn <;> exact absurd (hn.symm.trans hu) (by decide)
    rcases hs.cpu hc with hr | ⟨-, hn⟩
    · exact absurd (hst.symm.trans hr) (by decide)
    · exact hn
  · exact settled_wakeUp hs h

variable {s' : OneTask}

theorem settled_step (hs : Settled s) {e : Event} (h : s.step e = .ok s') : Settled s' := by
  cases e with
  | signal sig _ =>
    obtain ⟨t, ht, rfl⟩ := map_eq_ok h
    exact settled_signal hs ht
  | wakeUp =>
    obtain ⟨t, ht, rfl⟩ := map_eq_ok h
    exact settled_wakeUp hs ht
  | block =>
    rw [OneTask.step] at h
    split_ifs at h
    · obtain ⟨t, ht, rfl⟩ := map_eq_ok h
      unfold transitState at ht
      split_ifs at ht
      cases Except.ok.inj ht
      exact ⟨(fun hc => by cases hc), (fun hc => by cases hc)⟩
    · cases h
      exact hs
  | sysSignal n handler =>
    cases h
    split_ifs
    · obtain hc | ⟨sig, -, hc⟩ := callSysSignal_cases s.task n handler <;> rw [hc]
      · exact hs
      · exact ⟨hs.nonStop, hs.cpu⟩
    · exact hs
  | dispatch =>
    cases h
    split_ifs with hr
    · exact ⟨hs.nonStop, fun _ => Or.inl hr⟩
    · exact hs
  | preempt =>
    cases h
    exact ⟨hs.nonStop, (fun hc => by cases hc)⟩

theorem settled_kstep (hs : Settled s) {e : KernelEvent} (h : s.kstep e = .ok s') : Settled s' := by
  cases e with
  | base e => exact settled_step hs h
  | interruptExit depth =>
    rw [OneTask.kstep] at h
    split_ifs at h with hc
    · obtain ⟨⟨t, r⟩, ht, rfl⟩ := map_eq_ok h
      obtain ⟨hst, hn⟩ | ⟨hst, rfl⟩ := taskProcessSignal_cases ht
      · exact ⟨fun hu => hn ▸ hs.nonStop (hst.symm.trans hu), fun _ => by simpa only [hst, hn] using hs.cpu hc⟩
      · exact ⟨fun hu => absurd (hst.symm.trans hu) (by decide), fun h => by simp at h⟩
    · cases h
      exact hs
  | signalReturn =>
    rw [OneTask.kstep] at h
    split_ifs at h
    · cases h
      exact ⟨hs.nonStop, hs.cpu⟩
    cases h
    exact hs

theorem step_ne_transition (hs : Settled s) (e : Event) (src dst : TaskState) :
    s.step e ≠ .error (.transition src dst) := by
  cases e with
  | signal sig _ =>
    rw [OneTask.step, Ne, map_eq_error_iff]
    exact signalTask_ne_transition sig hs.nonStop src dst
  | wakeUp =>
    rw [OneTask.step, Ne, map_eq_error_iff]
    exact rawTaskWakeUp_ne_transition s.task src dst
  | block =>
    rw [OneTask.step]
    split_ifs with hc
    · rcases hs.cpu hc with hst | ⟨hst, -⟩ <;>
        simp [transitState, hst, transitionTable, Except.map]
    · simp
  | sysSignal n h => simp [OneTask.step]
  | dispatch => simp [OneTask.step]
  | preempt => simp [OneTask.step]

theorem kstep_illegal_iff (hs : Settled s) (e : KernelEvent) :
    (∃ src dst, s.kstep e = .error (.transition src dst)) ↔ StoppedExit s e := by
  cases e with
  | base e => simp [OneTask.kstep, step_ne_transition hs, StoppedExit]
  | interruptExit depth =>
    rw [OneTask.kstep]
    split_ifs with hc
    · simp only [map_eq_error_iff, taskProcessSignal_transition_iff, StoppedExit,
        KernelEvent.interruptExit.injEq, hc, true_and]
      exact and_left_comm
    · simp [StoppedExit, hc]
  | signalReturn =>
    rw [OneTask.kstep]
    split_ifs <;> simp [StoppedExit]

theorem OneTask.krun_snoc (s : OneTask) (es : List KernelEvent) (e : KernelEvent) :
    s.krun (es ++ [e]) = s.krun es >>= fun s' => s'.kstep e := by
  simp [OneTask.krun, foldlM_append]

theorem settled_start (t : Task) : Settled (OneTask.start t) :=
  ⟨(fun hc => by cases hc), (fun hc => by cases hc)⟩

theorem settled_krun (t : Task) (es : List KernelEvent) (h : (OneTask.start t).krun es = .ok s) : Settled s := by
  induction es using List.reverseRecOn generalizing s with
  | nil =>
    cases h
    exact settled_start t
  | append_singleton es e ih =>
    rw [OneTask.krun_snoc] at h
    cases hr : (OneTask.start t).krun es with
    | error p => rw [hr] at h; cases h
    | ok s' => rw [hr] at h; exact settled_kstep (ih hr) h

theorem OneTask.krun_eq_error_iff (s : OneTask) (es : List KernelEvent) (p : Panic) : s.krun es = .error p ↔
      ∃ pre e s', pre ++ [e] <+: es ∧ s.krun pre = .ok s' ∧ s'.kstep e = .error p := by
  induction es using List.reverseRecOn with
  | nil => simp [OneTask.krun, pure, Except.pure]
  | append_singleton es e ih =>
    rw [OneTask.krun_snoc]
    cases hr : s.krun es with
    | error q =>
      rw [hr] at ih
      refine ih.trans ⟨?_, ?_⟩
      · rintro ⟨pre, e', s', hpre, h⟩
        exact ⟨pre, e', s', hpre.trans (prefix_append _ _), h⟩
      rintro ⟨pre, e', s', hpre, hrun, h⟩
      rcases prefix_concat_iff.mp hpre with heq | hpre
      · obtain ⟨rfl, -⟩ := append_inj' heq rfl
        rw [hr] at hrun
        cases hrun
      · exact ⟨pre, e', s', hpre, hrun, h⟩
    | ok s' =>
      rw [hr] at ih
      simp only [reduceCtorEq, false_iff] at ih
      refine ⟨fun h => ⟨es, e, s', prefix_rfl, hr, h⟩, ?_⟩
      rintro ⟨pre, e', s'', hpre, hrun, h⟩
      rcases prefix_concat_iff.mp hpre with heq | hpre
      · obtain ⟨rfl, he⟩ := append_inj' heq rfl
        cases he
        cases hr.symm.trans hrun
        exact h
      · exact absurd ⟨pre, e', s'', hpre, hrun, h⟩ ih

/-- **A run makes an illegal transition exactly when an interrupt exit terminates a stopped task.** -/
theorem transitionsLegal_iff (t : Task) (es : List KernelEvent) : TransitionsLegal t es ↔
      ∀ pre e s, pre ++ [e] <+: es → (OneTask.start t).krun pre = .ok s → ¬ StoppedExit s e := by
  constructor
  · intro h pre e s hpre hrun hexit
    obtain ⟨src, dst, hstep⟩ := (kstep_illegal_iff (settled_krun t pre hrun) e).mpr hexit
    exact h src dst ((OneTask.krun_eq_error_iff _ _ _).mpr ⟨pre, e, s, hpre, hrun, hstep⟩)
  intro h src dst hrun
  obtain ⟨pre, e, s, hpre, hpref, hstep⟩ := (OneTask.krun_eq_error_iff _ _ _).mp hrun
  exact h pre e s hpre hpref ((kstep_illegal_iff (settled_krun t pre hpref) e).mp ⟨src, dst, hstep⟩)

/-- With `SIGALARM` and `SIGTERM` pending, the second interrupt exit of a stopped task terminates it. -/
theorem not_transitionsLegal_self_stop : ¬ TransitionsLegal (createdTask true)
      [.base (.signal sigAlarm (by decide)), .base (.signal sigTerm (by decide)), .base .dispatch,
        .interruptExit 1, .base (.signal sigStop (by decide)), .interruptExit 1] := by
  intro h
  exact h .uninterruptible .exiting rfl

end ZeldaOS
