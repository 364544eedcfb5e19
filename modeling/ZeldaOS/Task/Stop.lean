import ZeldaOS.Task.Model
import Mathlib.Tactic

/-!
# Stopping and waking

One task under any interleaving of signals, wake-ups and its own blocking calls, against two
independent flags.

* `sim_step`: the states encode the two flags.
* `stopsAndWakes_iff`: when stopping and waking are independent.
-/

namespace ZeldaOS

open List

/-! ## Runs -/

structure OneTask where
  task : Task
  onCpu : Bool

/-- A signal may come from anywhere. `block` is `transit_state(current, TASK_STATE_INTERRUPTIBLE)` and `yield_cpu`, as
in `sleep`, `call_sys_wait0` and the device reads. -/
inductive Event where
  | signal (sig : Sig) (h : sig ≠ 0)
  | wakeUp
  | block
  | sysSignal (signal : ℤ) (handler : ℕ)
  | dispatch
  | preempt

def OneTask.step (s : OneTask) : Event → Except Panic OneTask
  | .signal sig _ => (signalTask s.task sig).map fun t => { s with task := t }
  | .wakeUp => (rawTaskWakeUp s.task).map fun t => { s with task := t }
  | .block =>
    if s.onCpu then (transitState s.task .interruptible).map fun t => ⟨t, false⟩ else .ok s
  | .sysSignal n h => .ok (if s.onCpu then { s with task := callSysSignal s.task n h } else s)
  | .dispatch => .ok (if s.task.state = .running then { s with onCpu := true } else s)
  | .preempt => .ok { s with onCpu := false }

def OneTask.run (s : OneTask) (es : List Event) : Except Panic OneTask := es.foldlM OneTask.step s

def OneTask.start (t : Task) : OneTask := ⟨taskSignalInit { t with state := .running }, false⟩

theorem OneTask.run_append (s : OneTask) (es es' : List Event) :
    s.run (es ++ es') = s.run es >>= fun s' => s'.run es' := by
  simp [OneTask.run, foldlM_append]

variable {s : OneTask} {es : List Event}

theorem OneTask.run_snoc {s' : OneTask} (e : Event) (h : s.run es = .ok s') : s.run (es ++ [e]) = s'.step e := by
  rw [OneTask.run_append, h]
  exact bind_pure (s'.step e)

/-! ## The flags -/

inductive SigClass where
  | stop | cont | other | unsupported
  deriving DecidableEq, Repr

/-- The stop signals, `SIGCONT`, the other signals and the numbers without one. -/
def sigClass (sig : Sig) : SigClass :=
  if sig ∈ [sigStop, sigTstp, sigTtin, sigTtou] then .stop
  else if sig = sigCont then .cont
  else if sig ∈ [sigHup, sigInt, sigQuit, sigIll, sigFpe, sigKill, sigSegv, sigSys, sigPipe,
    sigAlarm, sigTerm, sigUsr1, sigUsr2] then .other
  else .unsupported

structure Flags where
  stopped : Bool
  awake : Bool
  onCpu : Bool
  deriving DecidableEq, Repr

def Flags.start : Flags := ⟨false, true, false⟩

def Flags.step (f : Flags) : Event → Flags
  | .signal sig _ =>
    match sigClass sig with
    | .stop => { f with stopped := true }
    | .cont => { f with stopped := false }
    | .other => { f with awake := true }
    | .unsupported => f
  | .wakeUp => { f with awake := true }
  | .block => if f.onCpu then { f with awake := false, onCpu := false } else f
  | .sysSignal _ _ => f
  | .dispatch => if f.stopped = false ∧ f.awake = true then { f with onCpu := true } else f
  | .preempt => { f with onCpu := false }

def Flags.run (f : Flags) (es : List Event) : Flags := es.foldl Flags.step f

def Flags.state (f : Flags) : TaskState :=
  if f.stopped then .uninterruptible else if f.awake then .running else .interruptible

/-- The `non_stop_state` that stands for the flags of a stopped task. -/
def Flags.nonStopState (f : Flags) : TaskState := if f.awake then .running else .interruptible

/-- How `state` and `non_stop_state` encode the flags. -/
structure Sim (s : OneTask) (f : Flags) : Prop where
  cpu : s.onCpu = f.onCpu
  state : s.task.state = f.state
  nonStop : f.stopped = true → s.task.nonStopState = f.nonStopState

variable {f : Flags}

theorem Sim.uninterruptible_iff (h : Sim s f) : s.task.state = .uninterruptible ↔ f.stopped = true := by
  rw [h.state, Flags.state]
  split_ifs <;> simp_all

theorem Sim.running_iff (h : Sim s f) : s.task.state = .running ↔ f.stopped = false ∧ f.awake = true := by
  rw [h.state, Flags.state]
  split_ifs <;> simp_all

/-! ## Dispositions -/

def SignalEntry.Fits (e : SignalEntry) : SigClass → Prop
  | .stop => e.valid = true ∧ e.action = .stop ∧ e.overridable = false
  | .cont => e.valid = true ∧ e.action = .continue ∧ e.overridable = false
  | .other => e.valid = true ∧ e.action ≠ .stop ∧ e.action ≠ .continue
  | .unsupported => e.valid = false

def Task.Disposed (t : Task) : Prop := ∀ sig, (t.sigEntries sig).Fits (sigClass sig)

instance (e : SignalEntry) : (c : SigClass) → Decidable (e.Fits c)
  | .stop => inferInstanceAs (Decidable (_ ∧ _ ∧ _))
  | .cont => inferInstanceAs (Decidable (_ ∧ _ ∧ _))
  | .other => inferInstanceAs (Decidable (_ ∧ _ ∧ _))
  | .unsupported => inferInstanceAs (Decidable (_ = _))

theorem initEntry_fits : ∀ sig, (initEntry sig).Fits (sigClass sig) := by
  decide

variable {t : Task} {sig : Sig} {e : SignalEntry}

theorem Task.Disposed.setEntry (h : t.Disposed) (he : e.Fits (sigClass sig)) : (t.setEntry sig e).Disposed := by
  intro sig'
  by_cases hs : sig' = sig
  · subst hs
    simpa [Task.setEntry] using he
  · simpa [Task.setEntry, Function.update_of_ne hs] using h sig'

variable {c : SigClass}

theorem SignalEntry.Fits.signaled (h : e.Fits c) (b : Bool) : ({ e with signaled := b } : SignalEntry).Fits c := by
  cases c <;> exact h

theorem SignalEntry.Fits.override (h : e.Fits c) (hv : ¬ (e.valid = false ∨ e.overridable = false)) (n : ℕ) :
    ({ e with action := .user, userEntry := n } : SignalEntry).Fits c := by
  push Not at hv
  cases c with
  | stop => exact absurd h.2.2 hv.2
  | cont => exact absurd h.2.2 hv.2
  | other => exact ⟨h.1, by simp, by simp⟩
  | unsupported => exact absurd h hv.1

theorem callSysSignal_cases (t : Task) (n : ℤ) (entry : ℕ) : callSysSignal t n entry = t ∨ ∃ sig,
      ¬ ((t.sigEntries sig).valid = false ∨ (t.sigEntries sig).overridable = false) ∧ callSysSignal t n entry =
        t.setEntry sig { t.sigEntries sig with action := .user, userEntry := entry } := by
  unfold callSysSignal
  by_cases hn : 0 < n ∧ n < sigMax
  · dsimp only
    split_ifs with hv
    · exact Or.inl rfl
    · exact Or.inr ⟨_, hv, rfl⟩
  · exact Or.inl (dif_neg hn)

theorem disposed_callSysSignal (h : t.Disposed) (n : ℤ) (entry : ℕ) : (callSysSignal t n entry).Disposed := by
  obtain he | ⟨sig, hv, he⟩ := callSysSignal_cases t n entry
  · rwa [he]
  rw [he]
  exact h.setEntry ((h sig).override hv entry)

@[simp] theorem callSysSignal_state (t : Task) (n : ℤ) (entry : ℕ) : (callSysSignal t n entry).state = t.state := by
  obtain he | ⟨_, _, he⟩ := callSysSignal_cases t n entry <;> (rw [he]; try rfl)

@[simp] theorem callSysSignal_nonStopState (t : Task) (n : ℤ) (entry : ℕ) :
    (callSysSignal t n entry).nonStopState = t.nonStopState := by
  obtain he | ⟨_, _, he⟩ := callSysSignal_cases t n entry <;> (rw [he]; try rfl)

theorem rawTaskWakeUp_sim (h : Sim s f) :
    ∃ t, rawTaskWakeUp s.task = .ok t ∧ Sim { s with task := t } { f with awake := true } ∧
      t.sigEntries = s.task.sigEntries := by
  have hst := h.state
  unfold rawTaskWakeUp
  unfold Flags.state at hst
  split_ifs at hst with hs ha
  · have hn := h.nonStop hs
    have hok : s.task.nonStopState = .running ∨ s.task.nonStopState = .interruptible := by
      rw [hn, Flags.nonStopState]
      split_ifs <;> simp
    simp only [hst, if_pos hok]
    exact ⟨_, rfl, ⟨h.cpu, by simp [Flags.state, hs], fun _ => by simp [Flags.nonStopState]⟩, rfl⟩
  · simp only [hst]
    exact ⟨_, rfl, ⟨h.cpu, by simp [Flags.state, hs, hst], fun hs' => absurd hs' hs⟩, rfl⟩
  · simp only [hst]
    have ht : transitState s.task .running = .ok { s.task with state := .running } := by
      simp [transitState, hst, transitionTable]
    exact ⟨_, ht, ⟨h.cpu, by simp [Flags.state, hs], fun hs' => absurd hs' hs⟩, rfl⟩

theorem signalTask_stop (h0 : sig ≠ 0) (hv : (t.sigEntries sig).valid = true) (ha : (t.sigEntries sig).action = .stop) :
    signalTask t sig = .ok (if t.state = .interruptible ∨ t.state = .running then
      { t with nonStopState := t.state, state := .uninterruptible } else t) := by
  simp only [signalTask, h0, hv, ha, if_false, Bool.true_eq_false]
  split_ifs with hst
  · rcases hst with hst | hst <;> simp [transitState, hst, transitionTable]
  · rfl

theorem signalTask_cont (h0 : sig ≠ 0) (hv : (t.sigEntries sig).valid = true)
    (ha : (t.sigEntries sig).action = .continue)
    (hn : t.state = .uninterruptible → t.nonStopState = .running ∨ t.nonStopState = .interruptible) :
    signalTask t sig = .ok (if t.state = .uninterruptible then
      { t with state := t.nonStopState, nonStopState := .zombie } else t) := by
  simp only [signalTask, h0, hv, ha, if_false, Bool.true_eq_false]
  split_ifs with hst
  · rcases hn hst with hn | hn <;> simp [transitState, hst, hn, transitionTable] <;> rfl
  · rfl

theorem signalTask_other (h0 : sig ≠ 0) (hv : (t.sigEntries sig).valid = true) (hs : (t.sigEntries sig).action ≠ .stop)
    (hc : (t.sigEntries sig).action ≠ .continue) : signalTask t sig = rawTaskWakeUp
      { t.setEntry sig { t.sigEntries sig with signaled := true } with signalPending := true } := by
  simp only [signalTask, h0, hv, if_false, Bool.true_eq_false]

theorem signalTask_sim (h : Sim s f) (hd : s.task.Disposed) (sig : Sig) (h0 : sig ≠ 0) :
    ∃ t, signalTask s.task sig = .ok t ∧ Sim { s with task := t } (f.step (.signal sig h0)) ∧ t.Disposed := by
  have hfit := hd sig
  cases hc : sigClass sig with
  | stop =>
    rw [hc] at hfit
    refine ⟨_, signalTask_stop h0 hfit.1 hfit.2.1, ?_, ?_⟩
    · rw [Flags.step, hc]
      have hst := h.state
      unfold Flags.state at hst
      split_ifs at hst with hs ha <;> simp only [hst]
      · exact ⟨h.cpu, by simp [Flags.state, hst], fun _ => h.nonStop hs⟩
      · exact ⟨h.cpu, by simp [Flags.state], fun _ => by simp [Flags.nonStopState, ha]⟩
      · exact ⟨h.cpu, by simp [Flags.state], fun _ => by simp [Flags.nonStopState, ha]⟩
    · split_ifs <;> exact hd
  | cont =>
    rw [hc] at hfit
    have hn : s.task.state = .uninterruptible →
        s.task.nonStopState = .running ∨ s.task.nonStopState = .interruptible := by
      intro hst
      rw [h.nonStop (h.uninterruptible_iff.mp hst), Flags.nonStopState]
      split_ifs <;> simp
    refine ⟨_, signalTask_cont h0 hfit.1 hfit.2.1 hn, ?_, ?_⟩
    · rw [Flags.step, hc]
      split_ifs with hst
      · have hs := h.uninterruptible_iff.mp hst
        exact ⟨h.cpu, by simp [Flags.state, h.nonStop hs, Flags.nonStopState], by simp⟩
      have hs : f.stopped = false := by
        simpa using fun hs => hst (h.uninterruptible_iff.mpr hs)
      exact ⟨h.cpu, by simp [h.state, Flags.state, hs], by simp⟩
    · split_ifs <;> exact hd
  | other =>
    rw [hc] at hfit
    rw [signalTask_other h0 hfit.1 hfit.2.1 hfit.2.2, Flags.step, hc]
    have h' : Sim { s with task := { s.task.setEntry sig { s.task.sigEntries sig with
        signaled := true } with signalPending := true } } f := ⟨h.cpu, h.state, h.nonStop⟩
    obtain ⟨t, ht, hsim, he⟩ := rawTaskWakeUp_sim h'
    refine ⟨t, ht, hsim, fun sig' => ?_⟩
    rw [he]
    exact hd.setEntry ((hd sig).signaled true) sig'
  | unsupported =>
    rw [hc] at hfit
    have hv : (s.task.sigEntries sig).valid = false := hfit
    refine ⟨s.task, by simp [signalTask, h0, hv], ?_, hd⟩
    rwa [Flags.step, hc]

/-- A blocking call of a task that is stopped and still executing. -/
def StoppedBlock (s : OneTask) (e : Event) : Prop :=
  e = .block ∧ s.onCpu = true ∧ s.task.state = .uninterruptible

/-- **One step keeps the encoding**, unless the task blocks while it is stopped. -/
theorem sim_step (h : Sim s f) (hd : s.task.Disposed) (e : Event) (he : ¬ StoppedBlock s e) :
    ∃ s', s.step e = .ok s' ∧ Sim s' (f.step e) ∧ s'.task.Disposed := by
  cases e with
  | signal sig h0 =>
    obtain ⟨t, ht, hsim, hd'⟩ := signalTask_sim h hd sig h0
    exact ⟨_, by rw [OneTask.step, ht]; rfl, hsim, hd'⟩
  | wakeUp =>
    obtain ⟨t, ht, hsim, hentries⟩ := rawTaskWakeUp_sim h
    exact ⟨_, by rw [OneTask.step, ht]; rfl, hsim, fun sig => by rw [hentries]; exact hd sig⟩
  | block =>
    rw [OneTask.step, Flags.step, ← h.cpu]
    split_ifs with hcpu
    · have hst : s.task.state ≠ .uninterruptible := fun hst => he ⟨rfl, hcpu, hst⟩
      have hs : f.stopped = false := by simpa using fun hs => hst (h.uninterruptible_iff.mpr hs)
      have ht : transitState s.task .interruptible =
          .ok { s.task with state := .interruptible } := by
        rw [transitState, h.state, Flags.state, hs]
        cases f.awake <;> rfl
      exact ⟨⟨{ s.task with state := .interruptible }, false⟩, by rw [ht]; rfl,
        ⟨rfl, by simp [Flags.state, hs], by simp [hs]⟩, hd⟩
    · exact ⟨s, rfl, h, hd⟩
  | sysSignal n entry =>
    refine ⟨_, rfl, ?_, ?_⟩ <;> split_ifs
    · exact ⟨h.cpu, (callSysSignal_state ..).trans h.state, fun hs =>
        (callSysSignal_nonStopState ..).trans (h.nonStop hs)⟩
    · exact h
    · exact disposed_callSysSignal hd n entry
    · exact hd
  | dispatch =>
    refine ⟨_, rfl, ?_, ?_⟩
    · by_cases hst : s.task.state = .running
      · rw [if_pos hst, Flags.step, if_pos (h.running_iff.mp hst)]
        exact ⟨rfl, h.state, h.nonStop⟩
      rw [if_neg hst, Flags.step, if_neg (fun hf => hst (h.running_iff.mpr hf))]
      exact h
    · split_ifs <;> exact hd
  | preempt => exact ⟨_, rfl, ⟨rfl, h.state, h.nonStop⟩, hd⟩

def Event.IsCont (e : Event) : Prop := ∃ h, e = .signal sigCont h

def Event.Wakes (e : Event) : Prop := e = .wakeUp ∨ ∃ sig h, e = .signal sig h ∧ sigClass sig = .other

/-! ## Independence -/

/-- **Stopping and waking are independent along the run `es`.** -/
structure StopsAndWakes (t : Task) (es : List Event) : Prop where
  simulates : ∀ pre, pre <+: es → ∃ s, (OneTask.start t).run pre = .ok s ∧ Sim s (Flags.start.run pre)
  /-- A stopped task stays stopped until a `SIGCONT`, and keeps the wake-ups that arrive. -/
  stays : ∀ pre mid s s', pre ++ mid <+: es → (OneTask.start t).run pre = .ok s →
    s.task.state = .uninterruptible → (∀ e ∈ mid, ¬ e.IsCont) →
    (OneTask.start t).run (pre ++ mid) = .ok s' → s'.task.state = .uninterruptible ∧
      ((s.task.nonStopState = .running ∨ ∃ e ∈ mid, e.Wakes) → s'.task.nonStopState = .running)

def NeverStoppedBlock (t : Task) (es : List Event) : Prop :=
  ∀ pre e s, pre ++ [e] <+: es → (OneTask.start t).run pre = .ok s → ¬ StoppedBlock s e

theorem sim_start (t : Task) : Sim (OneTask.start t) Flags.start := ⟨rfl, rfl, by simp [Flags.start]⟩

theorem Flags.run_snoc (f : Flags) (es : List Event) (e : Event) : f.run (es ++ [e]) = (f.run es).step e := by
  simp [Flags.run]

theorem sim_run (h : NeverStoppedBlock t es) : ∀ pre, pre <+: es →
    ∃ s, (OneTask.start t).run pre = .ok s ∧ Sim s (Flags.start.run pre) ∧ s.task.Disposed := by
  intro pre
  induction pre using List.reverseRecOn with
  | nil => exact fun _ => ⟨_, rfl, sim_start t, initEntry_fits⟩
  | append_singleton pre e ih =>
    intro hp
    obtain ⟨s, hs, hsim, hd⟩ := ih ((prefix_append pre [e]).trans hp)
    obtain ⟨s', hs', hsim', hd'⟩ := sim_step hsim hd e (h pre e s hp hs)
    exact ⟨s', by rw [OneTask.run_snoc e hs, hs'], by rwa [Flags.run_snoc], hd'⟩

theorem sigClass_cont : ∀ sig, sigClass sig = .cont → sig = sigCont := by
  decide

theorem Flags.step_stopped {e : Event} (hs : f.stopped = true) (he : ¬ e.IsCont) : (f.step e).stopped = true := by
  cases e with
  | signal sig h0 =>
    have hc : sigClass sig ≠ .cont := by
      intro hc
      obtain rfl := sigClass_cont sig hc
      exact he ⟨h0, rfl⟩
    rw [Flags.step]
    cases h : sigClass sig <;> simp_all
  | block => rw [Flags.step]; split_ifs <;> exact hs
  | dispatch => rw [Flags.step]; split_ifs <;> exact hs
  | wakeUp | sysSignal | preempt => exact hs

theorem Flags.step_awake {e : Event} (ha : f.awake = true ∨ e.Wakes) (hb : e = .block → f.onCpu = false) :
    (f.step e).awake = true := by
  cases e with
  | signal sig h0 =>
    rw [Flags.step]
    rcases ha with ha | ha
    · cases sigClass sig <;> first | exact ha | rfl
    obtain ha | ⟨_, _, ha, hc⟩ := ha
    · cases ha
    cases ha
    rw [hc]
  | wakeUp => rfl
  | block =>
    rw [Flags.step, hb rfl]
    exact ha.resolve_right (by simp [Event.Wakes])
  | sysSignal => exact ha.resolve_right (by simp [Event.Wakes])
  | dispatch =>
    rw [Flags.step]
    split_ifs <;> exact ha.resolve_right (by simp [Event.Wakes])
  | preempt => exact ha.resolve_right (by simp [Event.Wakes])

theorem Sim.nonStop_running (h : Sim s f) (hs : f.stopped = true) :
    s.task.nonStopState = .running ↔ f.awake = true := by
  rw [h.nonStop hs, Flags.nonStopState]
  split_ifs <;> simp_all

theorem stays_of_never (h : NeverStoppedBlock t es) (pre : List Event) (s : OneTask)
    (hs : (OneTask.start t).run pre = .ok s) (hst : s.task.state = .uninterruptible) :
    ∀ mid, pre ++ mid <+: es → (∀ e ∈ mid, ¬ e.IsCont) → ∀ s',
      (OneTask.start t).run (pre ++ mid) = .ok s' → s'.task.state = .uninterruptible ∧
        ((s.task.nonStopState = .running ∨ ∃ e ∈ mid, e.Wakes) → s'.task.nonStopState = .running) := by
  intro mid
  induction mid using List.reverseRecOn with
  | nil =>
    intro _ _ s' hs'
    rw [append_nil, hs] at hs'
    cases hs'
    exact ⟨hst, fun hw => hw.resolve_right (by simp)⟩
  | append_singleton mid e ih =>
    intro hp hc s' hs'
    rw [← append_assoc] at hp hs'
    have hp1 := (prefix_append (pre ++ mid) [e]).trans hp
    obtain ⟨s1, hs1, hsim1, hd1⟩ := sim_run h _ hp1
    obtain ⟨s2, hs2, hsim2, -⟩ := sim_run h _ hp
    obtain rfl : s2 = s' := by rw [hs2] at hs'; exact Except.ok.inj hs'
    obtain ⟨hst1, hw1⟩ := ih hp1 (fun e' he' => hc e' (by simp [he'])) s1 hs1
    have hf1 := hsim1.uninterruptible_iff.mp hst1
    have hf2 : (Flags.start.run (pre ++ mid ++ [e])).stopped = true := by
      rw [Flags.run_snoc]
      exact Flags.step_stopped hf1 (hc e (by simp))
    refine ⟨hsim2.uninterruptible_iff.mpr hf2, fun hw => ?_⟩
    rw [hsim2.nonStop_running hf2, Flags.run_snoc]
    refine Flags.step_awake ?_ fun hb => ?_
    · rw [← hsim1.nonStop_running hf1]
      rcases hw with hw | ⟨e', he', hw⟩
      · exact Or.inl (hw1 (Or.inl hw))
      rcases mem_append.mp he' with he' | he'
      · exact Or.inl (hw1 (Or.inr ⟨e', he', hw⟩))
      · exact Or.inr (mem_singleton.mp he' ▸ hw)
    · rw [← hsim1.cpu]
      have hno := h _ e s1 hp hs1
      simpa using fun hcpu => hno ⟨hb, hcpu, hst1⟩

/-- **Stopping and waking are independent along a run exactly when no task that is stopped and still executes makes a
blocking call.** -/
theorem stopsAndWakes_iff (t : Task) (es : List Event) : StopsAndWakes t es ↔ NeverStoppedBlock t es := by
  constructor
  · rintro h pre e s hp hs ⟨rfl, hcpu, hst⟩
    obtain ⟨s0, hs0, hsim⟩ := h.simulates pre ((prefix_append pre [.block]).trans hp)
    obtain rfl : s0 = s := by rw [hs] at hs0; exact (Except.ok.inj hs0).symm
    obtain ⟨s1, hs1, hsim1⟩ := h.simulates _ hp
    -- the code leaves `INTERRUPTIBLE`, the flags are still stopped
    have hf := Flags.step_stopped (e := .block) (hsim.uninterruptible_iff.mp hst) (by simp [Event.IsCont])
    rw [← Flags.run_snoc] at hf
    have hst1 := hsim1.uninterruptible_iff.mpr hf
    rw [OneTask.run_snoc _ hs, OneTask.step, if_pos hcpu, transitState, hst] at hs1
    cases hs1
    cases hst1
  · intro h
    refine ⟨fun pre hp => ?_, fun pre mid s s' hp hs hst hc hs' => ?_⟩
    · obtain ⟨s, hs, hsim, -⟩ := sim_run h pre hp
      exact ⟨s, hs, hsim⟩
    · exact stays_of_never h pre s hs hst mid hp hc s' hs'

/-- A task that stops itself and then sleeps is no longer stopped. -/
theorem not_stopsAndWakes_self_stop : ¬ StopsAndWakes (createdTask true)
      [.dispatch, .signal sigStop (by decide), .block] := by
  intro h
  obtain ⟨s, hs, hsim⟩ := h.simulates _ (prefix_refl _)
  cases hs
  exact absurd hsim.state (by decide)

end ZeldaOS
