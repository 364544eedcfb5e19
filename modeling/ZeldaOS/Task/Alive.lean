import ZeldaOS.Task.Legal

/-!
# Live tasks

What every change of a task from outside the exit path keeps, and when a wake-up or a signal succeeds.

* `evolves_signalTask`: a signal keeps a task alive.
* `signalTask_sent`: when a signal is sent.
-/

namespace ZeldaOS

def Task.Wakeable (v : Task) : Prop := ∃ v', rawTaskWakeUp v = .ok v'

/-- The task after a wake-up, if it can be woken. -/
def Task.awake (v : Task) : Task := ((rawTaskWakeUp v).toOption).getD v

variable {v : Task}

theorem Task.Wakeable.awake_eq (h : v.Wakeable) : rawTaskWakeUp v = .ok v.awake := by
  obtain ⟨v', h⟩ := h
  rw [Task.awake, h]
  rfl

theorem Task.Wakeable.again (h : v.Wakeable) : rawTaskWakeUp v.awake = .ok v.awake := by
  have hv := h.awake_eq
  rcases rawTaskWakeUp_cases hv with ⟨hst, he⟩ | ⟨-, he⟩ | ⟨hst, he⟩
  · rw [he, rawTaskWakeUp, hst]
  · rw [he]
    rfl
  rw [he, rawTaskWakeUp, hst]
  rfl

theorem Task.awake_of_exiting (h : v.state = .exiting) : v.awake = v := by
  rw [Task.awake, rawTaskWakeUp, h]
  rfl

structure Task.Alive (v : Task) : Prop where
  ne_zombie : v.state ≠ .zombie
  nonStop : v.state = .uninterruptible → v.nonStopState = .running ∨ v.nonStopState = .interruptible

/-- A change that neither ends nor revives a task. -/
structure Task.Evolves (v v' : Task) : Prop where
  alive : v.Alive → v'.Alive
  exiting : v.Alive → (v'.state = .exiting ↔ v.state = .exiting)
  depth : v.interruptDepth ≤ v'.interruptDepth

theorem Task.Alive.wakeable (h : v.Alive) (hx : v.state ≠ .exiting) : v.Wakeable := by
  cases hst : v.state with
  | zombie => exact absurd hst h.ne_zombie
  | running => exact ⟨v, by rw [rawTaskWakeUp, hst]⟩
  | interruptible => exact ⟨_, by rw [rawTaskWakeUp, hst, transitState, hst]; rfl⟩
  | uninterruptible => exact ⟨_, by rw [rawTaskWakeUp, hst]; exact if_pos (h.nonStop hst)⟩
  | exiting => exact absurd hst hx

variable {v' : Task}

theorem Task.Alive.congr (h : v.Alive) (hs : v'.state = v.state) (hn : v'.nonStopState = v.nonStopState) : v'.Alive :=
  ⟨hs ▸ h.ne_zombie, fun hu => hn ▸ h.nonStop (hs ▸ hu)⟩

theorem Task.Evolves.of_state_eq (hs : v'.state = v.state) (hn : v'.nonStopState = v.nonStopState)
    (hd : v.interruptDepth ≤ v'.interruptDepth) : v.Evolves v' :=
  ⟨fun h => h.congr hs hn, fun _ => by rw [hs], hd⟩

theorem Task.Evolves.trans {u w : Task} (h : u.Evolves v) (h' : v.Evolves w) : u.Evolves w :=
  ⟨fun ha => h'.alive (h.alive ha), fun ha => (h'.exiting (h.alive ha)).trans (h.exiting ha), h.depth.trans h'.depth⟩

theorem evolves_rawTaskWakeUp (h : rawTaskWakeUp v = .ok v') : v.Evolves v' := by
  rcases rawTaskWakeUp_cases h with ⟨-, rfl⟩ | ⟨hst, rfl⟩ | ⟨hst, rfl⟩
  · exact .of_state_eq rfl rfl le_rfl
  · refine ⟨fun _ => ⟨?_, ?_⟩, fun _ => ?_, le_rfl⟩ <;> simp [hst]
  refine ⟨fun _ => ⟨?_, fun _ => .inl rfl⟩, fun _ => Iff.rfl, le_rfl⟩
  simp [hst]

theorem evolves_awake (v : Task) : v.Evolves v.awake := by
  cases h : rawTaskWakeUp v with
  | error p =>
    rw [Task.awake, h]
    exact .of_state_eq rfl rfl le_rfl
  | ok v' =>
    rw [Task.awake, h]
    exact evolves_rawTaskWakeUp h

variable {sig : Sig}

theorem evolves_signalTask (h : signalTask v sig = .ok v') : v.Evolves v' := by
  rcases signalTask_cases h with rfl | ⟨hst, rfl⟩ | ⟨hst, rfl⟩ | h
  · exact .of_state_eq rfl rfl le_rfl
  · refine ⟨fun _ => ⟨by simp, fun _ => hst.symm⟩, fun _ => ?_, le_rfl⟩
    rcases hst with hst | hst <;> simp [hst]
  · refine ⟨fun ha => ?_, fun ha => ?_, le_rfl⟩
    · rcases ha.nonStop hst with hn | hn <;> exact ⟨by simp [hn], by simp [hn]⟩
    · rcases ha.nonStop hst with hn | hn <;> simp [hn, hst]
  have hw := evolves_rawTaskWakeUp h
  refine Task.Evolves.trans ?_ hw
  exact .of_state_eq rfl rfl le_rfl

theorem evolves_block (h : transitState v .interruptible = .ok v') :
    v'.state = .interruptible ∧ v'.interruptDepth = v.interruptDepth ∧ v.Evolves v' := by
  rw [transitState] at h
  split_ifs at h with ht
  cases Except.ok.inj h
  refine ⟨rfl, rfl, fun _ => ⟨by simp, by simp⟩, fun _ => ?_, le_rfl⟩
  cases hst : v.state <;> simp [hst, transitionTable] at ht ⊢

theorem evolves_callSysSignal (v : Task) (signal : ℤ) (handler : ℕ) : v.Evolves (callSysSignal v signal handler) := by
  obtain hc | ⟨sig, -, hc⟩ := callSysSignal_cases v signal handler <;> rw [hc]
  · exact .of_state_eq rfl rfl le_rfl
  · exact .of_state_eq rfl rfl le_rfl

theorem taskProcessSignal_alive {r : Resume} (h : taskProcessSignal v = .ok (v', r)) (ha : v.Alive) : v'.Alive := by
  rcases taskProcessSignal_cases h with ⟨hs, hn⟩ | ⟨hs, -⟩
  · exact ha.congr hs hn
  · exact ⟨by simp [hs], by simp [hs]⟩

theorem transitState_panic {st : TaskState} {p : Panic} (h : transitState v st = .error p) :
    p = .transition v.state st := by
  rw [transitState] at h
  split_ifs at h
  cases h
  rfl

theorem signalTask_sent (ha : v.Alive) (h0 : sig ≠ 0)
    (hx : ¬(v.state = .exiting ∧ (v.sigEntries sig).valid = true ∧ (v.sigEntries sig).action ≠ .stop ∧
      (v.sigEntries sig).action ≠ .continue)) :
    ∃ v', signalTask v sig = .ok v' := by
  by_cases hv : (v.sigEntries sig).valid = true
  · by_cases hs : (v.sigEntries sig).action = .stop
    · exact ⟨_, signalTask_stop h0 hv hs⟩
    by_cases hc : (v.sigEntries sig).action = .continue
    · exact ⟨_, signalTask_cont h0 hv hc ha.nonStop⟩
    rw [signalTask_other h0 hv hs hc]
    refine Task.Alive.wakeable (ha.congr rfl rfl) fun hst => hx ⟨hst, hv, hs, hc⟩
  · exact ⟨v, by rw [signalTask, if_neg h0, if_pos (by simpa using hv)]⟩

def Task.Asleep (v : Task) : Prop :=
  v.state = .interruptible ∨ v.state = .uninterruptible ∧ v.nonStopState = .interruptible

instance Task.decidableAsleep (v : Task) : Decidable v.Asleep := inferInstanceAs (Decidable (_ ∨ _))

structure Task.Lives (v : Task) : Prop where
  alive : v.Alive
  not_exiting : v.state ≠ .exiting

theorem Task.Evolves.lives (h : v.Evolves v') (hv : v.Lives) : v'.Lives :=
  ⟨h.alive hv.alive, fun hx => hv.not_exiting ((h.exiting hv.alive).1 hx)⟩

theorem rawTaskWakeUp_awake (h : rawTaskWakeUp v = .ok v') : ¬v'.Asleep := by
  rcases rawTaskWakeUp_cases h with ⟨hst, rfl⟩ | ⟨hst, rfl⟩ | ⟨hst, rfl⟩ <;>
    simp [Task.Asleep, hst]

theorem asleep_of_signalTask (h : signalTask v sig = .ok v') (hs : v'.Asleep) : v.Asleep := by
  rcases signalTask_cases h with rfl | ⟨hst, rfl⟩ | ⟨hst, rfl⟩ | h
  · exact hs
  · refine .inl (hs.elim (fun hi => by cases hi) fun hi => hi.2)
  · refine .inr ⟨hst, hs.elim id fun hi => by cases hi.2⟩
  · exact absurd hs (rawTaskWakeUp_awake h)

end ZeldaOS
