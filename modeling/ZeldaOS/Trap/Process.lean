import ZeldaOS.Task.Calls
import ZeldaOS.Task.Pending
import ZeldaOS.Trap.Model

/-!
# The end of an interrupt

What `task_process_signal` and the return behind it can do, said once.

* `processed_of_eq_ok`: what `task_process_signal` does.
* `finish_ends`: what the end of an interrupt does.
-/

namespace ZeldaOS

open Machine

/-! ## Signals -/

/-- What `task_process_signal` can do: nothing; clear `signal_pending`; or take the lowest signal and ignore it, exit,
or prepare its handler. -/
inductive Processed (t : Task) : Task → Resume → Prop where
  | skip (ha : ¬t.Acts) : Processed t t (resumeOf t)
  | none (ha : t.Acts) (hn : nextSignal t 1 = none) : Processed t { t with signalPending := false } .normal
  | ignore (sig : Sig) (ha : t.Acts) (hn : nextSignal t 1 = some sig)
      (hi : (t.sigEntries sig).action = .ignore) : Processed t (t.taken sig) .normal
  | exit (sig : Sig) (ha : t.Acts) (hn : nextSignal t 1 = some sig)
      (hx : (t.sigEntries sig).action = .exit) :
      Processed t { t.taken sig with state := .exiting } .yielded
  | user (sig : Sig) (ha : t.Acts) (hn : nextSignal t 1 = some sig)
      (hu : (t.sigEntries sig).action = .user) :
      Processed t { t.taken sig with
        signaledCpu := some (signalFrame ((t.taken sig).sigEntries sig).userEntry)
        signalScheduled := true } .signaled

@[simp] theorem Task.taken_interruptDepth (t : Task) (sig : Sig) : (t.taken sig).interruptDepth = t.interruptDepth := by
  unfold Task.taken; dsimp only; split_ifs <;> rfl

@[simp] theorem Task.taken_privilegeLevel (t : Task) (sig : Sig) : (t.taken sig).privilegeLevel = t.privilegeLevel := by
  unfold Task.taken; dsimp only; split_ifs <;> rfl

@[simp] theorem Task.taken_signalScheduled (t : Task) (sig : Sig) :
    (t.taken sig).signalScheduled = t.signalScheduled := by
  unfold Task.taken; dsimp only; split_ifs <;> rfl

variable {t : Task}

theorem Task.Acts.resumeOf (h : t.Acts) : resumeOf t = .normal := by
  rw [ZeldaOS.resumeOf, if_neg (by simp [h.2.2.1])]

variable {t' : Task} {r : Resume}

theorem processed_of_eq_ok (h : taskProcessSignal t = .ok (t', r)) : Processed t t' r := by
  unfold taskProcessSignal at h
  split_ifs at h with hpl hst hpend
  · have ha : t.Acts := ⟨hpl.1, hpl.2, hpend.1, hpend.2⟩
    cases hn : nextSignal t 1 with
    | none =>
      have hr : resumeOf { t with signalPending := false } = .normal := ha.resumeOf
      rw [handlePending, hn] at h
      cases h
      rw [hr]
      exact .none ha hn
    | some sig =>
      have hr : resumeOf (t.taken sig) = .normal := by
        rw [resumeOf, if_neg (by simp [ha.2.2.1])]
      rw [handlePending_some hn] at h
      cases hact : (t.sigEntries sig).action <;> rw [hact] at h
      case ignore =>
        rw [hr] at h
        cases h
        exact .ignore sig ha hn hact
      case exit =>
        simp only [transitState, bind, Except.bind] at h
        split_ifs at h
        cases h
        exact .exit sig ha hn hact
      case user =>
        simp only [prepareSignalContext, bind, Except.bind] at h
        split_ifs at h
        cases h
        exact .user sig ha hn hact
      all_goals cases h
  · cases h
    exact .skip fun ha => hpend ⟨ha.2.2.1, ha.2.2.2⟩
  · cases h
    exact .skip fun ha => hpl ⟨ha.1, ha.2.1⟩

theorem Processed.interruptDepth (h : Processed t t' r) : t'.interruptDepth = t.interruptDepth := by
  cases h <;> simp

theorem Processed.privilegeLevel (h : Processed t t' r) : t'.privilegeLevel = t.privilegeLevel := by
  cases h <;> simp

theorem Processed.resume (h : Processed t t' r) :
    (r = .normal ∧ t.signalScheduled = false ∧ t'.signalScheduled = false) ∨
    (r = .signaled ∧ t.signalScheduled = true ∧ t' = t) ∨ (r = .signaled ∧ t.Acts ∧ t'.signalScheduled = true) ∨
    (r = .yielded ∧ t.Acts ∧ t'.signalScheduled = false ∧ t'.state = .exiting) := by
  cases h with
  | skip ha =>
    cases hs : t.signalScheduled with
    | false => exact .inl ⟨by rw [resumeOf, hs]; rfl, rfl, rfl⟩
    | true => exact .inr (.inl ⟨by rw [resumeOf, hs]; rfl, rfl, rfl⟩)
  | none ha hn => exact .inl ⟨rfl, ha.2.2.1, ha.2.2.1⟩
  | ignore sig ha => exact .inl ⟨rfl, ha.2.2.1, by simp [ha.2.2.1]⟩
  | exit sig ha => exact .inr (.inr (.inr ⟨rfl, ha, by simp [ha.2.2.1], rfl⟩))
  | user sig ha => exact .inr (.inr (.inl ⟨rfl, ha, rfl⟩))

theorem Processed.of_normal (h : Processed t t' .normal) : t'.signalScheduled = false := by
  simpa using And.right (by simpa using h.resume)

theorem Processed.of_yielded (h : Processed t t' .yielded) :
    t.Acts ∧ t'.signalScheduled = false ∧ t'.state = .exiting := by
  simpa using h.resume

theorem callSysExit_context (h : callSysExit t = .ok t') : t.SameContext t' := by
  obtain ⟨u, hu, h⟩ := bind_eq_ok h
  exact (signalTask_context hu).trans (signalTask_context h)

/-! ## Returns -/

def TrapTask.left (v : TrapTask) (t : Task) : TrapTask :=
  { v with task := { t with interruptDepth := t.interruptDepth - 1 } }

def TrapTask.inHandler (v : TrapTask) (t : Task) (new : Frame) : TrapTask :=
  { v.left t with
    signaledCpu := new
    handling := nextSignal v.task 1
    traps := []
    parked := v.traps }

variable {v : TrapTask} {Q : TrapFault → Prop} {pl d : ℕ}

theorem taskPost_ends {P : TrapTask → Prop} (hdepth : v.task.interruptDepth = 0 → Q .depth)
    (h : v.task.interruptDepth ≠ 0 → P (v.left v.task)) : Ends P Q (taskPostInterruptHandler v) := by
  rw [taskPostInterruptHandler]
  split_ifs with h0
  · exact hdepth h0
  · exact h h0

def TrapTask.popped (v : TrapTask) (n : Nested) (ns : List Nested) : TrapTask :=
  { v with
    traps := ns
    cpu := (n.locals.map Prod.fst).getD v.cpu
    signaledCpu := (n.locals.map Prod.snd).getD v.signaledCpu }

theorem iret_top {n : Nested} {ns : List Nested} (h : v.traps = n :: ns) :
    iret v pl d n.frame = .ok (v.popped n ns) := by
  unfold iret
  rw [h]
  dsimp only
  cases hl : n.locals <;> simp [TrapTask.popped, hl]

theorem iret_ends {P : TrapTask → Prop} {f : Frame} (hstray : Q (.stray pl d f))
    (h : ∀ n ns, v.traps = n :: ns → n.frame = f → P (v.popped n ns)) : Ends P Q (iret v pl d f) := by
  cases hv : v.traps with
  | nil =>
    rw [iret, hv]
    exact hstray
  | cons n ns =>
    by_cases hf : n.frame = f
    · rw [← hf, iret_top hv]
      exact h n ns hv hf
    rw [iret, hv]
    dsimp only
    rw [if_neg hf]
    exact hstray

theorem finish_ends {esp new : Frame} {P : TrapTask × Option Frame → Prop}
    (hpanic : ∀ p, taskProcessSignal v.task = .error p → Q (.panic p)) (hdepth : v.task.interruptDepth = 0 → Q .depth)
    (hyield : ∀ t, Processed v.task t .yielded → P ({ v with task := t }, none))
    (hnormal : ∀ t, Processed v.task t .normal → v.task.signalScheduled = false → Ends (fun w => P (w, some esp)) Q
        (iret (v.left t) v.task.privilegeLevel v.task.interruptDepth esp)) (hsignaled : v.task.signalScheduled = true →
      Ends (fun w => P (w, some v.signaledCpu)) Q
        (iret (v.left v.task) v.task.privilegeLevel v.task.interruptDepth v.signaledCpu))
    (hhandler : ∀ t, Processed v.task t .signaled → v.task.Acts →
      P (v.inHandler t new, some new)) : Ends P Q (finish v esp new) := by
  unfold finish processSignal
  cases h : taskProcessSignal v.task with
  | error p => exact hpanic p h
  | ok tr =>
    obtain ⟨t, r⟩ := tr
    have hp := processed_of_eq_ok h
    have hd := hp.interruptDepth
    rcases hp.resume with ⟨rfl, hs, -⟩ | ⟨rfl, hs, rfl⟩ | ⟨rfl, ha, hs⟩ | ⟨rfl, -⟩
    · refine (taskPost_ends (fun h0 => hdepth (hd ▸ h0)) fun _ => rfl).bind fun w _ hw => ?_
      subst hw
      exact (hnormal t hp hs).bind fun w _ hw => hw
    · simp only [hs, if_true]
      refine (taskPost_ends hdepth fun _ => rfl).bind fun w _ hw => ?_
      subst hw
      exact (hsignaled hs).bind fun w _ hw => hw
    · simp only [ha.2.2.1, Bool.false_eq_true, if_false]
      refine (taskPost_ends (fun h0 => hdepth (hd ▸ h0)) fun _ => rfl).bind fun w _ hw => ?_
      subst hw
      exact hhandler t hp ha
    · exact hyield t hp

/-! ## System calls -/

theorem trap_task (v : TrapTask) (f : Frame) (locals : Option (Frame × Frame)) :
    (v.trap f locals).task = { v.task with interruptDepth := v.task.interruptDepth + 1 } := by
  cases hs : v.task.signalScheduled <;> simp [TrapTask.trap, taskPreInterruptHandler, hs]

theorem trap_parked (v : TrapTask) (f : Frame) (locals : Option (Frame × Frame)) :
    (v.trap f locals).parked = v.parked := by
  cases hs : v.task.signalScheduled <;> simp [TrapTask.trap, taskPreInterruptHandler, hs]

theorem trap_cpu (f : Frame) (locals : Option (Frame × Frame)) (hs : v.task.signalScheduled = true) :
    (v.trap f locals).cpu = v.cpu := by
  simp [TrapTask.trap, taskPreInterruptHandler, hs]

/-- What was parked is to be returned from again, and the interrupt of the fault never returns. -/
def TrapTask.unparked (v : TrapTask) (f : Frame) : TrapTask :=
  { v.trap f none with
    task := { v.task with
      interruptDepth := v.task.interruptDepth + 1
      signalScheduled := false }
    traps := v.parked
    parked := [] }

theorem returnFromPl3SignalContext_trap (v : TrapTask) (f : Frame) : returnFromPl3SignalContext (v.trap f none) f =
      if v.task.signalScheduled = true then
        .ok ({ v.trap f none with
          task := { v.task with
            interruptDepth := v.task.interruptDepth + 1
            signalScheduled := false } }, v.cpu)
      else .error .sigReturn := by
  cases hs : v.task.signalScheduled <;>
    simp [returnFromPl3SignalContext, TrapTask.trap, taskPreInterruptHandler, hs]

theorem inTrap_ends {A : Type} {x : Except Panic A} {P : A → Prop} (hp : ∀ a, x = .ok a → P a)
    (hq : ∀ p, x = .error p → Q (.panic p)) : Ends P Q (inTrap x) := by
  cases x with
  | ok a => exact hp a rfl
  | error p => exact hq p rfl

namespace TrapState

variable {s : TrapState} {P : TrapState → Prop}

theorem withTask_ends {t : ℕ} {f : TrapTask → Except TrapFault TrapState} (hs : P s)
    (hf : ∀ v, s.tasks t = some v → Ends P Q (f v)) : Ends P Q (s.withTask t f) := by
  unfold withTask
  cases h : s.tasks t with
  | none => exact hs
  | some v => exact hf v h

theorem withCurrent_ends {f : ℕ → TrapTask → Except TrapFault TrapState} (hs : P s)
    (hf : ∀ t v, s.current = some t → s.tasks t = some v → Ends P Q (f t v)) : Ends P Q (s.withCurrent f) := by
  unfold withCurrent
  cases h : s.current with
  | none => exact hs
  | some t => exact withTask_ends hs fun v hv => hf t v h hv

theorem sigReturn_ends (hs : P s)
    (hassert : ∀ v ∈ s.current.bind s.tasks, v.InUser → v.task.signalScheduled = false → Q .sigReturn)
    (hexit : ∀ t v, s.current = some t → s.tasks t = some v → v.InUser → v.task.signalScheduled = true →
      Ends P Q (({ s with fresh := s.fresh + 1 } : TrapState).exit t
        (v.unparked ⟨s.fresh, true⟩) v.cpu)) : Ends P Q (s.step .sigReturn) := by
  refine withCurrent_ends hs fun t v hc hv => ?_
  split_ifs with huser
  case neg => exact hs
  dsimp only
  rw [returnFromPl3SignalContext_trap]
  split_ifs with hsig
  · have hx := hexit t v hc hv huser hsig
    rw [TrapTask.unparked, ← trap_parked v ⟨s.fresh, true⟩ none] at hx
    exact hx
  refine hassert v ?_ huser (by simpa using hsig)
  rw [hc]
  exact hv

theorem exitCall_ends (hs : P s) (hpanic : ∀ v ∈ s.current.bind s.tasks, v.InUser → ∀ p,
      callSysExit (v.trap ⟨s.fresh, true⟩ none).task = .error p → Q (.panic p))
    (hexit : ∀ t v task, s.current = some t → s.tasks t = some v → v.InUser →
      callSysExit (v.trap ⟨s.fresh, true⟩ none).task = .ok task →
      Ends P Q (({ s with fresh := s.fresh + 1, exits := ⟨s.fresh, true⟩ :: s.exits } : TrapState).exit t
        { v.trap ⟨s.fresh, true⟩ none with task, exited := some ⟨s.fresh, true⟩ }
        ⟨s.fresh, true⟩)) : Ends P Q (s.step .exitCall) := by
  refine withCurrent_ends hs fun t v hc hv => ?_
  split_ifs with huser
  case neg => exact hs
  refine (inTrap_ends (fun _ => id) fun p hp => ?_).bind fun task _ htask => hexit t v task hc hv huser htask
  refine hpanic v ?_ huser p hp
  rw [hc]
  exact hv

end TrapState

end ZeldaOS
