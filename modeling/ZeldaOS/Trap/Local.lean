import ZeldaOS.Task.Alive
import ZeldaOS.Trap.Depth

/-!
# Invariants of single tasks

A step of the system changes one task. An invariant that every such change keeps, every step keeps.

* `Local.step`: what survives a change of one task survives a step.
-/

namespace ZeldaOS

open Machine

/-! ## Changes of one task -/

inductive Finished (v : TrapTask) (esp new : Frame) : TrapTask → Option Frame → Prop where
  | yielded (t : Task) (hp : Processed v.task t .yielded) : Finished v esp new { v with task := t } none
  | normal (t : Task) (n : Nested) (ns : List Nested) (hp : Processed v.task t .normal)
      (hs : v.task.signalScheduled = false) (hn : v.traps = n :: ns) (hf : n.frame = esp) :
      Finished v esp new ((v.left t).popped n ns) (some esp)
  | signaled (n : Nested) (ns : List Nested) (hs : v.task.signalScheduled = true)
      (hn : v.traps = n :: ns) (hf : n.frame = v.signaledCpu) :
      Finished v esp new ((v.left v.task).popped n ns) (some v.signaledCpu)
  | handler (t : Task) (hp : Processed v.task t .signaled) (ha : v.task.Acts) :
      Finished v esp new (v.inHandler t new) (some new)

theorem finished_ends {v : TrapTask} {esp new : Frame} {P : TrapTask × Option Frame → Prop}
    {Q : TrapFault → Prop} (hpanic : ∀ p, taskProcessSignal v.task = .error p → Q (.panic p))
    (hdepth : Q .depth) (hstray : ∀ pl d f, Q (.stray pl d f))
    (hok : ∀ w f, Finished v esp new w f → P (w, f)) : Ends P Q (finish v esp new) := by
  refine finish_ends hpanic (fun _ => hdepth) (fun t hp => hok _ _ (.yielded t hp)) ?_ ?_
    fun t hp ha => hok _ _ (.handler t hp ha)
  · intro t hp hs
    exact iret_ends (hstray _ _ _) fun n ns hn hf => hok _ _ (.normal t n ns hp hs hn hf)
  intro hs
  exact iret_ends (hstray _ _ _) fun n ns hn hf => hok _ _ (.signaled n ns hs hn hf)

inductive Coded (C : TrapTask → TrapOp → Prop) (v : TrapTask) : Except Panic Task → Prop where
  | block (h : v.task.privilegeLevel ≠ 3) : Coded C v (transitState v.task .interruptible)
  | signal (sig : Sig) (h : sig ≠ 0) : Coded C v (signalTask v.task sig)
  | wakeUp : Coded C v (rawTaskWakeUp v.task)
  | sysSignal (n : ℤ) (h : ℕ) (hc : C v (.sysSignal n h)) : Coded C v (.ok (callSysSignal v.task n h))

section
variable (C : TrapTask → TrapOp → Prop) (I : ℕ → List Frame → TrapTask → Prop)
  (L : ℕ → List Frame → Frame → Prop) (Q : TrapFault → Prop)

/-! ## All tasks -/

/-- `I` holds of every task, and `L` of every frame restored so far. -/
structure Each (s : TrapState) : Prop where
  task : ∀ t v, s.tasks t = some v → I s.fresh s.exits v
  log : ∀ e ∈ s.log, L s.fresh s.exits e.frame
  exits : ∀ f ∈ s.exits, f.serial < s.fresh

def LeftIn (k : ℕ) (X : List Frame) (r : TrapTask × Option Frame) : Prop :=
  I k X r.1 ∧ ∀ f ∈ r.2, L k X f

/-- What one step can do, with the next interrupt `k` and the frames `X` of the exit calls. -/
structure Local : Prop where
  later : ∀ {k X v}, I k X v → I (k + 1) X v
  laterLog : ∀ {k X f}, L k X f → L (k + 1) X f
  others : ∀ {k X v}, I k X v → I (k + 1) (⟨k, true⟩ :: X) v
  othersLog : ∀ {k X f}, L k X f → L (k + 1) (⟨k, true⟩ :: X) f
  new : ∀ {k X} (user : Bool), (∀ f ∈ X, f.serial < k) → I (k + 1) X (newTask user ⟨k, user⟩)
  code : ∀ {k X v x}, I k X v → Coded C v x → Ends (fun t => I k X { v with task := t }) Q (inTrap x)
  trap : ∀ {k X v}, I k X v → v.task.state ≠ .exiting → (∀ f ∈ X, f.serial < k) →
    I (k + 1) X (v.trap ⟨k, decide v.InUser⟩ none)
  yieldCpu : ∀ {k X v}, I k X v → ¬v.InUser → (∀ f ∈ X, f.serial < k) →
    I (k + 1) X (v.trap ⟨k, decide v.InUser⟩ (some (v.cpu, v.signaledCpu)))
  sleep : ∀ {k X v t}, I k X v → ¬v.InUser → transitState v.task .interruptible = .ok t → (∀ f ∈ X, f.serial < k) →
    I (k + 1) X (TrapTask.trap { v with task := t } ⟨k, decide (TrapTask.InUser { v with task := t })⟩
      (some (v.cpu, v.signaledCpu)))
  insomnia : ∀ src dst, Q (.panic (.transition src dst))
  exit : ∀ {k X v esp}, I k X v → (∀ f ∈ X, f.serial < k) → v.task.state ≠ .exiting →
    (v.task.state = .running ∨ ∃ n ns, v.traps = n :: ns ∧ n.locals = none) →
    Ends (LeftIn I L (k + 1) X) Q (finish v esp ⟨k, true⟩)
  sigReturn : ∀ {k X v}, I k X v → (∀ f ∈ X, f.serial < k) → v.InUser → C v .sigReturn →
    if v.task.signalScheduled then
      Ends (LeftIn I L (k + 2) X) Q (finish (v.unparked ⟨k, true⟩) v.cpu ⟨k + 1, true⟩)
    else Q .sigReturn
  exitCall : ∀ {k X v}, I k X v → (∀ f ∈ X, f.serial < k) → v.InUser → C v .exitCall →
    Ends (fun t => Ends (LeftIn I L (k + 2) (⟨k, true⟩ :: X)) Q
      (finish { v.trap ⟨k, true⟩ none with task := t, exited := some ⟨k, true⟩ } ⟨k, true⟩
        ⟨k + 1, true⟩)) (fun p => Q (.panic p)) (callSysExit (v.trap ⟨k, true⟩ none).task)

end

section
variable {C : TrapTask → TrapOp → Prop} {I : ℕ → List Frame → TrapTask → Prop}
  {L : ℕ → List Frame → Frame → Prop} {Q : TrapFault → Prop} {s : TrapState} {t : ℕ} {v : TrapTask}

theorem each_start : Each I L .start where
  task t v h := by cases h
  log e h := by cases h
  exits f h := by cases h

theorem Each.setTask (h : Each I L s) (hv : I s.fresh s.exits v) : Each I L (s.setTask t v) := by
  refine ⟨fun u x hx => ?_, h.log, h.exits⟩
  rcases setTask_tasks hx with ⟨-, rfl⟩ | ⟨-, hx⟩
  · exact hv
  · exact h.task u x hx

variable (hI : Local C I L Q)
include hI

theorem Each.later (h : Each I L s) : Each I L ({ s with fresh := s.fresh + 1 } : TrapState) where
  task t v hv := hI.later (h.task t v hv)
  log e he := hI.laterLog (h.log e he)
  exits f hf := Nat.lt_succ_of_lt (h.exits f hf)

theorem Each.setTask_later (h : Each I L s) (hv : I (s.fresh + 1) s.exits v) :
    Each I L ({ s.setTask t v with fresh := s.fresh + 1 } : TrapState) :=
  (h.later hI).setTask hv

theorem Each.exitCall (h : Each I L s) :
    Each I L ({ s with fresh := s.fresh + 1, exits := ⟨s.fresh, true⟩ :: s.exits } : TrapState) where
  task t v hv := hI.others (h.task t v hv)
  log e he := hI.othersLog (h.log e he)
  exits f hf := by
    rcases List.mem_cons.1 hf with rfl | hf
    · exact Nat.lt_succ_self _
    · exact Nat.lt_succ_of_lt (h.exits f hf)

theorem Each.exit (h : Each I L s) {esp : Frame}
    (hv : Ends (LeftIn I L (s.fresh + 1) s.exits) Q (finish v esp ⟨s.fresh, true⟩)) :
    Ends (Each I L) Q (s.exit t v esp) := by
  refine hv.bind fun r _ hr => ?_
  obtain ⟨w, f⟩ := r
  obtain ⟨hw, hf⟩ := hr
  have hs : Each I L ({ s.setTask t w with fresh := s.fresh + 1 } : TrapState) :=
    h.setTask_later hI hw
  refine ⟨hs.task, fun e he => ?_, hs.exits⟩
  rcases List.mem_append.1 he with he | he
  · obtain ⟨f', hf', rfl⟩ := Option.map_eq_some_iff.1 (Option.mem_toList.1 he)
    exact hf f' hf'
  · exact hs.log e he

theorem Each.code (h : Each I L s) (hv : s.tasks t = some v)
    {x : Except Panic Task} (hx : Coded C v x) :
    Ends (Each I L) Q (inTrap x >>= fun task => .ok (s.setTask t { v with task })) :=
  (hI.code (h.task t v hv) hx).bind fun _ _ hw => h.setTask hw

/-- **An invariant that survives what can happen to one task holds after a step.** -/
theorem Local.step (s : TrapState) (op : TrapOp) (h : Each I L s)
    (hC : ∀ v ∈ s.currentTask, C v op) : Ends (Each I L) Q (s.step op) := by
  have hcur {t : ℕ} {v : TrapTask} (hc : s.current = some t) (hv : s.tasks t = some v) : C v op := by
    refine hC v ?_
    rw [TrapState.currentTask, hc]
    exact hv
  cases op with
  | spawn t user =>
    rw [TrapState.step]
    split_ifs
    · exact h.setTask_later hI (hI.new user h.exits)
    · exact h
  | trap =>
    unfold TrapState.step
    cases hc : s.current with
    | none =>
      have hl := h.later hI
      exact ⟨hl.task, hl.log, hl.exits⟩
    | some t =>
      refine TrapState.withTask_ends h fun v hv => ?_
      split_ifs with hx
      · exact h
      · exact h.setTask_later hI (hI.trap (h.task t v hv) hx h.exits)
  | yieldCpu =>
    refine TrapState.withCurrent_ends h fun t v hc hv => ?_
    split_ifs with hu
    · exact h
    · exact h.setTask_later hI (hI.yieldCpu (h.task t v hv) hu h.exits)
  | sleep =>
    refine TrapState.withCurrent_ends h fun t v hc hv => ?_
    split_ifs with hu
    · exact h
    refine (inTrap_ends (fun _ => id) fun p hp => ?_).bind fun task _ ht => ?_
    · rw [transitState_panic hp]
      exact hI.insomnia _ _
    · exact h.setTask_later hI (hI.sleep (h.task t v hv) (not_or.1 hu).1 ht h.exits)
  | block =>
    refine TrapState.withCurrent_ends h fun t v hc hv => ?_
    split_ifs with hpl
    · exact h
    · exact h.code hI hv (.block hpl)
  | signal t sig =>
    refine TrapState.withTask_ends h fun v hv => ?_
    split_ifs with h0
    · exact h
    · exact h.code hI hv (.signal sig h0)
  | wakeUp t => exact TrapState.withTask_ends h fun v hv => h.code hI hv .wakeUp
  | sysSignal n entry =>
    exact TrapState.withCurrent_ends h fun t v hc hv => h.code hI hv (.sysSignal n entry (hcur hc hv))
  | leave =>
    unfold TrapState.step
    cases hc : s.current with
    | none => exact ⟨h.task, h.log, h.exits⟩
    | some t =>
      refine TrapState.withTask_ends h fun v hv => ?_
      cases hn : v.traps with
      | nil => exact h
      | cons n ns =>
        dsimp only
        split_ifs with hl
        · exact h
        obtain ⟨hl, hx⟩ := not_or.1 hl
        refine h.exit hI (hI.exit (h.task t v hv) h.exits hx (.inr ⟨n, ns, hn, ?_⟩))
        simpa using hl
  | switch next =>
    refine TrapState.withTask_ends h fun v hv => ?_
    split_ifs with hs
    · exact h.exit hI (hI.exit (h.task next v hv) h.exits (by simp [hs.2]) (.inl hs.2))
    · exact h
  | sigReturn =>
    refine TrapState.sigReturn_ends h (fun v hv hu hs => ?_) fun t v hc hv hu hs => ?_
    · obtain ⟨t, hc, hv'⟩ := Option.bind_eq_some_iff.1 hv
      have := hI.sigReturn (h.task t v hv') h.exits hu (hC v hv)
      rwa [hs] at this
    have hfin := hI.sigReturn (h.task t v hv) h.exits hu (hcur hc hv)
    rw [hs] at hfin
    exact (h.later hI).exit hI hfin
  | exitCall =>
    refine TrapState.exitCall_ends h (fun v hv hu p hp => ?_) fun t v task hc hv hu ht => ?_
    · obtain ⟨t, hc, hv'⟩ := Option.bind_eq_some_iff.1 hv
      have hfin := hI.exitCall (h.task t v hv') h.exits hu (hC v hv)
      rwa [hp] at hfin
    have hfin := hI.exitCall (h.task t v hv) h.exits hu (hcur hc hv)
    rw [ht] at hfin
    exact (h.exitCall hI).exit hI hfin
  | reclaim t =>
    refine TrapState.withTask_ends h fun v hv => ?_
    split_ifs
    case neg => exact h
    refine ⟨fun u x hx => h.task u x ?_, h.log, h.exits⟩
    by_cases hu : u = t
    · simp [hu] at hx
    · simpa [hu] using hx

theorem Local.run {ops : List TrapOp}
    (h : Along TrapState.step (fun s op => ∀ v ∈ s.currentTask, C v op) .start ops) :
    Ends (Each I L) Q (runSteps TrapState.step .start ops) :=
  ends_run hI.step each_start h

end

end ZeldaOS
