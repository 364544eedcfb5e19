import ZeldaOS.Task.WaitQueue
import Mathlib.Logic.Relation

/-!
# Calls on a task

The models of the scheduler, of the interrupts, of the work queues and of a single task all change a task through the
calls of `TaskCall`. A task that is not `current` sees only some of them.

* `Task.Touched.keeps`: such a call keeps the privilege level, and neither revives nor ends the task.
-/

namespace ZeldaOS

/-! ## The calls -/

/-- `block` is `transit_state` to `TASK_STATE_INTERRUPTIBLE`, and `enter` and `leave` count `interrupt_depth`. -/
inductive TaskCall where
  | block
  | wakeUp
  | signal (sig : Sig)
  | sysSignal (signal : ℤ) (handler : ℕ)
  | processSignal
  | signalReturn
  | enter
  | leave

def Task.call (t : Task) : TaskCall → Except Panic Task
  | .block => transitState t .interruptible
  | .wakeUp => rawTaskWakeUp t
  | .signal sig => signalTask t sig
  | .sysSignal signal handler => .ok (callSysSignal t signal handler)
  | .processSignal => (taskProcessSignal t).map Prod.fst
  | .signalReturn => if t.signalScheduled then .ok { t with signalScheduled := false } else .error .assertion
  | .enter => .ok { t with interruptDepth := t.interruptDepth + 1 }
  | .leave => .ok { t with interruptDepth := t.interruptDepth - 1 }

/-- The second task comes from the first one by calls. -/
def Task.Becomes : Task → Task → Prop := Relation.ReflTransGen fun t t' => ∃ call, t.call call = .ok t'

/-- The calls of an interrupt exit. -/
def TaskCall.exits : TaskCall → Bool
  | .processSignal | .leave => true
  | _ => false

/-- The task is left alone, or called once outside of an interrupt exit. -/
def Task.Touched (t t' : Task) : Prop := t' = t ∨ ∃ call, call.exits = false ∧ t.call call = .ok t'

variable {t t' v v' : Task}

theorem Task.Becomes.next {c : TaskCall} (h : t.Becomes v) (hcall : v.call c = .ok v') : t.Becomes v' :=
  h.tail ⟨c, hcall⟩

theorem Task.Touched.becomes (h : v.Touched v') : v.Becomes v' := by
  rcases h with rfl | ⟨call, -, hcall⟩
  · exact .refl
  · exact .single ⟨call, hcall⟩

theorem Task.touched_awake (v : Task) : v.Touched v.awake := by
  cases h : rawTaskWakeUp v with
  | error p =>
    rw [Task.awake, h]
    exact .inl rfl
  | ok v' =>
    rw [Task.awake, h]
    exact .inr ⟨.wakeUp, rfl, h⟩

theorem touched_wakeAll (task : ℕ → Task) (ws : List ℕ) (t : ℕ) : (task t).Touched (wakeAll task ws t) := by
  rw [wakeAll]
  split_ifs
  · exact Task.touched_awake _
  · exact .inl rfl

/-! ## What a call keeps -/

/-- What the call does not see of an interrupt. -/
structure Task.SameContext (t t' : Task) : Prop where
  interruptDepth : t'.interruptDepth = t.interruptDepth
  privilegeLevel : t'.privilegeLevel = t.privilegeLevel
  signalScheduled : t'.signalScheduled = t.signalScheduled

theorem Task.SameContext.refl (t : Task) : t.SameContext t := ⟨rfl, rfl, rfl⟩

theorem Task.SameContext.trans {t u w : Task} (h : t.SameContext u) (h' : u.SameContext w) : t.SameContext w :=
  ⟨h'.interruptDepth.trans h.interruptDepth, h'.privilegeLevel.trans h.privilegeLevel,
    h'.signalScheduled.trans h.signalScheduled⟩

theorem transitState_context {st : TaskState} (h : transitState t st = .ok t') : t.SameContext t' := by
  rw [transitState] at h
  split_ifs at h
  cases h
  exact ⟨rfl, rfl, rfl⟩

theorem rawTaskWakeUp_context (h : rawTaskWakeUp t = .ok t') : t.SameContext t' := by
  rcases rawTaskWakeUp_cases h with ⟨-, rfl⟩ | ⟨-, rfl⟩ | ⟨-, rfl⟩ <;> exact ⟨rfl, rfl, rfl⟩

theorem signalTask_context {sig : Sig} (h : signalTask t sig = .ok t') : t.SameContext t' := by
  rcases signalTask_cases h with rfl | ⟨-, rfl⟩ | ⟨-, rfl⟩ | h
  · exact ⟨rfl, rfl, rfl⟩
  · exact ⟨rfl, rfl, rfl⟩
  · exact ⟨rfl, rfl, rfl⟩
  obtain ⟨hd, hp, hs⟩ := rawTaskWakeUp_context h
  exact ⟨hd, hp, hs⟩

theorem callSysSignal_context (t : Task) (n : ℤ) (entry : ℕ) : t.SameContext (callSysSignal t n entry) := by
  obtain he | ⟨sig, -, he⟩ := callSysSignal_cases t n entry
  · rw [he]
    exact .refl t
  rw [he]
  exact ⟨rfl, rfl, rfl⟩

structure Task.Keeps (v v' : Task) : Prop where
  evolves : v.Evolves v'
  privilegeLevel : v'.privilegeLevel = v.privilegeLevel

theorem Task.Keeps.refl (v : Task) : v.Keeps v := ⟨.of_state_eq rfl rfl le_rfl, rfl⟩

theorem keeps_block (h : transitState v .interruptible = .ok v') : v.Keeps v' :=
  ⟨(evolves_block h).2.2, (transitState_context h).privilegeLevel⟩

theorem Task.Touched.keeps (h : v.Touched v') : v.Keeps v' := by
  obtain rfl | ⟨call, hexits, hcall⟩ := h
  · exact .refl _
  cases call with
  | block => exact keeps_block hcall
  | wakeUp => exact ⟨evolves_rawTaskWakeUp hcall, (rawTaskWakeUp_context hcall).privilegeLevel⟩
  | signal sig => exact ⟨evolves_signalTask hcall, (signalTask_context hcall).privilegeLevel⟩
  | sysSignal signal handler =>
    cases hcall
    exact ⟨evolves_callSysSignal _ _ _, (callSysSignal_context _ _ _).privilegeLevel⟩
  | processSignal => cases hexits
  | signalReturn =>
    rw [Task.call] at hcall
    split_ifs at hcall
    cases hcall
    exact ⟨.of_state_eq rfl rfl le_rfl, rfl⟩
  | enter =>
    cases hcall
    exact ⟨.of_state_eq rfl rfl (Nat.le_succ _), rfl⟩
  | leave => cases hexits

end ZeldaOS
