import ZeldaOS.Sched.Run
import ZeldaOS.Task.Calls

/-!
# Waking tasks

A timer or a wait queue entry lives on the stack of the blocking call that made it, so it wakes its task only until
that call returns.

* `not_deadWakeUp`: no step wakes a dead task, unless it signals an exiting one.
-/

namespace ZeldaOS

open Machine Function

/-! ## Runs -/

/-- With the interrupt depth at which a task entered its blocking call. -/
structure KernelState where
  sched : SchedState
  inside : ℕ → Option ℕ

/-- A step of the scheduler's system, or the return of the current task from its blocking call. -/
inductive KernelOp where
  | sched (op : SchedOp)
  | callReturn

def KernelState.cur (k : KernelState) : Task := k.sched.task k.sched.current

def KernelOp.Allowed (c : SchedLayout) (k : KernelState) : KernelOp → Prop
  | .sched (.signal t sig) => t ∈ k.sched.live ∧ sig ≠ 0
  | .sched (.wakeUp t) => t ∈ k.sched.live ∧ (k.inside t).isSome
  | .sched .block => k.sched.current ≠ 0 ∧
      (∀ d ∈ k.inside k.sched.current, d = k.cur.interruptDepth) ∧
      (k.cur.interruptDepth = 0 → k.cur.privilegeLevel ≠ 3)
  | .sched .leave => SchedOp.Allowed c k.sched .leave ∧
      ∀ d ∈ k.inside k.sched.current, d < k.cur.interruptDepth
  | .sched op => op.Allowed c k.sched
  | .callReturn => k.sched.current ≠ 0 ∧ k.inside k.sched.current = some k.cur.interruptDepth

instance KernelOp.decidableAllowed (c : SchedLayout) (k : KernelState) :
    (op : KernelOp) → Decidable (op.Allowed c k)
  | .sched (.signal _ _) => inferInstanceAs (Decidable (_ ∧ _))
  | .sched (.wakeUp _) => inferInstanceAs (Decidable (_ ∧ _))
  | .sched .block => inferInstanceAs (Decidable (_ ∧ _ ∧ _))
  | .sched .leave => inferInstanceAs (Decidable (_ ∧ _))
  | .sched (.spawn t v) => SchedOp.decidableAllowed c k.sched (.spawn t v)
  | .sched (.wait0 id) => SchedOp.decidableAllowed c k.sched (.wait0 id)
  | .sched .wait0Return => SchedOp.decidableAllowed c k.sched .wait0Return
  | .sched (.sysSignal n h) => SchedOp.decidableAllowed c k.sched (.sysSignal n h)
  | .sched .sigReturn => SchedOp.decidableAllowed c k.sched .sigReturn
  | .sched .enter => SchedOp.decidableAllowed c k.sched .enter
  | .sched .schedule => SchedOp.decidableAllowed c k.sched .schedule
  | .callReturn => inferInstanceAs (Decidable (_ ∧ _))

def KernelState.insideAfter (k : KernelState) : SchedOp → ℕ → Option ℕ
  | .block => update k.inside k.sched.current (some k.cur.interruptDepth)
  | .spawn t _ => update k.inside t none
  | _ => k.inside

def KernelState.step (c : SchedLayout) (k : KernelState) (op : KernelOp) :
    Except Crash KernelState :=
  if op.Allowed c k then
    match op with
    | .sched op => do
      let s ← k.sched.step c op
      .ok ⟨s, k.insideAfter op⟩
    | .callReturn => .ok { k with inside := update k.inside k.sched.current none }
  else .ok k

def KernelState.run (c : SchedLayout) (k : KernelState) : List KernelOp → Except Crash KernelState
  | [] => .ok k
  | op :: ops => do (← k.step c op).run c ops

def SchedLayout.start (c : SchedLayout) (idleTask : Task) : KernelState := ⟨c.boot idleTask, fun _ => none⟩

/-- The step ends in the `__not_reach` or the `ASSERT` of `raw_task_wake_up`. -/
def DeadWakeUp (c : SchedLayout) (k : KernelState) (op : KernelOp) : Prop :=
  op ≠ .sched .leave ∧ (k.step c op = .error (.panic .notReach) ∨ k.step c op = .error (.panic .assertion))

def KernelOp.SignalsExiting (k : KernelState) : KernelOp → Prop
  | .sched (.signal t sig) => (k.sched.task t).state = .exiting ∧
      ((k.sched.task t).sigEntries sig).valid = true ∧
      ((k.sched.task t).sigEntries sig).action ≠ .stop ∧
      ((k.sched.task t).sigEntries sig).action ≠ .continue
  | _ => False

variable {v v' : Task}

theorem setTask_task_self (s : SchedState) (t : ℕ) (v : Task) : (s.setTask t v).task t = v :=
  update_self _ _ _

variable {s : SchedState} {t : ℕ}

theorem setTask_task_of_ne {u : ℕ} (h : u ≠ t) : (s.setTask t v).task u = s.task u :=
  update_of_ne h _ _

/-! ## What a step does to a task -/

theorem touched_setTask (h : (s.task t).Touched v) (u : ℕ) : (s.task u).Touched ((s.setTask t v).task u) := by
  by_cases hu : u = t
  · rw [hu, setTask_task_self]
    exact h
  rw [setTask_task_of_ne hu]
  exact .inl rfl

theorem touched_call (call : TaskCall) (hexits : call.exits = false) (h : (s.task t).call call = .ok v) (u : ℕ) :
    (s.task u).Touched ((s.setTask t v).task u) := touched_setTask (.inr ⟨call, hexits, h⟩) u

variable {c : SchedLayout} {s' : SchedState}

theorem taskPut_eq_ok (h : taskPut c s t = .ok s') : s'.live = s.live ∧ s'.task = s.task := by
  obtain ⟨links, -, h⟩ := bind_eq_ok h
  cases h
  exact ⟨rfl, rfl⟩

variable {q : Queue → List ℕ} {op : SchedOp}

/-- A step that is neither an interrupt exit nor makes a task calls each task at most once. -/
theorem step_touches (h : SchedInv c s q) (hs : s.step c op = .ok s') (hleave : op ≠ .leave)
    (hspawn : ∀ t v, op ≠ .spawn t v) : ∀ t ∈ s'.live, t ∈ s.live ∧ (s.task t).Touched (s'.task t) := by
  unfold SchedState.step at hs
  split_ifs at hs with hallow
  case neg =>
    cases hs
    exact fun t ht => ⟨ht, .inl rfl⟩
  cases op with
  | spawn t v => exact absurd rfl (hspawn t v)
  | signal t sig =>
    obtain ⟨v, hv, hs⟩ := bind_eq_ok hs
    cases hs
    exact fun u hu => ⟨hu, touched_call (.signal sig) rfl (onTask_eq_ok hv) u⟩
  | wakeUp t =>
    obtain ⟨v, hv, hs⟩ := bind_eq_ok hs
    cases hs
    exact fun u hu => ⟨hu, touched_call .wakeUp rfl (onTask_eq_ok hv) u⟩
  | block =>
    obtain ⟨v, hv, hs⟩ := bind_eq_ok hs
    cases hs
    exact fun u hu => ⟨hu, touched_call .block rfl (onTask_eq_ok hv) u⟩
  | wait0 id =>
    cases ht : searchTaskById s id with
    | none =>
      simp only [ht] at hs
      cases hs
      exact fun u hu => ⟨hu, .inl rfl⟩
    | some t =>
      simp only [ht] at hs
      split_ifs at hs
      · cases hs
        exact fun u hu => ⟨hu, .inl rfl⟩
      obtain ⟨v, hv, hs⟩ := bind_eq_ok hs
      cases hs
      exact fun u hu => ⟨hu, touched_call .block rfl (onTask_eq_ok hv) u⟩
  | wait0Return =>
    cases ht : (s.waiting s.current).bind fun w => searchTaskById s w.1 <;>
      simp only [ht] at hs <;> cases hs <;> exact fun u hu => ⟨hu, .inl rfl⟩
  | sysSignal n entry =>
    cases hs
    exact fun u hu => ⟨hu, touched_call (.sysSignal n entry) rfl rfl u⟩
  | sigReturn =>
    obtain ⟨_, hscheduled, hs⟩ := bind_eq_ok hs
    cases hs
    exact fun u hu => ⟨hu, touched_call .signalReturn rfl (if_pos (assert_eq_ok hscheduled)) u⟩
  | enter =>
    cases hs
    exact fun u hu => ⟨hu, touched_call .enter rfl rfl u⟩
  | leave => exact absurd rfl hleave
  | schedule =>
    obtain ⟨s1, q1, hs1, hrr, -⟩ := h.schedule
    cases hs1.symm.trans hs
    intro u hu
    rw [hrr.live, List.mem_filter] at hu
    refine ⟨hu.1, ?_⟩
    rw [hrr.task]
    exact touched_wakeAll _ _ u

/-! ## Blocking calls -/

structure Inside (d : ℕ) (v : Task) : Prop where
  not_exiting : v.state ≠ .exiting
  le_depth : d ≤ v.interruptDepth
  kernel : d = 0 → v.privilegeLevel ≠ 3

variable {d : ℕ}

theorem Inside.keeps (h : Inside d v) (ha : v.Alive) (hk : v.Keeps v') : Inside d v' :=
  ⟨fun hx => h.not_exiting ((hk.evolves.exiting ha).1 hx), h.le_depth.trans hk.evolves.depth,
    fun hd => hk.privilegeLevel ▸ h.kernel hd⟩

structure KernelInv (c : SchedLayout) (k : KernelState) (q : Queue → List ℕ) : Prop where
  sched : SchedInv c k.sched q
  inside : ∀ t ∈ k.sched.live, ∀ d ∈ k.inside t, Inside d (k.sched.task t)

theorem Inside.leave {r : Resume} (h : Inside d v) (hd : d < v.interruptDepth) (hv : taskProcessSignal v = .ok
    (v', r)) :
    Inside d (if r = .yielded then v' else { v' with interruptDepth := v'.interruptDepth - 1 }) := by
  have hkernel : ¬(v.privilegeLevel = 3 ∧ v.interruptDepth = 1) := fun hc =>
    h.kernel (by omega) hc.1
  rw [taskProcessSignal, if_neg hkernel] at hv
  obtain ⟨rfl, rfl⟩ := Prod.mk.inj (Except.ok.inj hv)
  have hr : resumeOf v ≠ .yielded := by
    rw [resumeOf]
    split_ifs <;> simp
  rw [if_neg hr]
  exact ⟨h.not_exiting, Nat.le_sub_one_of_lt hd, h.kernel⟩

variable {α : Type} {f : α → Except Crash SchedState} {p : Panic}

section
variable {k k' : KernelState}

theorem kernelInv_start (idleTask : Task) : KernelInv c (c.start idleTask) fun _ => [] :=
  ⟨schedInv_boot idleTask, fun t _ d hd => by cases hd⟩

theorem KernelInv.inside_step (h : KernelInv c k q) (hallow : (KernelOp.sched op).Allowed c k)
    (hs : k.sched.step c op = .ok s) : ∀ t ∈ s.live, ∀ d ∈ k.insideAfter op t, Inside d (s.task t) := by
  by_cases hleave : op = .leave
  · subst hleave
    obtain ⟨hbase, hdepth⟩ := hallow
    rw [SchedState.step, if_pos hbase] at hs
    obtain ⟨⟨v, r⟩, hv, hs⟩ := bind_eq_ok hs
    cases hs
    intro t ht d hd
    by_cases hcur : t = k.sched.current
    · subst hcur
      rw [setTask_task_self]
      exact (h.inside _ ht d hd).leave (hdepth d hd) (onTask_eq_ok hv)
    · rw [setTask_task_of_ne hcur]
      exact h.inside t ht d hd
  by_cases hspawn : ∃ t v, op = .spawn t v
  · obtain ⟨t, v, rfl⟩ := hspawn
    rw [SchedState.step, if_pos (show SchedOp.Allowed c k.sched (.spawn t v) from hallow)] at hs
    obtain ⟨-, -, hs⟩ := bind_eq_ok hs
    obtain ⟨hlive, htask⟩ := taskPut_eq_ok hs
    intro u hu d hd
    rw [hlive] at hu
    by_cases hut : u = t
    · subst hut
      rw [KernelState.insideAfter, update_self] at hd
      cases hd
    rw [KernelState.insideAfter, update_of_ne hut] at hd
    rw [htask]
    change Inside d (update k.sched.task t v u)
    rw [update_of_ne hut]
    exact h.inside u ((List.mem_cons.1 hu).resolve_left hut) d hd
  push Not at hspawn
  have htouches := step_touches h.sched hs hleave hspawn
  have hold : ∀ t ∈ s.live, ∀ d ∈ k.inside t, Inside d (s.task t) := fun t ht d hd =>
    (h.inside t (htouches t ht).1 d hd).keeps (h.sched.tasks.alive t (htouches t ht).1) (htouches t ht).2.keeps
  by_cases hblock : op = .block
  · subst hblock
    obtain ⟨h0, -, hkernel⟩ := hallow
    intro t ht d hd
    by_cases hcur : t = k.sched.current
    · subst hcur
      rw [KernelState.insideAfter, update_self] at hd
      cases hd
      rw [SchedState.step, if_pos (show SchedOp.Allowed c k.sched .block from h0)] at hs
      obtain ⟨v, hv, hs⟩ := bind_eq_ok hs
      cases hs
      rw [setTask_task_self]
      obtain ⟨hst, hd, -⟩ := evolves_block (onTask_eq_ok hv)
      refine ⟨by simp [hst], hd.ge, fun h0 => ?_⟩
      rw [(keeps_block (onTask_eq_ok hv)).privilegeLevel]
      exact hkernel h0
    · rw [KernelState.insideAfter, update_of_ne hcur] at hd
      exact hold t ht d hd
  · have hsame : k.insideAfter op = k.inside := by
      cases op with
      | block => exact absurd rfl hblock
      | spawn t v => exact absurd rfl (hspawn t v)
      | _ => rfl
    rw [hsame]
    exact hold

theorem kernelInv_step (h : KernelInv c k q) {op : KernelOp} (hs : k.step c op = .ok k') : ∃ q', KernelInv c k' q' := by
  unfold KernelState.step at hs
  split_ifs at hs with hallow
  · cases op with
    | sched op =>
      obtain ⟨s, hstep, hs⟩ := bind_eq_ok hs
      cases hs
      obtain ⟨q', h'⟩ := schedInv_step h.sched hstep
      exact ⟨q', h', h.inside_step hallow hstep⟩
    | callReturn =>
      cases hs
      refine ⟨q, h.sched, fun t ht d hd => ?_⟩
      change d ∈ update k.inside k.sched.current none t at hd
      by_cases hcur : t = k.sched.current
      · rw [hcur, update_self] at hd
        cases hd
      rw [update_of_ne hcur] at hd
      exact h.inside t ht d hd
  · cases hs
    exact ⟨q, h⟩

theorem kernelInv_run (h : KernelInv c k q) {ops : List KernelOp} (hs : k.run c ops = .ok k') :
    ∃ q', KernelInv c k' q' := by
  induction ops generalizing k q with
  | nil =>
    cases hs
    exact ⟨q, h⟩
  | cons op ops ih =>
    obtain ⟨k1, hs1, hs⟩ := bind_eq_ok hs
    obtain ⟨q1, h1⟩ := kernelInv_step h hs1
    exact ih h1 hs

theorem onTask_bind_ne_panic {x : Except Panic α} (hx : x ≠ .error p) (hf : ∀ a, f a ≠ .error (.panic p)) :
    (onTask x >>= f) ≠ .error (.panic p) := by
  cases x with
  | ok a => exact hf a
  | error e =>
    intro h
    exact hx (congrArg Except.error (Crash.panic.inj (Except.error.inj h)))

theorem onList_bind_ne_panic {x : Except Fault α} (hf : ∀ a, f a ≠ .error (.panic p)) :
    (onList x >>= f) ≠ .error (.panic p) := by
  cases x with
  | ok a => exact hf a
  | error e =>
    intro h
    cases h

theorem KernelInv.step_ne_panic (h : KernelInv c k q) (hallow : (KernelOp.sched op).Allowed c k) (hleave : op ≠ .leave)
    (hsafe : ¬(KernelOp.sched op).SignalsExiting k) (hp : ∀ a b, p ≠ .transition a b) :
    k.sched.step c op ≠ .error (.panic p) := by
  have hblock : transitState k.cur .interruptible ≠ .error p := fun he =>
    hp _ _ (transitState_panic he)
  unfold SchedState.step
  split_ifs with hbase
  case neg => simp
  cases op with
  | spawn t v => exact onList_bind_ne_panic fun _ => onList_bind_ne_panic fun _ => by simp
  | signal t sig =>
    obtain ⟨v, hv⟩ := signalTask_sent (h.sched.tasks.alive t hallow.1) hallow.2 hsafe
    exact onTask_bind_ne_panic (by simp [hv]) fun _ => by simp
  | wakeUp t =>
    obtain ⟨ht, hin⟩ := hallow
    obtain ⟨d, hd⟩ := Option.isSome_iff_exists.1 hin
    obtain ⟨v, hv⟩ := (h.sched.tasks.alive t ht).wakeable (h.inside t ht d hd).not_exiting
    exact onTask_bind_ne_panic (by simp [hv]) fun _ => by simp
  | block => exact onTask_bind_ne_panic hblock fun _ => by simp
  | wait0 id =>
    dsimp only
    split
    · simp
    split_ifs
    · simp
    · exact onTask_bind_ne_panic hblock fun _ => by simp
  | wait0Return =>
    dsimp only
    split <;> simp
  | sysSignal n entry => simp
  | sigReturn => exact onList_bind_ne_panic fun _ => by simp
  | enter => simp
  | leave => exact absurd rfl hleave
  | schedule =>
    obtain ⟨s1, q1, hs1, -⟩ := h.sched.schedule
    simp [hs1]

end

/-- **In every state that a run reaches, a step that queues no signal for an exiting task reaches neither the
`__not_reach` nor the `ASSERT` of `raw_task_wake_up`.** -/
theorem not_deadWakeUp (c : SchedLayout) (idleTask : Task) (ops : List KernelOp) (k : KernelState)
    (hrun : (c.start idleTask).run c ops = .ok k) (op : KernelOp) (hsafe : ¬op.SignalsExiting k) :
    ¬DeadWakeUp c k op := by
  obtain ⟨q, h⟩ := kernelInv_run (kernelInv_start idleTask) hrun
  rintro ⟨hleave, hdead⟩
  unfold KernelState.step at hdead
  split_ifs at hdead with hallow
  case neg => simp at hdead
  cases op with
  | callReturn => simp at hdead
  | sched op =>
    have hne : op ≠ .leave := fun he => hleave (he ▸ rfl)
    have hsched (p : Panic) (hp : ∀ a b, p ≠ .transition a b) :
        (k.sched.step c op >>= fun s => .ok (⟨s, k.insideAfter op⟩ : KernelState)) ≠
          .error (.panic p) := by
      have hstep := h.step_ne_panic hallow hne hsafe hp
      cases hs : k.sched.step c op with
      | ok s => exact fun he => by cases he
      | error e =>
        intro he
        exact hstep (hs.trans (congrArg _ (Except.error.inj he)))
    rcases hdead with hdead | hdead
    · exact hsched .notReach (by simp) hdead
    · exact hsched .assertion (by simp) hdead

def exitTrace : List KernelOp :=
  [.sched (.spawn 8 (createdTask true)), .sched (.spawn 9 (createdTask true)), .sched .schedule, .sched .leave,
   .sched .enter, .sched (.signal 8 sigCont), .sched (.signal 8 sigQuit), .sched .leave,
   .sched .enter, .sched .schedule, .sched .leave, .sched .enter]

theorem not_deadWakeUp_second_task : ∃ k, (smallLayout.start (createdTask false)).run smallLayout exitTrace = .ok k ∧
      (k.sched.task 9).state = .running ∧ ¬DeadWakeUp smallLayout k (.sched (.signal 9 sigInt)) := by
  obtain ⟨k, hrun, h9⟩ : ∃ k, (smallLayout.start (createdTask false)).run smallLayout exitTrace = .ok k ∧
      (k.sched.task 9).state = .running := ⟨_, rfl, rfl⟩
  refine ⟨k, hrun, h9, not_deadWakeUp smallLayout (createdTask false) exitTrace k hrun _ fun hx => ?_⟩
  rw [KernelOp.SignalsExiting, h9] at hx
  cases hx.1

/-- **A signal for a task that has exited and is not yet reclaimed stops the kernel.** -/
theorem deadWakeUp_kill : ∃ k, (smallLayout.start (createdTask false)).run smallLayout exitTrace = .ok k ∧
      k.sched.current = 9 ∧ (k.sched.task 8).state = .exiting ∧ searchTaskById k.sched (k.sched.taskId 8) = some 8 ∧
      DeadWakeUp smallLayout k (.sched (.signal 8 sigInt)) :=
  ⟨_, rfl, rfl, rfl, rfl, by simp, .inl rfl⟩

end ZeldaOS
