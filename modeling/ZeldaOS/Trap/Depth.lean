import ZeldaOS.Trap.Process

/-!
# Counting nested interrupts

`interrupt_depth` against the interrupts of a task that have not returned.

* `depths_counted`: `interrupt_depth` counts the nested interrupts.
-/

namespace ZeldaOS

open Machine List Function

/-! ## Saved pointers -/

def TrapTask.pointer (v : TrapTask) : Frame := if v.task.signalScheduled then v.signaledCpu else v.cpu

def TrapTask.Fresh (v : TrapTask) : Prop := ∀ n ∈ v.traps.head?, v.pointer = n.frame

instance TrapTask.decidableFresh (v : TrapTask) : Decidable v.Fresh :=
  inferInstanceAs (Decidable (∀ n ∈ v.traps.head?, _))

instance Task.decidableActs (t : Task) : Decidable t.Acts := inferInstanceAs (Decidable (_ ∧ _))

def TrapState.currentTask (s : TrapState) : Option TrapTask := s.current.bind s.tasks

/-- No trap but that of `yield_cpu` has come and gone inside the interrupt that ends, if it ends in `schedule`, or a
user handler runs, or a signal is about to be processed. -/
def TrapOp.Fresh (s : TrapState) : TrapOp → Prop
  | .leave => ∀ v ∈ s.currentTask, v.task.signalScheduled = true ∨ v.task.Acts → v.Fresh
  | .switch _ => ∀ v ∈ s.currentTask, v.Fresh
  | _ => True

instance TrapOp.decidableFresh (s : TrapState) : (op : TrapOp) → Decidable (op.Fresh s)
  | .leave => inferInstanceAs (Decidable (∀ v ∈ s.currentTask, _))
  | .switch _ => inferInstanceAs (Decidable (∀ v ∈ s.currentTask, _))
  | .spawn _ _ | .trap | .yieldCpu | .sleep | .block | .signal _ _ | .wakeUp _ | .sysSignal _ _
  | .sigReturn | .exitCall | .reclaim _ => inferInstanceAs (Decidable True)

/-- The depths are right, and the test of `task_process_signal` was at every exit. -/
structure DepthsCounted (s : TrapState) : Prop where
  nested : ∀ t v, s.tasks t = some v → s.current ≠ some t →
    v.task.interruptDepth = v.traps.length ∧ 1 ≤ v.task.interruptDepth
  exits : ∀ e ∈ s.log, e.privilegeLevel = 3 → (e.interruptDepth = 1 ↔ e.frame.user = true)

/-- The run ended in a panic that has nothing to do with depths and frames. -/
def TrapFault.Elsewhere (e : TrapFault) : Prop := (∃ p, e = .panic p) ∨ e = .sigReturn

/-! ## One task -/

/-- Only the outermost frame of a PL3 task is one of PL3. -/
def Shape (privilegeLevel : ℕ) : List Nested → Prop
  | [] => True
  | n :: ns => (n.frame.user = true ↔ privilegeLevel = 3 ∧ ns = []) ∧ Shape privilegeLevel ns

/-- Under a user handler the interrupted frame is parked, and `cpu` points to it. -/
structure Parked (v : TrapTask) (n : Nested) : Prop where
  parked : v.parked = [n]
  user : n.frame.user = true
  cpu : v.cpu = n.frame
  locals : ∀ m ∈ v.traps, ∀ l ∈ m.locals, l.1 = n.frame

structure TaskInv (v : TrapTask) : Prop where
  depth : v.task.interruptDepth = v.traps.length
  shape : Shape v.task.privilegeLevel v.traps
  handler : v.task.signalScheduled = true → ∃ n, Parked v n

theorem taskInv_new (user : Bool) (k : ℕ) : TaskInv (newTask user ⟨k, user⟩) :=
  ⟨rfl, ⟨by cases user <;> simp [newTask, createdTask], trivial⟩, fun h => by cases h⟩

variable {v : TrapTask}

theorem TaskInv.congr (h : TaskInv v) {t : Task} (ht : v.task.SameContext t) : TaskInv { v with task := t } := by
  refine ⟨ht.interruptDepth.trans h.depth, ?_, fun hs => ?_⟩
  · rw [ht.privilegeLevel]
    exact h.shape
  obtain ⟨n, hn⟩ := h.handler (ht.signalScheduled ▸ hs)
  exact ⟨n, hn.parked, hn.user, hn.cpu, hn.locals⟩

theorem TaskInv.exited (h : TaskInv v) (f : Frame) : TaskInv { v with exited := some f } := by
  refine ⟨h.depth, h.shape, fun hs => ?_⟩
  obtain ⟨n, hn⟩ := h.handler hs
  exact ⟨n, hn.parked, hn.user, hn.cpu, hn.locals⟩

variable {locals : Option (Frame × Frame)} {w : TrapTask} {n : Nested} {ns : List Nested} {esp : Frame}

section
variable {k : ℕ}

theorem pointer_congr (hs : w.task.signalScheduled = v.task.signalScheduled) (hc : w.cpu = v.cpu)
    (hsc : w.signaledCpu = v.signaledCpu) : w.pointer = v.pointer := by
  rw [TrapTask.pointer, TrapTask.pointer, hs, hc, hsc]

theorem trap_pointer (v : TrapTask) (f : Frame) (locals : Option (Frame × Frame)) : (v.trap f locals).pointer = f := by
  cases hs : v.task.signalScheduled <;> simp [TrapTask.trap, taskPreInterruptHandler, TrapTask.pointer, hs]

theorem TaskInv.trap (h : TaskInv v) (hl : ∀ l ∈ locals, l.1 = v.cpu) :
    TaskInv (v.trap ⟨k, decide v.InUser⟩ locals) := by
  refine ⟨?_, ?_, fun hs => ?_⟩
  · rw [trap_task]
    exact congrArg (· + 1) h.depth
  · rw [trap_task]
    refine ⟨?_, h.shape⟩
    rw [decide_eq_true_iff]
    rfl
  rw [trap_task] at hs
  obtain ⟨n, hn⟩ := h.handler hs
  refine ⟨n, (trap_parked _ _ _).trans hn.parked, hn.user, (trap_cpu _ _ hs).trans hn.cpu, ?_⟩
  intro m hm l hlm
  rcases mem_cons.1 hm with rfl | hm
  · exact (hl l hlm).trans hn.cpu
  · exact hn.locals m hm l hlm

theorem TaskInv.unparked (h : TaskInv v) (huser : v.InUser) (hs : v.task.signalScheduled = true)
    (f : Frame) : ∃ n, Parked v n ∧ TaskInv (v.unparked f) := by
  obtain ⟨n, hn⟩ := h.handler hs
  have hdepth := h.depth
  rw [huser.2] at hdepth
  refine ⟨n, hn, ?_, ?_, fun hc => by cases hc⟩
  · change v.task.interruptDepth + 1 = v.parked.length
    rw [hdepth, hn.parked]
    rfl
  change Shape v.task.privilegeLevel v.parked
  rw [hn.parked]
  exact ⟨iff_of_true hn.user ⟨huser.1, rfl⟩, trivial⟩

theorem TaskInv.finish (h : TaskInv v) {new : Frame} (hn : v.traps = n :: ns)
    (hesp : v.task.signalScheduled = false → esp = n.frame)
    (hfresh : v.task.signalScheduled = true ∨ v.task.Acts → v.pointer = n.frame) (hnew : new.user = true) :
    Ends (fun r => TaskInv r.1 ∧ ∀ f ∈ r.2, v.task.privilegeLevel = 3 →
        (v.task.interruptDepth = 1 ↔ f.user = true)) TrapFault.Elsewhere (ZeldaOS.finish v esp new) := by
  have hdepth : v.task.interruptDepth = ns.length + 1 := by rw [h.depth, hn]; rfl
  have hshape := h.shape
  rw [hn] at hshape
  -- the innermost frame is a PL3 frame exactly at depth 1
  have htop : v.task.privilegeLevel = 3 → (v.task.interruptDepth = 1 ↔ n.frame.user = true) := by
    intro hpl
    rw [hshape.1, hdepth, ← length_eq_zero_iff]
    exact ⟨fun h1 => ⟨hpl, by omega⟩, fun h1 => by omega⟩
  refine finish_ends (fun p _ => .inl ⟨p, rfl⟩) (fun h0 => by omega) ?_ ?_ ?_ ?_
  · intro t hp
    obtain ⟨-, hs, -⟩ := hp.of_yielded
    refine ⟨⟨hp.interruptDepth.trans h.depth, ?_, fun hc => ?_⟩, fun f hf => by cases hf⟩
    · rw [hp.privilegeLevel]
      exact h.shape
    rw [hs] at hc
    cases hc
  · intro t hp hs
    rw [hesp hs, iret_top (v := v.left t) hn]
    refine ⟨⟨?_, ?_, fun hc => ?_⟩, fun f hf => ?_⟩
    · change t.interruptDepth - 1 = ns.length
      rw [hp.interruptDepth, hdepth, Nat.add_sub_cancel]
    · change Shape t.privilegeLevel ns
      rw [hp.privilegeLevel]
      exact hshape.2
    · change t.signalScheduled = true at hc
      rw [hp.of_normal] at hc
      cases hc
    · cases hf
      exact htop
  · intro hs
    have hptr : v.signaledCpu = n.frame := by
      have := hfresh (.inl hs)
      rwa [TrapTask.pointer, if_pos hs] at this
    obtain ⟨m, hm⟩ := h.handler hs
    rw [hptr, iret_top (v := v.left v.task) hn]
    refine ⟨⟨?_, hshape.2, fun _ => ⟨m, hm.parked, hm.user, ?_, fun x hx => ?_⟩⟩, fun f hf => ?_⟩
    · change v.task.interruptDepth - 1 = ns.length
      rw [hdepth, Nat.add_sub_cancel]
    · change (n.locals.map Prod.fst).getD v.cpu = m.frame
      cases hl : n.locals with
      | none => exact hm.cpu
      | some l => exact hm.locals n (hn ▸ mem_cons_self) l hl
    · exact hm.locals x (hn ▸ mem_cons_of_mem _ hx)
    · cases hf
      exact htop
  · intro t hp ha
    have ⟨hpl, hd1, hs, _⟩ := ha
    have hns : ns = [] := length_eq_zero_iff.1 (by omega)
    have hptr : v.cpu = n.frame := by
      have := hfresh (.inr ha)
      rwa [TrapTask.pointer, if_neg (by simp [hs])] at this
    refine ⟨⟨?_, trivial, fun _ => ⟨n, ?_, (htop hpl).1 hd1, hptr, fun m hm => by cases hm⟩⟩, fun f hf => ?_⟩
    · change t.interruptDepth - 1 = 0
      rw [hp.interruptDepth, hd1]
    · change v.traps = [n]
      rw [hn, hns]
    cases hf
    exact fun _ => ⟨fun _ => hnew, fun _ => hd1⟩

end

/-! ## All tasks -/

def Away (v : TrapTask) : Prop := ∃ n ns, v.traps = n :: ns ∧ v.pointer = n.frame

structure TrapInv (s : TrapState) : Prop where
  task : ∀ t v, s.tasks t = some v → TaskInv v
  away : ∀ t v, s.tasks t = some v → s.current ≠ some t → Away v
  exits : ∀ e ∈ s.log, e.privilegeLevel = 3 → (e.interruptDepth = 1 ↔ e.frame.user = true)

theorem trapInv_start : TrapInv .start where
  task t v h := by cases h
  away t v h := by cases h
  exits e h := by cases h

variable {s : TrapState}

theorem TrapInv.counted (h : TrapInv s) : DepthsCounted s := by
  refine ⟨fun t v hv hc => ?_, h.exits⟩
  obtain ⟨n, ns, hn, -⟩ := h.away t v hv hc
  have hd := (h.task t v hv).depth
  rw [hn, length_cons] at hd
  exact ⟨by rw [hd, hn, length_cons], by omega⟩

section
variable {t : ℕ}

theorem setTask_tasks {u : ℕ} {x : TrapTask} (h : (s.setTask t w).tasks u = some x) :
    u = t ∧ x = w ∨ u ≠ t ∧ s.tasks u = some x := by
  change update s.tasks t (some w) u = some x at h
  by_cases hu : u = t
  · rw [hu, update_self] at h
    exact .inl ⟨hu, (Option.some.inj h).symm⟩
  rw [update_of_ne hu] at h
  exact .inr ⟨hu, h⟩

theorem TrapInv.setTask (h : TrapInv s) (hw : TaskInv w) (haway : s.current ≠ some t → Away w) (k : ℕ) :
    TrapInv { s.setTask t w with fresh := k } := by
  refine ⟨fun u x hx => ?_, fun u x hx hc => ?_, h.exits⟩
  · rcases setTask_tasks hx with ⟨-, rfl⟩ | ⟨-, hx⟩
    · exact hw
    · exact h.task u x hx
  rcases setTask_tasks hx with ⟨rfl, rfl⟩ | ⟨-, hx⟩
  · exact haway hc
  · exact h.away u x hx hc

theorem TrapInv.congr (h : TrapInv s) (hv : s.tasks t = some v) {task : Task}
    (ht : v.task.SameContext task) : TrapInv (s.setTask t { v with task }) := by
  refine h.setTask ((h.task t v hv).congr ht) (fun hc => ?_) s.fresh
  obtain ⟨n, ns, hn, hp⟩ := h.away t v hv hc
  have hptr : ({ v with task } : TrapTask).pointer = v.pointer :=
    pointer_congr ht.signalScheduled rfl rfl
  exact ⟨n, ns, hn, hptr.trans hp⟩

theorem TrapInv.enter (h : TrapInv s) (hv : TaskInv v) (hc : s.current = some t) (hl : ∀ l ∈ locals, l.1 = v.cpu) :
    TrapInv (s.enter t v locals) :=
  h.setTask (hv.trap hl) (fun hne => absurd hc hne) (s.fresh + 1)

theorem TrapInv.exit (h : TrapInv s) (hv : TaskInv v) (hn : v.traps = n :: ns)
    (hesp : v.task.signalScheduled = false → esp = n.frame)
    (hfresh : v.task.signalScheduled = true ∨ v.task.Acts → v.pointer = n.frame)
    (hleft : ∀ u x, s.tasks u = some x → u ≠ t → s.current = some u → Away x) :
    Ends TrapInv TrapFault.Elsewhere (s.exit t v esp) := by
  refine (hv.finish hn hesp hfresh rfl).bind fun r _ hr => ?_
  obtain ⟨hw, hf⟩ := hr
  refine ⟨fun u x hx => ?_, fun u x hx hc => ?_, fun e he => ?_⟩
  · rcases setTask_tasks hx with ⟨-, rfl⟩ | ⟨-, hx⟩
    · exact hw
    · exact h.task u x hx
  · rcases setTask_tasks hx with ⟨rfl, -⟩ | ⟨hu, hx⟩
    · exact absurd rfl hc
    by_cases hcur : s.current = some u
    · exact hleft u x hx hu hcur
    · exact h.away u x hx hcur
  · rcases mem_append.1 he with he | he
    · obtain ⟨f', hf', rfl⟩ := Option.map_eq_some_iff.1 (Option.mem_toList.1 he)
      exact hf f' hf'
    · exact h.exits e he

end

theorem trapInv_step (s : TrapState) (op : TrapOp) (h : TrapInv s) (hfresh : op.Fresh s) :
    Ends TrapInv TrapFault.Elsewhere (s.step op) := by
  have hpanic {A : Type} {P : A → Prop} {x : Except Panic A} (hx : ∀ a, x = .ok a → P a) :
      Ends P TrapFault.Elsewhere (inTrap x) := inTrap_ends hx fun p _ => .inl ⟨p, rfl⟩
  cases op with
  | spawn t user =>
    rw [TrapState.step]
    split_ifs
    · exact h.setTask (taskInv_new user s.fresh) (fun _ => ⟨_, [], rfl, rfl⟩) (s.fresh + 1)
    · exact h
  | trap =>
    unfold TrapState.step
    cases hc : s.current with
    | none => exact ⟨h.task, fun t v hv _ => h.away t v hv (by simp [hc]), h.exits⟩
    | some t =>
      refine TrapState.withTask_ends h fun v hv => ?_
      split_ifs
      · exact h
      · exact h.enter (h.task t v hv) hc fun l hl => by cases hl
  | yieldCpu =>
    refine TrapState.withCurrent_ends h fun t v hc hv => ?_
    split_ifs
    · exact h
    · exact h.enter (h.task t v hv) hc fun l hl => by cases hl; rfl
  | sleep =>
    refine TrapState.withCurrent_ends h fun t v hc hv => ?_
    split_ifs
    · exact h
    refine (hpanic fun task ht => transitState_context ht).bind fun task _ ht => ?_
    exact h.enter ((h.task t v hv).congr ht) hc fun l hl => by cases hl; rfl
  | block =>
    refine TrapState.withCurrent_ends h fun t v hc hv => ?_
    split_ifs
    · exact h
    · exact (hpanic fun task ht => transitState_context ht).bind fun task _ ht => h.congr hv ht
  | signal t sig =>
    refine TrapState.withTask_ends h fun v hv => ?_
    split_ifs
    · exact h
    · exact (hpanic fun task ht => signalTask_context ht).bind fun task _ ht => h.congr hv ht
  | wakeUp t =>
    refine TrapState.withTask_ends h fun v hv => ?_
    exact (hpanic fun task ht => rawTaskWakeUp_context ht).bind fun task _ ht => h.congr hv ht
  | sysSignal n entry =>
    refine TrapState.withCurrent_ends h fun t v _ hv => ?_
    exact h.congr hv (callSysSignal_context _ _ _)
  | leave =>
    unfold TrapState.step
    cases hc : s.current with
    | none => exact ⟨h.task, fun t v hv _ => h.away t v hv (by simp [hc]), h.exits⟩
    | some t =>
      refine TrapState.withTask_ends h fun v hv => ?_
      cases hn : v.traps with
      | nil => exact h
      | cons n ns =>
        dsimp only
        split_ifs
        · exact h
        refine h.exit (h.task t v hv) hn (fun _ => rfl) (fun hr => ?_) fun u x _ hu hcu => ?_
        · refine hfresh v ?_ hr n (by rw [hn]; rfl)
          rw [TrapState.currentTask, hc]
          exact hv
        · rw [hc, Option.some_inj] at hcu
          exact absurd hcu.symm hu
  | switch next =>
    refine TrapState.withTask_ends h fun v hv => ?_
    split_ifs with hs
    case neg => exact h
    -- the task that gives up the processor can be scheduled again
    have hleft (u : ℕ) (x : TrapTask) (hx : s.tasks u = some x) (hcu : s.current = some u) : Away x := by
      obtain ⟨n, ns, hn⟩ : ∃ n ns, x.traps = n :: ns := by
        have hin := hs.1
        rw [TrapState.inHandler, hcu] at hin
        simp only [hx] at hin
        exact exists_cons_of_ne_nil (by simpa using hin)
      refine ⟨n, ns, hn, hfresh x ?_ n (by rw [hn]; rfl)⟩
      rw [TrapState.currentTask, hcu]
      exact hx
    obtain ⟨n, ns, hn, hp⟩ : Away v := by
      by_cases hcu : s.current = some next
      · exact hleft next v hv hcu
      · exact h.away next v hv hcu
    refine h.exit (h.task next v hv) hn (fun hf => ?_) (fun _ => hp) fun u x hx _ => hleft u x hx
    rw [← hp, TrapTask.pointer, if_neg (by simp [hf])]
  | sigReturn =>
    refine TrapState.sigReturn_ends h (fun _ _ _ _ => .inr rfl) fun t v hc hv huser hsig => ?_
    obtain ⟨n, hn, hinv⟩ := (h.task t v hv).unparked huser hsig ⟨s.fresh, true⟩
    have hs : TrapInv ({ s with fresh := s.fresh + 1 } : TrapState) := ⟨h.task, h.away, h.exits⟩
    refine hs.exit hinv hn.parked (fun _ => hn.cpu) (fun hr => ?_)
      fun u x _ hu hcu => absurd (Option.some_inj.1 (hcu.symm.trans hc)) hu
    rcases hr with hr | -
    · cases hr
    · exact (trap_cpu _ none hsig).trans hn.cpu
  | exitCall =>
    refine TrapState.exitCall_ends h (fun _ _ _ p _ => .inl ⟨p, rfl⟩) fun t v task hc hv huser htask => ?_
    have hctx := callSysExit_context htask
    have hinv : TaskInv (v.trap ⟨s.fresh, true⟩ none) := by
      have ht : TaskInv (v.trap ⟨s.fresh, decide v.InUser⟩ none) :=
        (h.task t v hv).trap fun l hl => by cases hl
      rwa [decide_eq_true huser] at ht
    have hs : TrapInv ({ s with
        fresh := s.fresh + 1, exits := ⟨s.fresh, true⟩ :: s.exits } : TrapState) :=
      ⟨h.task, h.away, h.exits⟩
    refine hs.exit ((hinv.congr hctx).exited ⟨s.fresh, true⟩) rfl (fun _ => rfl) (fun _ => ?_)
      fun u x _ hu hcu => absurd (Option.some_inj.1 (hcu.symm.trans hc)) hu
    have hptr : ({ v.trap ⟨s.fresh, true⟩ none with
        task, exited := some ⟨s.fresh, true⟩ } : TrapTask).pointer =
        (v.trap ⟨s.fresh, true⟩ none).pointer := pointer_congr hctx.signalScheduled rfl rfl
    exact hptr.trans (trap_pointer v ⟨s.fresh, true⟩ none)
  | reclaim t =>
    refine TrapState.withTask_ends h fun v hv => ?_
    split_ifs
    case neg => exact h
    have hold (u : ℕ) (x : TrapTask) (hx : update s.tasks t none u = some x) : s.tasks u = some x := by
      by_cases hu : u = t
      · rw [hu, update_self] at hx
        cases hx
      · rwa [update_of_ne hu] at hx
    exact ⟨fun u x hx => h.task u x (hold u x hx), fun u x hx => h.away u x (hold u x hx), h.exits⟩

/-- **In every run with fresh pointers every task but the current one has the depth of its nested frames, no depth is
negative, and an exit of a PL3 task sees depth 1 exactly when it restores a PL3 frame.** -/
theorem depths_counted (ops : List TrapOp) (h : Along TrapState.step (fun s op => op.Fresh s) .start ops) :
    Ends DepthsCounted TrapFault.Elsewhere (runSteps TrapState.step .start ops) :=
  (ends_run trapInv_step trapInv_start h).imp (fun _ hs => hs.counted) fun _ => id

def handlerTrace : List TrapOp :=
  [.spawn 1 true, .trap, .switch 1, .trap, .sysSignal 16 0x8048000, .leave, .trap, .signal 1 sigUsr1, .leave, .trap]

theorem depths_counted_handler :
    ∃ s, runSteps TrapState.step .start (handlerTrace ++ [.yieldCpu, .switch 1, .leave, .sigReturn]) =
        .ok s ∧ s.log.length = 6 ∧ DepthsCounted s := by
  have hends := depths_counted (handlerTrace ++ [.yieldCpu, .switch 1, .leave, .sigReturn]) (by decide)
  obtain ⟨s, hrun, hlog⟩ : ∃ s, runSteps TrapState.step .start
      (handlerTrace ++ [.yieldCpu, .switch 1, .leave, .sigReturn]) = .ok s ∧ s.log.length = 6 :=
    ⟨_, rfl, rfl⟩
  rw [hrun] at hends
  exact ⟨s, hrun, hlog, hends⟩

/-- **A page fault of the kernel inside a system call of a user handler, or inside a timer interrupt that calls
`schedule`: the frame restored at depth 1 is that of the page fault, which returned long ago to PL0.** -/
theorem stray_page_fault : ∃ f g : Frame, f.user = false ∧ g.user = false ∧
      runSteps TrapState.step .start (handlerTrace ++ [.trap, .leave, .leave]) = .error (.stray 3 1 f) ∧
      runSteps TrapState.step .start [.spawn 1 true, .spawn 2 true, .trap, .switch 1, .trap, .trap,
        .leave, .switch 2, .trap, .switch 1] = .error (.stray 3 1 g) :=
  ⟨_, _, rfl, rfl, rfl, rfl⟩

end ZeldaOS
