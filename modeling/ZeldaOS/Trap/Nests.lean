import ZeldaOS.Trap.Local

/-!
# How the interrupts of a task nest

What holds of every task in every run, whatever the saved pointers are.

* `Nests.finished`: the end of an interrupt keeps the nesting.
-/

namespace ZeldaOS

open Machine List

/-! ## The invariant -/

def Nested.Outer (n : Nested) : Prop := n.frame.user = true ∧ n.locals = none

/-- What holds of a task between two steps. -/
structure Nests (v : TrapTask) : Prop where
  alive : v.task.Alive
  depth : v.task.interruptDepth = v.traps.length
  shape : Shape v.task.privilegeLevel v.traps
  outer : ∀ n ∈ v.traps, n.frame.user = true → n.locals = none
  handler : v.task.signalScheduled = true → v.task.privilegeLevel = 3 ∧ ∃ n, v.parked = [n] ∧ n.Outer
  asleep : v.task.privilegeLevel = 3 → v.task.Asleep → ∃ n ∈ v.traps, n.locals.isSome = true
  ended : v.task.state = .exiting → v.traps ≠ []

theorem nests_new (user : Bool) (k : ℕ) : Nests (newTask user ⟨k, user⟩) where
  alive := ⟨by simp [newTask, createdTask], by simp [newTask, createdTask]⟩
  depth := rfl
  shape := (taskInv_new user k).shape
  outer n hn _ := by rw [mem_singleton.1 hn]
  handler h := by cases h
  asleep _ h := by simp [newTask, createdTask, Task.Asleep] at h
  ended h := by cases h

variable {v : TrapTask} {t t' : Task}

theorem Nests.congr (h : Nests v) (hc : v.task.SameContext t) (he : v.task.Evolves t)
    (ha : v.task.privilegeLevel = 3 → t.Asleep → v.task.Asleep) : Nests { v with task := t } where
  alive := he.alive h.alive
  depth := hc.interruptDepth.trans h.depth
  shape := by
    change Shape t.privilegeLevel v.traps
    rw [hc.privilegeLevel]
    exact h.shape
  outer := h.outer
  handler hs := by
    change t.privilegeLevel = 3 ∧ _
    rw [hc.privilegeLevel]
    exact h.handler (hc.signalScheduled ▸ hs)
  asleep hpl hs := h.asleep (hc.privilegeLevel ▸ hpl) (ha (hc.privilegeLevel ▸ hpl) hs)
  ended hx := h.ended ((he.exiting h.alive).1 hx)

/-! ## The calls -/

theorem Nests.signal (h : Nests v) {sig : Sig} (ht : signalTask v.task sig = .ok t) : Nests { v with task := t } :=
  h.congr (signalTask_context ht) (evolves_signalTask ht) fun _ => asleep_of_signalTask ht

theorem Nests.code (h : Nests v) {C : TrapTask → TrapOp → Prop} {x : Except Panic Task} (hx : Coded C v x)
    (ht : x = .ok t) : Nests { v with task := t } := by
  cases hx with
  | block hpl =>
    exact h.congr (transitState_context ht) (evolves_block ht).2.2 fun h3 => absurd h3 hpl
  | signal sig => exact h.signal ht
  | wakeUp =>
    exact h.congr (rawTaskWakeUp_context ht) (evolves_rawTaskWakeUp ht) fun _ hs => absurd hs (rawTaskWakeUp_awake ht)
  | sysSignal n entry =>
    cases ht
    refine h.congr (callSysSignal_context _ _ _) (evolves_callSysSignal _ _ _) fun _ hs => ?_
    rwa [Task.Asleep, callSysSignal_state, callSysSignal_nonStopState] at hs

theorem Nests.callSysExit (h : Nests v) (ht : callSysExit v.task = .ok t) : Nests { v with task := t } := by
  obtain ⟨u, hu, ht⟩ := bind_eq_ok ht
  exact (h.signal hu).signal ht

theorem evolves_callSysExit (h : callSysExit t = .ok t') : t.Evolves t' := by
  obtain ⟨u, hu, h⟩ := bind_eq_ok h
  exact (evolves_signalTask hu).trans (evolves_signalTask h)

section
variable (h : Nests v)
include h

theorem Nests.exited (f : Frame) : Nests { v with exited := some f } :=
  ⟨h.alive, h.depth, h.shape, h.outer, h.handler, h.asleep, h.ended⟩

theorem Nests.trap {k : ℕ} {locals : Option (Frame × Frame)}
    (hl : v.InUser → locals = none) : Nests (v.trap ⟨k, decide v.InUser⟩ locals) where
  alive := by
    rw [trap_task]
    exact h.alive.congr rfl rfl
  depth := by
    rw [trap_task]
    exact congrArg (· + 1) h.depth
  shape := by
    rw [trap_task]
    refine ⟨?_, h.shape⟩
    rw [decide_eq_true_iff]
    rfl
  outer n hn hu := by
    rcases mem_cons.1 hn with rfl | hn
    · exact hl (of_decide_eq_true hu)
    · exact h.outer n hn hu
  handler hs := by
    rw [trap_task] at hs ⊢
    rw [trap_parked]
    exact h.handler hs
  asleep hpl hs := by
    rw [trap_task] at hpl hs
    obtain ⟨n, hn, hl⟩ := h.asleep hpl hs
    exact ⟨n, mem_cons_of_mem _ hn, hl⟩
  ended _ := cons_ne_nil _ _

theorem Nests.trap_user (hu : v.InUser) (k : ℕ) : Nests (v.trap ⟨k, true⟩ none) := by
  have ht : Nests (v.trap ⟨k, decide v.InUser⟩ none) := h.trap fun _ => rfl
  rwa [decide_eq_true hu] at ht

theorem Nests.sleep (hu : ¬v.InUser) (ht : transitState v.task .interruptible = .ok t) (k : ℕ)
    (l : Frame × Frame) :
    Nests (TrapTask.trap { v with task := t } ⟨k, decide (TrapTask.InUser { v with task := t })⟩ (some l)) := by
  have hctx := transitState_context ht
  have hu' : ¬TrapTask.InUser { v with task := t } := fun hc =>
    hu ⟨hctx.privilegeLevel.symm.trans hc.1, hc.2⟩
  have hev := (evolves_block ht).2.2
  refine ⟨?_, ?_, ?_, fun n hn hn' => ?_, fun hs => ?_, fun _ _ => ?_, fun _ => cons_ne_nil _ _⟩
  · rw [trap_task]
    exact (hev.alive h.alive).congr rfl rfl
  · rw [trap_task]
    exact congrArg (· + 1) (hctx.interruptDepth.trans h.depth)
  · rw [trap_task]
    refine ⟨?_, ?_⟩
    · rw [decide_eq_true_iff]
      rfl
    rw [hctx.privilegeLevel]
    exact h.shape
  · rcases mem_cons.1 hn with rfl | hn
    · exact absurd (of_decide_eq_true hn') hu'
    · exact h.outer n hn hn'
  · rw [trap_task] at hs ⊢
    rw [trap_parked]
    rw [hctx.privilegeLevel]
    exact h.handler (hctx.signalScheduled ▸ hs)
  · exact ⟨_, mem_cons_self, rfl⟩

theorem Nests.not_asleep_of_inUser (hu : v.InUser) : ¬v.task.Asleep := fun hs => by
  obtain ⟨n, hn, -⟩ := h.asleep hu.1 hs
  rw [hu.2] at hn
  cases hn

theorem Nests.not_exiting_of_inUser (hu : v.InUser) : v.task.state ≠ .exiting :=
  fun hx => h.ended hx hu.2

theorem Nests.unparked (hu : v.InUser) (hs : v.task.signalScheduled = true)
    (f : Frame) : Nests (v.unparked f) ∧ ∃ n, (v.unparked f).traps = [n] ∧ n.Outer := by
  obtain ⟨hpl, n, hp, hn⟩ := h.handler hs
  have hdepth : v.task.interruptDepth = 0 := by rw [h.depth, hu.2]; rfl
  have htraps : (v.unparked f).traps = [n] := hp
  refine ⟨⟨h.alive.congr rfl rfl, ?_, ?_, ?_, (fun hc => by cases hc), fun _ ha => ?_, fun _ => ?_⟩, n, htraps, hn⟩
  · rw [htraps]
    change v.task.interruptDepth + 1 = 1
    rw [hdepth]
  · rw [htraps]
    exact ⟨iff_of_true hn.1 ⟨hpl, rfl⟩, trivial⟩
  · rw [htraps]
    intro m hm _
    rw [mem_singleton.1 hm]
    exact hn.2
  · exact absurd ha (h.not_asleep_of_inUser hu)
  · rw [htraps]
    exact cons_ne_nil _ _

theorem Nests.single (hpl : v.task.privilegeLevel = 3) (hd : v.task.interruptDepth = 1) :
    ∃ n, v.traps = [n] ∧ n.Outer := by
  obtain ⟨n, hn⟩ := length_eq_one_iff.1 (h.depth.symm.trans hd)
  have hshape := h.shape
  rw [hn] at hshape
  have huser := hshape.1.2 ⟨hpl, rfl⟩
  exact ⟨n, hn, huser, h.outer n (by rw [hn]; exact mem_singleton_self n) huser⟩

theorem Nests.awake (hpl : v.task.privilegeLevel = 3) (hd : v.task.interruptDepth = 1)
    (hx : v.task.state ≠ .exiting) : v.task.state = .running ∨ v.task.state = .uninterruptible := by
  cases hst : v.task.state with
  | running => exact .inl rfl
  | uninterruptible => exact .inr rfl
  | zombie => exact absurd hst h.alive.ne_zombie
  | exiting => exact absurd hst hx
  | interruptible =>
    obtain ⟨n, hn, hout⟩ := h.single hpl hd
    obtain ⟨m, hm, hl⟩ := h.asleep hpl (.inl hst)
    rw [hn] at hm
    rw [mem_singleton.1 hm, hout.2] at hl
    cases hl

end

section
variable {r : Resume}

theorem Processed.state (h : Processed t t' r) (hr : r ≠ .yielded) :
    t'.state = t.state ∧ t'.nonStopState = t.nonStopState := by
  cases h with
  | skip => exact ⟨rfl, rfl⟩
  | none => exact ⟨rfl, rfl⟩
  | ignore sig => simp
  | exit sig => exact absurd rfl hr
  | user sig => simp

end

variable {w : TrapTask} {esp new : Frame} {f : Option Frame}

theorem Nests.popped (h : Nests v) {n : Nested} {ns : List Nested} (hn : v.traps = n :: ns)
    (hd : t.interruptDepth = v.task.interruptDepth) (hpl : t.privilegeLevel = v.task.privilegeLevel)
    (hs : t.signalScheduled = v.task.signalScheduled)
    (hst : t.state = v.task.state ∧ t.nonStopState = v.task.nonStopState) (hx : v.task.state ≠ .exiting)
    (hl : v.task.state = .running ∨ n.locals = none) : Nests ((v.left t).popped n ns) where
  alive := h.alive.congr hst.1 hst.2
  depth := by
    change t.interruptDepth - 1 = ns.length
    rw [hd, h.depth, hn, length_cons, Nat.add_sub_cancel]
  shape := by
    have hshape := h.shape
    rw [hn] at hshape
    change Shape t.privilegeLevel ns
    rw [hpl]
    exact hshape.2
  outer m hm := h.outer m (by rw [hn]; exact mem_cons_of_mem _ hm)
  handler hc := by
    change t.privilegeLevel = 3 ∧ _
    rw [hpl]
    exact h.handler (hs ▸ hc)
  asleep h3 ha := by
    have ha' : v.task.Asleep := by
      change t.Asleep at ha
      rwa [Task.Asleep, hst.1, hst.2] at ha
    obtain ⟨m, hm, hm'⟩ := h.asleep (hpl ▸ h3) ha'
    rw [hn] at hm
    rcases mem_cons.1 hm with rfl | hm
    · rcases hl with hl | hl
      · simp [Task.Asleep, hl] at ha'
      rw [hl] at hm'
      cases hm'
    · exact ⟨m, hm, hm'⟩
  ended hc := absurd (hst.1.symm.trans hc) hx

theorem Nests.finished (h : Nests v) (hf : Finished v esp new w f) (hx : v.task.state ≠ .exiting)
    (hl : v.task.state = .running ∨ ∃ n ns, v.traps = n :: ns ∧ n.locals = none) : Nests w := by
  have hl' {n : Nested} {ns : List Nested} (hn : v.traps = n :: ns) : v.task.state = .running ∨ n.locals = none := by
    refine hl.imp id fun ⟨m, ms, hm, hml⟩ => ?_
    rw [hn, cons_eq_cons] at hm
    rw [hm.1]
    exact hml
  cases hf with
  | yielded t hp =>
    obtain ⟨ha, hs, hst⟩ := hp.of_yielded
    refine ⟨⟨by simp [hst], by simp [hst]⟩, hp.interruptDepth.trans h.depth, ?_, h.outer,
      fun hc => ?_, fun _ hc => ?_, fun _ he => ?_⟩
    · rw [hp.privilegeLevel]
      exact h.shape
    · rw [hs] at hc
      cases hc
    · simp [Task.Asleep, hst] at hc
    obtain ⟨n, hn, -⟩ := h.single ha.1 ha.2.1
    rw [hn] at he
    cases he
  | normal t n ns hp hs hn =>
    exact h.popped hn hp.interruptDepth hp.privilegeLevel (hp.of_normal.trans hs.symm) (hp.state (by simp)) hx (hl' hn)
  | signaled n ns hs hn => exact h.popped hn rfl rfl rfl ⟨rfl, rfl⟩ hx (hl' hn)
  | handler t hp ha =>
    obtain ⟨n, hn, hout⟩ := h.single ha.1 ha.2.1
    have hst := hp.state (by simp)
    refine ⟨h.alive.congr hst.1 hst.2, ?_, trivial, (fun m hm => by cases hm), fun _ => ?_,
      fun _ hc => ?_, fun hc => absurd (hst.1.symm.trans hc) hx⟩
    · change t.interruptDepth - 1 = 0
      rw [hp.interruptDepth, ha.2.1]
    · exact ⟨hp.privilegeLevel.trans ha.1, n, hn, hout⟩
    have hc' : v.task.Asleep := by
      change t.Asleep at hc
      rwa [Task.Asleep, hst.1, hst.2] at hc
    obtain ⟨m, hm, hml⟩ := h.asleep ha.1 hc'
    rw [hn] at hm
    rw [mem_singleton.1 hm, hout.2] at hml
    cases hml

end ZeldaOS
