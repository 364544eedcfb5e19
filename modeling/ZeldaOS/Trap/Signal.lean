import ZeldaOS.Trap.Nests

/-!
# The assertions of signal delivery

`prepare_signal_context` asserts that there is a handler, and `return_from_pl3_signal_context` that one is running.

* `signal_asserts_hold`: no assertion of the signal code fails.
-/

namespace ZeldaOS

open Machine Function

def TrapFault.Asserts (e : TrapFault) : Prop := e = .sigReturn ∨ e = .panic .assertion

def TrapOp.Handles (v : TrapTask) : TrapOp → Prop
  | .sysSignal _ handler => handler ≠ 0
  | .sigReturn => v.InUser → v.task.signalScheduled = true
  | _ => True

instance TrapOp.decidableHandles (v : TrapTask) : (op : TrapOp) → Decidable (op.Handles v)
  | .sysSignal _ _ => inferInstanceAs (Decidable (_ ≠ _))
  | .sigReturn => inferInstanceAs (Decidable (_ → _))
  | .spawn _ _ | .trap | .yieldCpu | .sleep | .block | .signal _ _ | .wakeUp _ | .leave | .switch _
  | .exitCall | .reclaim _ => inferInstanceAs (Decidable True)

/-! ## Dispositions -/

def Task.SameDispositions (t t' : Task) : Prop :=
  ∀ sig, ∃ b, t'.sigEntries sig = { t.sigEntries sig with signaled := b }

variable {t t' : Task}

theorem Task.SameDispositions.of_eq (h : t'.sigEntries = t.sigEntries) :
    t.SameDispositions t' := fun sig => ⟨(t.sigEntries sig).signaled, by rw [h]⟩

theorem Task.SameDispositions.trans {u w : Task} (h : t.SameDispositions u) (h' : u.SameDispositions w) :
    t.SameDispositions w := by
  intro sig
  obtain ⟨b, hb⟩ := h sig
  obtain ⟨b', hb'⟩ := h' sig
  exact ⟨b', by rw [hb', hb]⟩

theorem sameDispositions_update (t : Task) (sig : Sig) (b : Bool)
    (h : t'.sigEntries = update t.sigEntries sig { t.sigEntries sig with signaled := b }) : t.SameDispositions t' := by
  intro sig'
  rw [h, update_apply]
  split_ifs with hs
  · rw [hs]
    exact ⟨b, rfl⟩
  · exact ⟨(t.sigEntries sig').signaled, rfl⟩

variable {sig : Sig}

theorem signalTask_dispositions (h : signalTask t sig = .ok t') : t.SameDispositions t' := by
  rcases signalTask_cases h with rfl | ⟨-, rfl⟩ | ⟨-, rfl⟩ | h
  · exact .of_eq rfl
  · exact .of_eq rfl
  · exact .of_eq rfl
  · exact sameDispositions_update t sig true (rawTaskWakeUp_kept h).1

theorem callSysExit_dispositions (h : callSysExit t = .ok t') : t.SameDispositions t' := by
  obtain ⟨u, hu, h⟩ := bind_eq_ok h
  exact (signalTask_dispositions hu).trans (signalTask_dispositions h)

theorem transitState_kept {st : TaskState} (h : transitState t st = .ok t') :
    t'.sigEntries = t.sigEntries ∧ t'.signalPending = t.signalPending := by
  rw [transitState] at h
  split_ifs at h
  cases h
  exact ⟨rfl, rfl⟩

theorem Processed.dispositions {r : Resume} (h : Processed t t' r) : t.SameDispositions t' := by
  cases h with
  | skip => exact .of_eq rfl
  | none => exact .of_eq rfl
  | ignore sig => exact sameDispositions_update t sig false (t.taken_sigEntries sig)
  | exit sig => exact sameDispositions_update t sig false (t.taken_sigEntries sig)
  | user sig => exact sameDispositions_update t sig false (t.taken_sigEntries sig)

variable {v : TrapTask} {esp new : Frame}

theorem Finished.dispositions {w : TrapTask} {f : Option Frame} (h : Finished v esp new w f) :
    v.task.SameDispositions w.task := by
  cases h with
  | yielded t hp => exact hp.dispositions
  | normal t n ns hp => exact hp.dispositions
  | signaled n ns => exact .of_eq rfl
  | handler t hp => exact hp.dispositions

theorem Coded.dispositions {C : TrapTask → TrapOp → Prop} {x : Except Panic Task} (hx : Coded C v x) (ht : x = .ok t) :
    v.task.SameDispositions t ∨ ∃ n entry, C v (.sysSignal n entry) ∧ t = callSysSignal v.task n entry := by
  cases hx with
  | block => exact .inl (.of_eq (transitState_kept ht).1)
  | signal sig => exact .inl (signalTask_dispositions ht)
  | wakeUp => exact .inl (.of_eq (rawTaskWakeUp_kept ht).1)
  | sysSignal n entry hc => exact .inr ⟨n, entry, hc, (Except.ok.inj ht).symm⟩

/-! ## Handlers -/

def Task.Deliverable (t : Task) : Prop :=
  ∀ sig, (t.sigEntries sig).action = .user → (t.sigEntries sig).valid = true ∧ (t.sigEntries sig).userEntry ≠ 0

theorem Task.Deliverable.congr (h : t.Deliverable) (hd : t.SameDispositions t') : t'.Deliverable := by
  intro sig ha
  obtain ⟨b, hb⟩ := hd sig
  rw [hb] at ha ⊢
  exact h sig ha

theorem Task.Deliverable.callSysSignal (h : t.Deliverable) (n : ℤ) {entry : ℕ} (h0 : entry ≠ 0) :
    (callSysSignal t n entry).Deliverable := by
  obtain he | ⟨sig, hv, he⟩ := callSysSignal_cases t n entry
  · rwa [he]
  rw [he]
  intro sig' ha
  change (update t.sigEntries sig _ sig').action = .user at ha
  change (update t.sigEntries sig _ sig').valid = true ∧ (update t.sigEntries sig _ sig').userEntry ≠ 0
  rw [update_apply] at ha ⊢
  split_ifs at ha ⊢ with hs
  · exact ⟨by simpa using (not_or.1 hv).1, h0⟩
  · exact h sig' ha

theorem deliverable_new (user : Bool) (f : Frame) : (newTask user f).task.Deliverable := by
  cases user <;> intro sig ha
  · cases ha
  have hinit : ∀ sig : Sig, (initEntry sig).action ≠ .user := by decide
  exact absurd ha (hinit sig)

theorem rawTaskWakeUp_ne_assertion (h : t.Alive) : rawTaskWakeUp t ≠ .error .assertion := by
  by_cases hx : t.state = .exiting
  · rw [rawTaskWakeUp, hx]
    simp
  obtain ⟨t', ht⟩ := h.wakeable hx
  rw [ht]
  simp

theorem signalTask_ne_assertion (h : t.Alive) (h0 : sig ≠ 0) : signalTask t sig ≠ .error .assertion := by
  by_cases hx : t.state = .exiting ∧ (t.sigEntries sig).valid = true ∧
      (t.sigEntries sig).action ≠ .stop ∧ (t.sigEntries sig).action ≠ .continue
  · rw [signalTask_other h0 hx.2.1 hx.2.2.1 hx.2.2.2]
    exact rawTaskWakeUp_ne_assertion (h.congr rfl rfl)
  obtain ⟨t', ht⟩ := signalTask_sent h h0 hx
  rw [ht]
  simp

theorem callSysExit_ne_assertion (h : t.Alive) : callSysExit t ≠ .error .assertion := by
  intro he
  unfold callSysExit at he
  cases hu : signalTask t sigCont with
  | error p =>
    rw [hu] at he
    cases he
    exact signalTask_ne_assertion h (by decide) hu
  | ok u =>
    rw [hu] at he
    have hquit : signalTask u sigQuit = .error .assertion := he
    exact signalTask_ne_assertion ((evolves_signalTask hu).alive h) (by decide) hquit

theorem nextSignal_ne_zero (h : nextSignal t 1 = some sig) : sig ≠ 0 := by
  have hp := List.find?_some h
  rintro rfl
  simp at hp

theorem Nests.processSignal_ne_assertion (h : Nests v) (hd : v.task.Deliverable) (hx : v.task.state ≠ .exiting) :
    taskProcessSignal v.task ≠ .error .assertion := by
  unfold taskProcessSignal
  split_ifs with hpl hst hpend
  · cases hn : nextSignal v.task 1 with
    | none =>
      rw [handlePending, hn]
      simp
    | some sig =>
      rw [handlePending_some hn]
      cases hact : (v.task.sigEntries sig).action with
      | exit =>
        simp only [transitState]
        split_ifs <;> simp [bind, Except.bind]
      | user =>
        -- the one place where the handler is looked at
        obtain ⟨hv, he⟩ := hd sig hact
        have hprep : ∃ u, prepareSignalContext (v.task.taken sig) sig = .ok u := by
          refine ⟨_, if_pos ⟨?_, nextSignal_ne_zero hn, ?_, ?_, ?_⟩⟩
          · rw [Task.taken_privilegeLevel]
            exact hpl.1
          all_goals rw [Task.taken_sigEntries, update_self]
          · exact hv
          · exact hact
          · exact he
        obtain ⟨u, hu⟩ := hprep
        simp [hu, bind, Except.bind]
      | ignore => simp
      | stop => simp
      | «continue» => simp
  · simp
  · exact absurd (h.awake hpl.1 hpl.2 hx) hst
  · simp

structure Delivers (v : TrapTask) : Prop extends Nests v where
  deliverable : v.task.Deliverable

theorem Delivers.finish (h : Delivers v) {L : ℕ → List Frame → Frame → Prop} {k : ℕ} {X : List Frame}
    (hL : ∀ f, L k X f) (hx : v.task.state ≠ .exiting)
    (hl : v.task.state = .running ∨ ∃ n ns, v.traps = n :: ns ∧ n.locals = none) :
    Ends (LeftIn (fun _ _ => Delivers) L k X) (fun e => ¬e.Asserts) (ZeldaOS.finish v esp new) := by
  refine finished_ends (fun p hp => ?_) (by simp [TrapFault.Asserts]) (by simp [TrapFault.Asserts])
    fun w f hf => ⟨⟨h.toNests.finished hf hx hl, h.deliverable.congr hf.dispositions⟩, fun f _ => hL f⟩
  rintro (he | he)
  · cases he
  cases he
  exact h.processSignal_ne_assertion h.deliverable hx hp

theorem delivers_local :
    Local (fun v op => op.Handles v) (fun _ _ => Delivers) (fun _ _ _ => True) fun e => ¬e.Asserts where
  later h := h
  laterLog _ := trivial
  others h := h
  othersLog _ := trivial
  new user _ := ⟨nests_new user _, deliverable_new user _⟩
  code h hx := by
    refine inTrap_ends (fun t ht => ⟨h.toNests.code hx ht, ?_⟩) fun p hp => ?_
    · obtain hd | ⟨n, entry, hc, rfl⟩ := hx.dispositions ht
      · exact h.deliverable.congr hd
      · exact h.deliverable.callSysSignal n hc
    rintro (he | he)
    · cases he
    cases he
    cases hx with
    | block => cases transitState_panic hp
    | signal sig h0 => exact signalTask_ne_assertion h.alive h0 hp
    | wakeUp => exact rawTaskWakeUp_ne_assertion h.alive hp
    | sysSignal => cases hp
  trap h hx _ := ⟨h.toNests.trap fun _ => rfl, by rw [trap_task]; exact h.deliverable⟩
  yieldCpu h hu _ := ⟨h.toNests.trap fun hc => absurd hc hu, by rw [trap_task]; exact h.deliverable⟩
  sleep h hu ht _ := by
    have hd := h.deliverable.congr (.of_eq (transitState_kept ht).1)
    exact ⟨h.toNests.sleep hu ht _ _, by rw [trap_task]; exact hd⟩
  insomnia src dst := by simp [TrapFault.Asserts]
  exit h _ hx hl := h.finish (fun _ => trivial) hx hl
  sigReturn h _ hu hC := by
    rw [if_pos (hC hu)]
    obtain ⟨hn, n, htraps, hout⟩ := h.toNests.unparked hu (hC hu) ⟨_, true⟩
    have hd : Delivers (TrapTask.unparked _ ⟨_, true⟩) := ⟨hn, h.deliverable⟩
    exact hd.finish (fun _ => trivial) (h.toNests.not_exiting_of_inUser hu) (.inr ⟨n, [], htraps, hout.2⟩)
  exitCall {k X v} h _ hu _ := by
    have hn := h.toNests.trap_user hu k
    cases ht : callSysExit (v.trap ⟨k, true⟩ none).task with
    | error p =>
      rintro (he | he)
      · cases he
      cases he
      exact callSysExit_ne_assertion hn.alive ht
    | ok t =>
      have hdeliver : t.Deliverable := by
        refine Task.Deliverable.congr ?_ (callSysExit_dispositions ht)
        rw [trap_task]
        exact h.deliverable
      have hnt : Delivers { v.trap ⟨k, true⟩ none with task := t, exited := some ⟨k, true⟩ } :=
        ⟨(hn.callSysExit ht).exited _, hdeliver⟩
      refine hnt.finish (fun _ => trivial) (fun hc => h.toNests.not_exiting_of_inUser hu ?_) (.inr ⟨_, _, rfl, rfl⟩)
      have hx := ((evolves_callSysExit ht).exiting hn.alive).1 hc
      rwa [trap_task] at hx

/-- **When tasks register no handler at 0 and come to `return_from_pl3_signal_context` only out of a handler, no
`ASSERT` of the signal code fails.** -/
theorem signal_asserts_hold (ops : List TrapOp)
    (h : Along TrapState.step (fun s op => ∀ v ∈ s.currentTask, op.Handles v) .start ops) :
    runSteps TrapState.step .start ops ≠ .error .sigReturn ∧
      runSteps TrapState.step .start ops ≠ .error (.panic .assertion) := by
  have hrun := delivers_local.run h
  refine ⟨fun he => ?_, fun he => ?_⟩ <;> rw [he] at hrun
  · exact hrun (.inl rfl)
  · exact hrun (.inr rfl)

theorem signal_asserts_hold_handler :
    (∃ s, runSteps TrapState.step .start (handlerTrace ++ [.leave, .sigReturn]) = .ok s) ∧
      runSteps TrapState.step .start (handlerTrace ++ [.leave, .sigReturn]) ≠ .error .sigReturn :=
  ⟨⟨_, rfl⟩, (signal_asserts_hold (handlerTrace ++ [.leave, .sigReturn]) (by decide)).1⟩

/-- **A handler at 0 that is sent its signal, and a jump to `return_from_pl3_signal_context`, halt the kernel.** -/
theorem signal_asserts_fail :
    runSteps TrapState.step .start [.spawn 1 true, .trap, .switch 1, .trap, .sysSignal 2 0, .leave,
        .trap, .signal 1 sigInt, .leave] = .error (.panic .assertion) ∧
      runSteps TrapState.step .start [.spawn 1 true, .trap, .switch 1, .sigReturn] = .error .sigReturn :=
  ⟨rfl, rfl⟩

end ZeldaOS
