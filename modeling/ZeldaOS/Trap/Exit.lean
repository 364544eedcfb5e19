import ZeldaOS.Trap.Signal

/-!
# Exit is final

`call_sys_exit` queues `SIGQUIT` and returns into an interrupt exit that should never restore the frame.

* `exit_final`: no frame of an exit call is restored.
-/

namespace ZeldaOS

open Machine List Function

def Task.Quitting (t : Task) : Prop :=
  t.signalPending = true ∧ (t.sigEntries sigQuit).signaled = true

/-- It is exiting, or it runs the handler of a lower signal and `SIGQUIT` waits. -/
def Leaving (v : TrapTask) : Prop :=
  v.task.state = .exiting ∨
    v.task.signalScheduled = true ∧ v.task.Quitting ∧ ∃ sig, v.handling = some sig ∧ sig < sigQuit

structure ExitFinal (s : TrapState) : Prop where
  restored : ∀ f ∈ s.exits, ∀ e ∈ s.log, e.frame ≠ f
  leaving : ∀ t v, s.tasks t = some v → v.exited.isSome = true → Leaving v

def TrapOp.Outside (v : TrapTask) : TrapOp → Prop
  | .exitCall => v.task.signalScheduled = false
  | _ => True

instance TrapOp.decidableOutside (v : TrapTask) : (op : TrapOp) → Decidable (op.Outside v)
  | .exitCall => inferInstanceAs (Decidable (_ = _))
  | .spawn _ _ | .trap | .yieldCpu | .sleep | .block | .signal _ _ | .wakeUp _ | .sysSignal _ _
  | .leave | .switch _ | .sigReturn | .reclaim _ => inferInstanceAs (Decidable True)

/-! ## Pending `SIGQUIT` -/

structure Task.Quits (t : Task) : Prop where
  valid : (t.sigEntries sigQuit).valid = true
  action : (t.sigEntries sigQuit).action = .exit
  fixed : (t.sigEntries sigQuit).overridable = false
  lower : ∀ sig, sig ≠ 0 → sig ≤ sigQuit → (t.sigEntries sig).action = .exit ∨ (t.sigEntries sig).action = .user

theorem quits_new (f : Frame) : (newTask true f).task.Quits where
  valid := rfl
  action := rfl
  fixed := rfl
  lower := by
    have hinit : ∀ sig : Sig, sig ≠ 0 → sig ≤ sigQuit → (initEntry sig).action = .exit := by decide
    exact fun sig h0 hq => .inl (hinit sig h0 hq)

section
variable {t t' : Task}

theorem Task.Quits.congr (h : t.Quits) (hd : t.SameDispositions t') : t'.Quits := by
  obtain ⟨b, hb⟩ := hd sigQuit
  refine ⟨by rw [hb]; exact h.valid, by rw [hb]; exact h.action, by rw [hb]; exact h.fixed, ?_⟩
  intro sig h0 hq
  obtain ⟨b', hb'⟩ := hd sig
  rw [hb']
  exact h.lower sig h0 hq

theorem Task.Quits.callSysSignal (h : t.Quits) (n : ℤ) (entry : ℕ) : (callSysSignal t n entry).Quits := by
  obtain he | ⟨sig, hv, he⟩ := callSysSignal_cases t n entry
  · rwa [he]
  rw [he]
  have hne : sigQuit ≠ sig := by
    rintro rfl
    exact hv (.inr h.fixed)
  have hquit : (t.setEntry sig { t.sigEntries sig with action := .user, userEntry := entry }).sigEntries sigQuit =
      t.sigEntries sigQuit := update_of_ne hne _ _
  refine ⟨by rw [hquit]; exact h.valid, by rw [hquit]; exact h.action, by rw [hquit]; exact h.fixed, ?_⟩
  intro sig' h0 hq
  change (update t.sigEntries sig _ sig').action = .exit ∨ (update t.sigEntries sig _ sig').action = .user
  rw [update_apply]
  split_ifs
  · exact .inr rfl
  · exact h.lower sig' h0 hq

theorem Task.Quitting.congr (h : t.Quitting) (he : t'.sigEntries = t.sigEntries)
    (hp : t'.signalPending = t.signalPending) : t'.Quitting :=
  ⟨hp.trans h.1, by rw [he]; exact h.2⟩

theorem Task.Quitting.signal (h : t.Quitting) {sig : Sig} (hs : signalTask t sig = .ok t') : t'.Quitting := by
  rcases signalTask_cases hs with rfl | ⟨-, rfl⟩ | ⟨-, rfl⟩ | hw
  · exact h
  · exact h
  · exact h
  refine Task.Quitting.congr ⟨rfl, ?_⟩ (rawTaskWakeUp_kept hw).1 (rawTaskWakeUp_kept hw).2
  change (update t.sigEntries sig _ sigQuit).signaled = true
  rw [update_apply]
  split_ifs
  · rfl
  · exact h.2

theorem Task.Quitting.callSysSignal (h : t.Quitting) (n : ℤ) (entry : ℕ) : (callSysSignal t n entry).Quitting := by
  obtain he | ⟨sig, -, he⟩ := callSysSignal_cases t n entry
  · rwa [he]
  rw [he]
  refine ⟨h.1, ?_⟩
  change (update t.sigEntries sig _ sigQuit).signaled = true
  rw [update_apply]
  split_ifs with hs
  · rw [← hs]
    exact h.2
  · exact h.2

theorem Task.Quits.callSysExit (h : t.Quits) (hx : callSysExit t = .ok t') : t'.Quits ∧ t'.Quitting := by
  obtain ⟨u, hu, hx⟩ := bind_eq_ok hx
  have hqu := h.congr (signalTask_dispositions hu)
  refine ⟨hqu.congr (signalTask_dispositions hx), ?_⟩
  rw [signalTask_other (by decide) hqu.valid (by simp [hqu.action]) (by simp [hqu.action])] at hx
  refine Task.Quitting.congr ⟨rfl, ?_⟩ (rawTaskWakeUp_kept hx).1 (rawTaskWakeUp_kept hx).2
  change (update u.sigEntries sigQuit { u.sigEntries sigQuit with signaled := true } sigQuit).signaled = true
  rw [update_self]

theorem Task.Quitting.taken (h : t.Quitting) (hq : t.Quits) {sig : Sig} (hlt : sig < sigQuit) :
    (t.taken sig).Quitting := by
  have hquit : (t.setEntry sig { t.sigEntries sig with signaled := false }).sigEntries sigQuit =
      t.sigEntries sigQuit := update_of_ne hlt.ne' _ _
  constructor
  · unfold Task.taken
    rw [if_neg]
    · exact h.1
    rw [Option.isNone_iff_eq_none, nextSignal_eq_none_iff]
    intro hnone
    have := hnone sigQuit (Nat.succ_le_of_lt hlt) (by rw [hquit]; exact hq.valid)
    rw [hquit, h.2] at this
    cases this
  · rw [Task.taken_sigEntries, update_of_ne hlt.ne']
    exact h.2

theorem Processed.quitting {r : Resume} (h : Processed t t' r) (ha : t.Acts) (hq : t.Quits) (hqg : t.Quitting) :
    r = .yielded ∨ r = .signaled ∧ t'.Quitting ∧ ∃ sig, nextSignal t 1 = some sig ∧ sig < sigQuit := by
  have hle {sig : Sig} (hn : nextSignal t 1 = some sig) : sig ≤ sigQuit :=
    (nextSignal_eq_some hn).2 sigQuit (by decide) hq.valid hqg.2
  cases h with
  | skip hna => exact absurd ha hna
  | none _ hn =>
    have := nextSignal_eq_none_iff.1 hn sigQuit (by decide) hq.valid
    rw [hqg.2] at this
    cases this
  | ignore sig _ hn hi =>
    rcases hq.lower sig (nextSignal_ne_zero hn) (hle hn) with h | h <;> rw [h] at hi <;> cases hi
  | exit sig => exact .inl rfl
  | user sig _ hn hu =>
    have hlt : sig < sigQuit := by
      refine lt_of_le_of_ne (hle hn) ?_
      rintro rfl
      rw [hq.action] at hu
      cases hu
    have htaken := hqg.taken hq hlt
    exact .inr ⟨rfl, ⟨htaken.1, htaken.2⟩, sig, hn, hlt⟩

end

/-! ## Departing tasks -/

/-- What holds of a task, with the exit frames `X`. -/
structure Departing (k : ℕ) (X : List Frame) (v : TrapTask) : Prop where
  quits : v.task.privilegeLevel = 3 → v.task.Quits
  known : ∀ n ∈ v.traps, n.frame.serial < k
  knownParked : ∀ n ∈ v.parked, n.frame.serial < k
  gone : ∀ n ∈ v.traps, n.frame ∈ X → v.task.state = .exiting
  waits : ∀ n ∈ v.parked, n.frame ∈ X → v.exited.isSome = true
  leaving : v.exited.isSome = true → Leaving v

structure Departs (k : ℕ) (X : List Frame) (v : TrapTask) : Prop extends Nests v, Departing k X v

def Restored (k : ℕ) (X : List Frame) (f : Frame) : Prop := f.serial < k ∧ f ∉ X

section
variable {k : ℕ} {X : List Frame} {v w : TrapTask} {t : Task}

theorem mem_cons_exit {f : Frame} (hf : f.serial < k) (h : f ∈ (⟨k, true⟩ : Frame) :: X) : f ∈ X := by
  rcases mem_cons.1 h with rfl | h
  · exact absurd hf (lt_irrefl k)
  · exact h

theorem Departing.congr (h : Departing k X v) (hq : t.privilegeLevel = 3 → t.Quits)
    (hx : v.task.state = .exiting → t.state = .exiting)
    (hl : v.task.signalScheduled = true → v.task.Quitting → t.signalScheduled = true ∧ t.Quitting) :
    Departing k X { v with task := t } where
  quits := hq
  known := h.known
  knownParked := h.knownParked
  gone n hm hX := hx (h.gone n hm hX)
  waits := h.waits
  leaving he := by
    rcases h.leaving he with hst | ⟨hs, hqg, hsig⟩
    · exact .inl (hx hst)
    · exact .inr ⟨(hl hs hqg).1, (hl hs hqg).2, hsig⟩

theorem Departing.later (h : Departing k X v) : Departing (k + 1) X v :=
  { h with
    known := fun n hn => Nat.lt_succ_of_lt (h.known n hn)
    knownParked := fun n hn => Nat.lt_succ_of_lt (h.knownParked n hn) }

theorem Departing.others (h : Departing k X v) : Departing (k + 1) (⟨k, true⟩ :: X) v :=
  { h.later with
    gone := fun n hn hX => h.gone n hn (mem_cons_exit (h.known n hn) hX)
    waits := fun n hn hX => h.waits n hn (mem_cons_exit (h.knownParked n hn) hX) }

theorem Departs.code (h : Departs k X v) {C : TrapTask → TrapOp → Prop} {x : Except Panic Task}
    (hx : Coded C v x) (ht : x = .ok t) : Departs k X { v with task := t } := by
  have hpl : t.privilegeLevel = v.task.privilegeLevel ∧
      t.signalScheduled = v.task.signalScheduled ∧ (v.task.state = .exiting → t.state = .exiting) ∧
      (v.task.Quitting → t.Quitting) := by
    cases hx with
    | block =>
      have hc := transitState_context ht
      exact ⟨hc.privilegeLevel, hc.signalScheduled, ((evolves_block ht).2.2.exiting h.alive).2,
        fun hq => hq.congr (transitState_kept ht).1 (transitState_kept ht).2⟩
    | signal sig =>
      have hc := signalTask_context ht
      exact ⟨hc.privilegeLevel, hc.signalScheduled, ((evolves_signalTask ht).exiting h.alive).2, fun hq => hq.signal ht⟩
    | wakeUp =>
      have hc := rawTaskWakeUp_context ht
      exact ⟨hc.privilegeLevel, hc.signalScheduled, ((evolves_rawTaskWakeUp ht).exiting h.alive).2,
        fun hq => hq.congr (rawTaskWakeUp_kept ht).1 (rawTaskWakeUp_kept ht).2⟩
    | sysSignal n entry =>
      cases ht
      have hc := callSysSignal_context v.task n entry
      exact ⟨hc.privilegeLevel, hc.signalScheduled,
        ((evolves_callSysSignal v.task n entry).exiting h.alive).2, fun hq => hq.callSysSignal n entry⟩
  obtain ⟨hpl, hs, hst, hqg⟩ := hpl
  refine ⟨h.toNests.code hx ht, h.toDeparting.congr (fun h3 => ?_) hst fun hs' hq => ⟨hs.trans hs', hqg hq⟩⟩
  have hq := h.quits (hpl ▸ h3)
  obtain hd | ⟨n, entry, -, rfl⟩ := hx.dispositions ht
  · exact hq.congr hd
  · exact hq.callSysSignal n entry

theorem trap_handling (v : TrapTask) (f : Frame) (locals : Option (Frame × Frame)) :
    (v.trap f locals).handling = v.handling ∧ (v.trap f locals).exited = v.exited := by
  cases hs : v.task.signalScheduled <;> simp [TrapTask.trap, taskPreInterruptHandler, hs]

theorem Departing.trap (h : Departing k X v) (hX : ∀ f ∈ X, f.serial < k) (user : Bool)
    (locals : Option (Frame × Frame)) : Departing (k + 1) X (v.trap ⟨k, user⟩ locals) where
  quits := by
    rw [trap_task]
    intro hpl
    have hq := h.quits hpl
    exact ⟨hq.valid, hq.action, hq.fixed, hq.lower⟩
  known n hm := by
    rcases mem_cons.1 hm with rfl | hm
    · exact Nat.lt_succ_self k
    · exact Nat.lt_succ_of_lt (h.known n hm)
  knownParked n hm := by
    rw [trap_parked] at hm
    exact Nat.lt_succ_of_lt (h.knownParked n hm)
  gone n hm hnX := by
    rw [trap_task]
    rcases mem_cons.1 hm with rfl | hm
    · exact absurd (hX _ hnX) (lt_irrefl k)
    · exact h.gone n hm hnX
  waits n hm hnX := by
    rw [trap_parked] at hm
    rw [(trap_handling v _ _).2]
    exact h.waits n hm hnX
  leaving he := by
    rw [(trap_handling v _ _).2] at he
    rw [Leaving, trap_task, (trap_handling v _ _).1]
    exact h.leaving he

theorem Departing.restored (h : Departing k X v) (hx : v.task.state ≠ .exiting) {n : Nested}
    (hn : n ∈ v.traps) : Restored (k + 1) X n.frame :=
  ⟨Nat.lt_succ_of_lt (h.known n hn), fun hX => hx (h.gone n hn hX)⟩

theorem restored_new (hX : ∀ f ∈ X, f.serial < k) : Restored (k + 1) X ⟨k, true⟩ :=
  ⟨Nat.lt_succ_self k, fun hf => absurd (hX _ hf) (lt_irrefl k)⟩

theorem Departing.scheduled_of_exited (h : Departing k X v) (hx : v.task.state ≠ .exiting)
    (he : v.exited.isSome = true) : v.task.signalScheduled = true ∧ v.task.Quitting := by
  rcases h.leaving he with hst | ⟨hs, hq, -⟩
  · exact absurd hst hx
  · exact ⟨hs, hq⟩

theorem Departs.finished (h : Departs k X v) (hX : ∀ f ∈ X, f.serial < k) (hx : v.task.state ≠ .exiting)
    (hl : v.task.state = .running ∨ ∃ n ns, v.traps = n :: ns ∧ n.locals = none) {esp : Frame}
    {f : Option Frame} (hf : Finished v esp ⟨k, true⟩ w f) : LeftIn Departs Restored (k + 1) X (w, f) := by
  have hn := h.toNests.finished hf hx hl
  have hq (hpl : v.task.privilegeLevel = 3) : w.task.Quits := (h.quits hpl).congr hf.dispositions
  cases hf with
  | yielded t hp =>
    have hst := hp.of_yielded.2.2
    exact ⟨⟨hn, fun h3 => hq (hp.privilegeLevel ▸ h3), fun n hm => Nat.lt_succ_of_lt (h.known n hm),
      fun n hm => Nat.lt_succ_of_lt (h.knownParked n hm), fun _ _ _ => hst, h.waits,
      fun _ => .inl hst⟩, fun f hf => by cases hf⟩
  | normal t n ns hp hs htraps hesp =>
    have hmem {m : Nested} (hm : m ∈ ns) : m ∈ v.traps := htraps ▸ mem_cons_of_mem _ hm
    refine ⟨⟨hn, fun h3 => hq (hp.privilegeLevel ▸ h3), fun m hm => Nat.lt_succ_of_lt (h.known m (hmem hm)),
      fun m hm => Nat.lt_succ_of_lt (h.knownParked m hm),
      fun m hm hmX => absurd (h.gone m (hmem hm) hmX) hx, h.waits, fun he => ?_⟩, fun f hf => ?_⟩
    · have := (h.scheduled_of_exited hx he).1
      rw [hs] at this
      cases this
    cases hf
    rw [← hesp]
    exact h.restored hx (htraps ▸ mem_cons_self)
  | signaled n ns hs htraps hptr =>
    have hmem {m : Nested} (hm : m ∈ ns) : m ∈ v.traps := htraps ▸ mem_cons_of_mem _ hm
    refine ⟨⟨hn, hq, fun m hm => Nat.lt_succ_of_lt (h.known m (hmem hm)),
      fun m hm => Nat.lt_succ_of_lt (h.knownParked m hm),
      fun m hm hmX => absurd (h.gone m (hmem hm) hmX) hx, h.waits, h.leaving⟩, fun f hf => ?_⟩
    cases hf
    rw [← hptr]
    exact h.restored hx (htraps ▸ mem_cons_self)
  | handler t hp ha =>
    refine ⟨⟨hn, fun h3 => hq (hp.privilegeLevel ▸ h3), (fun m hm => by cases hm),
      fun m hm => Nat.lt_succ_of_lt (h.known m hm), (fun m hm => by cases hm),
      fun m hm hmX => absurd (h.gone m hm hmX) hx, fun he => ?_⟩, fun f hf => ?_⟩
    · have := (h.scheduled_of_exited hx he).1
      rw [ha.2.2.1] at this
      cases this
    · cases hf
      exact restored_new hX

theorem Nests.finished_quitting (h : Nests v) (hx : v.task.state ≠ .exiting) (ha : v.task.Acts)
    (hq : v.task.Quits) (hqg : v.task.Quitting) (hX : ∀ f ∈ X, f.serial < k)
    (hknown : ∀ n ∈ v.traps, n.frame.serial < k)
    (hparked : ∀ n ∈ v.parked, n.frame.serial < k) (he : v.exited.isSome = true) {esp : Frame}
    {f : Option Frame} (hf : Finished v esp ⟨k, true⟩ w f) : LeftIn Departs Restored (k + 1) X (w, f) := by
  obtain ⟨n, hn, hout⟩ := h.single ha.1 ha.2.1
  have hnests := h.finished hf hx (.inr ⟨n, [], hn, hout.2⟩)
  have hqw : w.task.Quits := hq.congr hf.dispositions
  cases hf with
  | yielded t hp =>
    have hst := hp.of_yielded.2.2
    exact ⟨⟨hnests, fun _ => hqw, fun n hm => Nat.lt_succ_of_lt (hknown n hm),
      fun n hm => Nat.lt_succ_of_lt (hparked n hm), fun _ _ _ => hst, fun _ _ _ => he,
      fun _ => .inl hst⟩, fun f hf => by cases hf⟩
  | normal t m ns hp =>
    rcases hp.quitting ha hq hqg with hr | ⟨hr, -⟩ <;> cases hr
  | signaled m ns hs =>
    rw [ha.2.2.1] at hs
    cases hs
  | handler t hp =>
    obtain hr | ⟨-, hqt, sig, hsig, hlt⟩ := hp.quitting ha hq hqg
    · cases hr
    have hs : t.signalScheduled = true := by
      rcases hp.resume with ⟨hr, -⟩ | ⟨-, hs, hts⟩ | ⟨-, -, hs⟩ | ⟨hr, -⟩
      · cases hr
      · rw [hts]
        exact hs
      · exact hs
      · cases hr
    refine ⟨⟨hnests, fun _ => hqw, (fun m hm => by cases hm),
      fun m hm => Nat.lt_succ_of_lt (hknown m hm), (fun m hm => by cases hm), fun _ _ _ => he,
      fun _ => .inr ⟨hs, hqt, sig, hsig, hlt⟩⟩, fun f hf => ?_⟩
    cases hf
    exact restored_new hX

end

theorem departs_local : Local (fun v op => op.Outside v) Departs Restored fun _ => True where
  later h := ⟨h.toNests, h.toDeparting.later⟩
  laterLog h := ⟨Nat.lt_succ_of_lt h.1, h.2⟩
  others h := ⟨h.toNests, h.toDeparting.others⟩
  othersLog h := ⟨Nat.lt_succ_of_lt h.1, fun hX => h.2 (mem_cons_exit h.1 hX)⟩
  new {k X} user hX := by
    refine ⟨nests_new user k, fun hpl => ?_, fun n hn => ?_, (fun n hn => by cases hn), fun n hn hnX => ?_,
      (fun n hn => by cases hn), fun he => by cases he⟩
    · cases user with
      | false => cases hpl
      | true => exact quits_new _
    · rw [mem_singleton.1 hn]
      exact Nat.lt_succ_self k
    · rw [mem_singleton.1 hn] at hnX
      exact absurd (hX _ hnX) (lt_irrefl k)
  code h hx := inTrap_ends (fun t ht => h.code hx ht) fun _ _ => trivial
  trap h _ hX := ⟨h.toNests.trap fun _ => rfl, h.toDeparting.trap hX _ _⟩
  yieldCpu h hu hX := ⟨h.toNests.trap fun hc => absurd hc hu, h.toDeparting.trap hX _ _⟩
  sleep {k X v t} h hu ht hX := by
    have hc := transitState_context ht
    obtain ⟨hent, hpend⟩ := transitState_kept ht
    refine ⟨h.toNests.sleep hu ht _ _, Departing.trap (h.toDeparting.congr (fun h3 => ?_) ?_ ?_) hX _ _⟩
    · exact (h.quits (hc.privilegeLevel ▸ h3)).congr (.of_eq hent)
    · exact ((evolves_block ht).2.2.exiting h.alive).2
    · exact fun hs hq => ⟨hc.signalScheduled.trans hs, hq.congr hent hpend⟩
  insomnia _ _ := trivial
  exit h hX hx hl := finished_ends (fun _ _ => trivial) trivial (fun _ _ _ => trivial)
    fun w f hf => h.finished hX hx hl hf
  sigReturn {k X v} h hX hu _ := by
    split_ifs with hs
    have hx := h.toNests.not_exiting_of_inUser hu
    obtain ⟨hn, n, htraps, hout⟩ := h.toNests.unparked hu hs ⟨k, true⟩
    have hexited : (v.unparked ⟨k, true⟩).exited = v.exited := (trap_handling v _ none).2
    have hlater : ∀ f ∈ X, f.serial < k + 1 := fun f hf => Nat.lt_succ_of_lt (hX f hf)
    have hq : (v.unparked ⟨k, true⟩).task.Quits := (h.quits hu.1).congr (.of_eq rfl)
    refine finished_ends (fun _ _ => trivial) trivial (fun _ _ _ => trivial) fun w f hf => ?_
    by_cases he : v.exited.isSome = true
    · -- the frame that was parked is the one of the exit call
      have hqg := (h.toDeparting.scheduled_of_exited hx he).2
      have hdepth : v.task.interruptDepth + 1 = 1 := by rw [h.depth, hu.2]; rfl
      exact hn.finished_quitting hx ⟨hu.1, hdepth, rfl, hqg.1⟩ hq hqg hlater
        (fun m hm => Nat.lt_succ_of_lt (h.knownParked m hm)) (fun m hm => by cases hm)
        (by rw [hexited]; exact he) hf
    · refine Departs.finished ⟨hn, fun _ => hq, fun m hm => Nat.lt_succ_of_lt (h.knownParked m hm),
        (fun m hm => by cases hm), fun m hm hmX => absurd (h.waits m hm hmX) he,
        (fun m hm => by cases hm), fun hc => ?_⟩ hlater hx (.inr ⟨n, [], htraps, hout.2⟩) hf
      rw [hexited] at hc
      exact absurd hc he
  exitCall {k X v} h hX hu hC := by
    have hn := h.toNests.trap_user hu k
    have hq : (v.trap ⟨k, true⟩ none).task.Quits := by
      rw [trap_task]
      exact (h.quits hu.1).congr (.of_eq rfl)
    cases ht : callSysExit (v.trap ⟨k, true⟩ none).task with
    | error p => trivial
    | ok t =>
      have hctx := callSysExit_context ht
      rw [trap_task] at hctx
      obtain ⟨hqt, hqg⟩ := hq.callSysExit ht
      have hdepth : t.interruptDepth = 1 := by
        rw [hctx.interruptDepth]
        change v.task.interruptDepth + 1 = 1
        rw [h.depth, hu.2]
        rfl
      refine finished_ends (fun _ _ => trivial) trivial (fun _ _ _ => trivial) fun w f hf => ?_
      refine ((hn.callSysExit ht).exited ⟨k, true⟩).finished_quitting (fun hc => ?_)
        ⟨hctx.privilegeLevel.trans hu.1, hdepth, hctx.signalScheduled.trans hC, hqg.1⟩ hqt hqg
        (fun f hf => ?_) (fun m hm => ?_) (fun m hm => ?_) rfl hf
      · have hst := ((evolves_callSysExit ht).exiting hn.alive).1 hc
        rw [trap_task] at hst
        exact h.toNests.not_exiting_of_inUser hu hst
      · rcases mem_cons.1 hf with rfl | hf
        · exact Nat.lt_succ_self k
        · exact Nat.lt_succ_of_lt (hX f hf)
      · rcases mem_cons.1 hm with rfl | hm
        · exact Nat.lt_succ_self k
        · exact Nat.lt_succ_of_lt (h.known m hm)
      change m ∈ (v.trap ⟨k, true⟩ none).parked at hm
      rw [trap_parked] at hm
      exact Nat.lt_succ_of_lt (h.knownParked m hm)

/-- **When the exit calls are made outside the user handlers, no frame of an exit call is ever restored, and a task
behind its exit call is exiting or runs the handler of a lower signal.** -/
theorem exit_final (ops : List TrapOp) (s : TrapState)
    (h : Along TrapState.step (fun s op => ∀ v ∈ s.currentTask, op.Outside v) .start ops)
    (hrun : runSteps TrapState.step .start ops = .ok s) : ExitFinal s := by
  have hs := departs_local.run h
  rw [hrun] at hs
  refine ⟨fun f hf e he hef => (hs.log e he).2 (hef ▸ hf), fun t v hv => (hs.task t v hv).leaving⟩

/-- A task that has a handler for `SIGINT`, is sent one and makes its exit call. -/
def interruptedExit : List TrapOp :=
  [.spawn 1 true, .trap, .switch 1, .trap, .sysSignal 2 0x8048000, .leave, .signal 1 sigInt, .exitCall]

theorem exit_final_interrupted :
    (∃ s, runSteps TrapState.step .start interruptedExit = .ok s ∧ s.exits.length = 1 ∧ ExitFinal s) ∧
      ∃ s, runSteps TrapState.step .start (interruptedExit ++ [.sigReturn]) = .ok s ∧
        (s.tasks 1).map (fun v => v.task.state) = some .exiting ∧ ExitFinal s :=
  ⟨⟨_, rfl, rfl, exit_final interruptedExit _ (by decide) rfl⟩,
    ⟨_, rfl, rfl, exit_final (interruptedExit ++ [.sigReturn]) _ (by decide) rfl⟩⟩

/-- **An exit call in the handler of `SIGUSR1`: the frame of the exit call is restored.** -/
theorem exit_not_final : ∃ s, runSteps TrapState.step .start [.spawn 1 true, .trap, .switch 1, .trap,
        .sysSignal 16 0x8048000, .leave, .trap, .signal 1 sigUsr1, .leave, .exitCall] = .ok s ∧
      ∃ f ∈ s.exits, ∃ e ∈ s.log, e.frame = f :=
  ⟨_, rfl, _, mem_singleton_self _, _, mem_cons_self, rfl⟩

end ZeldaOS
