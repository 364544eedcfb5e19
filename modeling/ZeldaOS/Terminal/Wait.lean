import ZeldaOS.Task.Alive
import ZeldaOS.Terminal.Model

/-!
# Readers of a pseudo terminal

When a task may sleep in a read.

* `readersServed_of_wakeful`: no reader sleeps that could read.
-/

namespace ZeldaOS

open Machine List Function

/-! ## The invariant -/

def Terminal.reader (s : Terminal) (t : ℕ) : Option Reader := (s.reading t).map Prod.fst

/-- A task that sleeps inside a read has nothing to read. -/
structure ReadersServed (s : Terminal) : Prop where
  master : ∀ t, s.reader t = some .master → (s.task t).state = .interruptible → s.ptty.ring.isEmpty = true
  slave : ∀ t, s.reader t = some .slave → (s.task t).state = .interruptible →
    s.ptty.foregroundTaskId ≠ t ∨ s.ptty.slaveRing.isEmpty = true

/-- Bytes for the foreground task are written only while it does not sleep. -/
def TerminalOp.Wakeful (s : Terminal) : TerminalOp → Prop
  | .ioctl (.slaveWrite bytes) => bytes = [] ∨
      ¬(s.reader s.ptty.foregroundTaskId = some .slave ∧ (s.task s.ptty.foregroundTaskId).Asleep)
  | _ => True

instance TerminalOp.decidableWakeful (s : Terminal) : (op : TerminalOp) → Decidable (op.Wakeful s)
  | .ioctl (.slaveWrite _) => inferInstanceAs (Decidable (_ ∨ _))
  | .ioctl .clear | .ioctl (.master _) | .ioctl (.foreground _) | .ioctl .unknown
  | .read _ _ | .resume _ | .key _ | .switchTo | .signal _ _ | .other _ _ =>
    inferInstanceAs (Decidable True)

variable {q : List ℕ}

theorem wakeUpQueue_spec {task : ℕ → Task} (h : ∀ t ∈ q, (task t).Lives) :
    ∃ task', wakeUpQueue task q = .ok task' ∧ (∀ t ∈ q, (task' t).Lives ∧ ¬(task' t).Asleep) ∧
      ∀ t ∉ q, task' t = task t := by
  have hwake : ∀ t ∈ q, (task t).Wakeable := fun t ht => (h t ht).alive.wakeable (h t ht).not_exiting
  refine ⟨_, wakeUpQueue_eq hwake, fun t ht => ?_, fun t ht => if_neg ht⟩
  rw [wakeAll, if_pos ht]
  exact ⟨(evolves_awake _).lives (h t ht), rawTaskWakeUp_awake (hwake t ht).awake_eq⟩

structure TerminalInvOn (s : Terminal) (P : ℕ → Prop) : Prop where
  nodup : ∀ k, (s.ptty.queue k).Nodup
  queued : ∀ t, P t → ∀ k, t ∈ s.ptty.queue k ↔ s.reader t = some k
  lives : ∀ t, P t → ∀ k, s.reader t = some k → (s.task t).Lives
  waits : ∀ t, P t → ∀ k, s.reader t = some k → (s.task t).Asleep → s.ptty.waits t k = true

abbrev TerminalInv (s : Terminal) : Prop := TerminalInvOn s fun _ => True

theorem terminalInv_start (task : ℕ → Task) : TerminalInv (.start task) where
  nodup k := by cases k <;> exact nodup_nil
  queued t _ k := by cases k <;> simp [Terminal.start, Terminal.reader, Ptty.queue, pttyInit]
  lives t _ k h := by cases h
  waits t _ k h := by cases h

variable {s : Terminal}

theorem TerminalInvOn.served (h : TerminalInv s) : ReadersServed s where
  master t hr hst := h.waits t trivial .master hr (.inl hst)
  slave t hr hst := by
    have hw := h.waits t trivial .slave hr (.inl hst)
    rw [Ptty.waits, Bool.or_eq_true, bne_iff_ne] at hw
    exact hw

@[simp]
theorem queue_setQueue_self (p : Ptty) (q : List ℕ) (k : Reader) : (p.setQueue q k).queue k = q := by
  cases k <;> rfl

variable {p : Ptty} {k : Reader}

theorem queue_setQueue_of_ne {k' : Reader} (h : k' ≠ k) : (p.setQueue q k).queue k' = p.queue k' := by
  cases k <;> cases k' <;> first | rfl | exact absurd rfl h

@[simp]
theorem waits_setQueue (p : Ptty) (q : List ℕ) (k : Reader) : (p.setQueue q k).waits = p.waits := by
  cases k <;> rfl

@[simp]
theorem queue_setSource (p : Ptty) (r : RingBuffer UInt8) (k : Reader) : (p.setSource r k).queue = p.queue := by
  cases k <;> rfl

variable {t : ℕ}

variable {v : Task}

/-! ## Reads -/

theorem TerminalInvOn.leave (h : TerminalInvOn s (· ≠ t)) (hself : ∀ k', t ∈ s.ptty.queue k' → k' = k) :
    TerminalInv (s.leave t k) := by
  have hreader (u : ℕ) : (s.leave t k).reader u = if u = t then none else s.reader u := by
    simp only [Terminal.reader, Terminal.leave, update_apply]
    split_ifs <;> rfl
  have hqueue (k' : Reader) (u : ℕ) : u ∈ (s.leave t k).ptty.queue k' ↔ u ∈ s.ptty.queue k' ∧ u ≠ t := by
    rw [Terminal.leave]
    by_cases hk : k' = k
    · rw [hk, queue_setQueue_self, mem_removeWaitQueueEntry (h.nodup k)]
    rw [queue_setQueue_of_ne hk]
    exact ⟨fun hu => ⟨hu, fun he => hk (hself k' (he ▸ hu))⟩, And.left⟩
  refine ⟨fun k' => ?_, fun u _ k' => ?_, fun u _ k' hr => ?_, fun u _ k' hr hs => ?_⟩
  · rw [Terminal.leave]
    by_cases hk : k' = k
    · rw [hk, queue_setQueue_self]
      exact nodup_removeWaitQueueEntry (h.nodup k) t
    · rw [queue_setQueue_of_ne hk]
      exact h.nodup k'
  · rw [hqueue, hreader]
    split_ifs with hu
    · simp [hu]
    rw [h.queued u hu k']
    exact and_iff_left hu
  · rw [hreader] at hr
    split_ifs at hr with hu
    exact h.lives u hu k' hr
  · rw [hreader] at hr
    split_ifs at hr with hu
    rw [Terminal.leave, waits_setQueue]
    exact h.waits u hu k' hr hs

def Terminal.blocked (s : Terminal) (t : ℕ) (v : Task) (k : Reader) (size : ℤ) : Terminal :=
  { s with
    task := update s.task t v
    reading := update s.reading t (some (k, size)) }

theorem TerminalInvOn.block (h : TerminalInvOn s (· ≠ t)) (hself : ∀ k', t ∈ s.ptty.queue k' ↔ k' = k)
    (hwaits : s.ptty.waits t k = true) (hv : transitState (s.task t) .interruptible = .ok v) (size : ℤ) :
    TerminalInv (s.blocked t v k size) := by
  obtain ⟨hst, -, -⟩ := evolves_block hv
  have hreader (u : ℕ) : (s.blocked t v k size).reader u = if u = t then some k else s.reader u := by
    simp only [Terminal.reader, Terminal.blocked, update_apply]
    split_ifs <;> rfl
  have htask (u : ℕ) : (s.blocked t v k size).task u = if u = t then v else s.task u :=
    update_apply _ _ _ _
  refine ⟨h.nodup, fun u _ k' => ?_, fun u _ k' hr => ?_, fun u _ k' hr hs => ?_⟩
  · rw [hreader]
    split_ifs with hu
    · rw [hu, Option.some_inj, eq_comm]
      exact hself k'
    · exact h.queued u hu k'
  · rw [htask]
    rw [hreader] at hr
    split_ifs at hr ⊢ with hu
    · exact ⟨⟨by simp [hst], by simp [hst]⟩, by simp [hst]⟩
    · exact h.lives u hu k' hr
  rw [htask] at hs
  rw [hreader] at hr
  split_ifs at hr hs with hu
  · cases hr
    rw [hu]
    exact hwaits
  · exact h.waits u hu k' hr hs

theorem TerminalInvOn.setSource (h : TerminalInvOn s (· ≠ t)) (hgo : s.ptty.waits t k = false) (r : RingBuffer UInt8) :
    TerminalInvOn { s with ptty := s.ptty.setSource r k } (· ≠ t) := by
  refine ⟨fun k' => ?_, fun u hu k' => ?_, h.lives, fun u hu k' hr hs => ?_⟩
  · rw [queue_setSource]
    exact h.nodup k'
  · rw [queue_setSource]
    exact h.queued u hu k'
  have hw := h.waits u hu k' hr hs
  cases k with
  | master =>
    cases k' with
    | master =>
      rw [Ptty.waits] at hgo hw
      rw [hgo] at hw
      cases hw
    | slave => exact hw
  | slave =>
    cases k' with
    | master => exact hw
    | slave =>
      -- only the foreground task reads
      rw [Ptty.waits, Bool.or_eq_false_iff, bne_eq_false_iff_eq] at hgo
      rw [Ptty.waits, Bool.or_eq_true, bne_iff_ne]
      exact .inl fun he => hu (he ▸ hgo.1)

theorem TerminalInvOn.pttyReadLoop (h : TerminalInvOn s (· ≠ t)) (hself : ∀ k', t ∈ s.ptty.queue k' ↔ k' = k)
    (hst : (s.task t).state = .running ∨ (s.task t).state = .uninterruptible) (size : ℤ) :
    ∃ s' r, ZeldaOS.pttyReadLoop s t k size = .ok (s', r) ∧ TerminalInv s' := by
  rw [ZeldaOS.pttyReadLoop]
  split_ifs with hw
  · obtain ⟨v, hv⟩ : ∃ v, transitState (s.task t) .interruptible = .ok v := by
      rw [transitState]
      rcases hst with hst | hst <;> exact ⟨_, by rw [hst]; rfl⟩
    exact ⟨_, none, by rw [hv]; rfl, h.block hself hw hv size⟩
  · have h' := h.setSource (by simpa using hw) ((s.ptty.source k).read size.toNat).1
    refine ⟨_, _, rfl, h'.leave fun k' hk => (hself k').1 ?_⟩
    rwa [queue_setSource] at hk

theorem TerminalInvOn.mono {P Q : ℕ → Prop} (h : TerminalInvOn s P) (hq : ∀ u, Q u → P u) : TerminalInvOn s Q :=
  ⟨h.nodup, fun u hu => h.queued u (hq u hu), fun u hu => h.lives u (hq u hu), fun u hu => h.waits u (hq u hu)⟩

def Terminal.enqueued (s : Terminal) (t : ℕ) (k : Reader) : Terminal :=
  { s with ptty := s.ptty.setQueue (addWaitQueueEntry (s.ptty.queue k) t) k }

/-! ## Keys and requests -/

theorem TerminalInvOn.enqueue (h : TerminalInv s) (hr : s.reading t = none) (k : Reader) :
    TerminalInvOn (s.enqueued t k) (· ≠ t) ∧ ∀ k', t ∈ (s.enqueued t k).ptty.queue k' ↔ k' = k := by
  have hnone (k' : Reader) : t ∉ s.ptty.queue k' := fun ht => by
    have := (h.queued t trivial k').1 ht
    rw [Terminal.reader, hr] at this
    cases this
  have hqueue (k' : Reader) :
      (s.enqueued t k).ptty.queue k' = if k' = k then s.ptty.queue k ++ [t] else s.ptty.queue k' := by
    split_ifs with hk
    · rw [hk, Terminal.enqueued, queue_setQueue_self, addWaitQueueEntry, if_neg (hnone k)]
    · exact queue_setQueue_of_ne hk
  refine ⟨⟨fun k' => ?_, fun u hu k' => ?_, fun u _ => h.lives u trivial, fun u _ k' => ?_⟩, fun k' => ?_⟩
  · rw [hqueue]
    split_ifs
    · exact (h.nodup k).append (nodup_singleton t) (by simpa using hnone k)
    · exact h.nodup k'
  · have hu' : u ∈ (s.enqueued t k).ptty.queue k' ↔ u ∈ s.ptty.queue k' := by
      rw [hqueue]
      split_ifs with hk
      · simp [hk, hu]
      · rfl
    exact hu'.trans (h.queued u trivial k')
  · rw [Terminal.enqueued, waits_setQueue]
    exact h.waits u trivial k'
  · rw [hqueue]
    split_ifs with hk
    · simp [hk]
    · exact iff_of_false (hnone k') hk

theorem TerminalInvOn.pttyDevRead (h : TerminalInv s) (hr : s.reading t = none)
    (hst : (s.task t).state = .running ∨ (s.task t).state = .uninterruptible) (size : ℤ) :
    ∃ s' r, ZeldaOS.pttyDevRead s t size = .ok (s', r) ∧ TerminalInv s' := by
  have hread (k : Reader) : ∃ s' r, pttyRead s t k size = .ok (s', r) ∧ TerminalInv s' := by
    obtain ⟨hother, hself⟩ := h.enqueue hr k
    exact hother.pttyReadLoop hself hst size
  rw [ZeldaOS.pttyDevRead, pttyMasterRead]
  split_ifs with hm hm'
  · exact hread .master
  · exact absurd hm.symm hm'
  · exact hread .slave

theorem TerminalInvOn.resumeRead (h : TerminalInv s) {size : ℤ} (hr : s.reading t = some (k, size))
    (hst : (s.task t).state = .running) : ∃ s' r, ZeldaOS.resumeRead s t k size = .ok (s', r) ∧ TerminalInv s' := by
  have hother : TerminalInvOn s (· ≠ t) := h.mono fun _ _ => trivial
  have hself (k' : Reader) : t ∈ s.ptty.queue k' ↔ k' = k := by
    rw [h.queued t trivial, Terminal.reader, hr]
    simp [eq_comm]
  rw [ZeldaOS.resumeRead]
  split_ifs
  · exact ⟨_, _, rfl, hother.leave fun k' => (hself k').1⟩
  · exact hother.pttyReadLoop hself (.inl hst) size

theorem TerminalInvOn.setPtty (h : TerminalInv s) (hq : p.queue = s.ptty.queue)
    (hw : ∀ t k, s.reader t = some k → (s.task t).Asleep → p.waits t k = true) : TerminalInv { s with ptty := p } :=
  ⟨fun k => by rw [hq]; exact h.nodup k, fun t _ k => by rw [hq]; exact h.queued t trivial k,
    h.lives, fun t _ k => hw t k⟩

theorem isEmpty_reset (r : RingBuffer UInt8) : r.reset.isEmpty = true := beq_self_eq_true _

theorem TerminalInvOn.pttyDevIoctl (h : TerminalInv s) {request : PttyRequest}
    (hw : (TerminalOp.ioctl request).Wakeful s) :
    TerminalInv { s with ptty := (ZeldaOS.pttyDevIoctl s.ptty request).1 } := by
  have hsame (t : ℕ) (k : Reader) := h.waits t trivial k
  cases request with
  | clear => exact h
  | master id => exact h.setPtty rfl fun t k hr hs => by cases k <;> exact hsame t _ hr hs
  | foreground id =>
    refine h.setPtty rfl fun t k hr hs => ?_
    cases k with
    | master => exact hsame t _ hr hs
    | slave => exact Bool.or_eq_true_iff.2 (.inr (isEmpty_reset _))
  | slaveWrite bytes =>
    refine h.setPtty rfl fun t k hr hs => ?_
    cases k with
    | master => exact hsame t _ hr hs
    | slave =>
      by_cases ht : s.ptty.foregroundTaskId = t
      · rcases hw with rfl | hw
        · exact hsame t _ hr hs
        rw [ht] at hw
        exact absurd ⟨hr, hs⟩ hw
      · exact Bool.or_eq_true_iff.2 (.inl (bne_iff_ne.2 ht))
  | unknown => exact h

theorem TerminalInvOn.keyboardEnqueue (h : TerminalInv s) (ascii : UInt8) :
    ∃ s', ZeldaOS.keyboardEnqueue s ascii = .ok s' ∧ TerminalInv s' := by
  have hqueue (t : ℕ) : t ∈ s.ptty.wqHead ↔ s.reader t = some .master := h.queued t trivial .master
  obtain ⟨task', hrun, hin, hout⟩ := wakeUpQueue_spec fun t (ht : t ∈ s.ptty.wqHead) =>
    h.lives t trivial .master ((hqueue t).1 ht)
  refine ⟨{ s with ptty := { s.ptty with ring := (s.ptty.ring.write [ascii]).1 }, task := task' },
    by rw [ZeldaOS.keyboardEnqueue, hrun]; rfl, h.nodup, h.queued, fun t _ k hr => ?_,
    fun t _ k hr hs => ?_⟩
  · by_cases ht : t ∈ s.ptty.wqHead
    · exact (hin t ht).1
    dsimp only
    rw [hout t ht]
    exact h.lives t trivial k hr
  by_cases ht : t ∈ s.ptty.wqHead
  · exact absurd hs (hin t ht).2
  dsimp only at hs
  rw [hout t ht] at hs
  cases k with
  | master => exact absurd ((hqueue t).2 hr) ht
  | slave => exact h.waits t trivial .slave hr hs

theorem TerminalInvOn.setTask (h : TerminalInv s)
    (hv : ∀ k, s.reader t = some k → v.Lives ∧ (v.Asleep → (s.task t).Asleep)) :
    TerminalInv { s with task := update s.task t v } := by
  have htask (u : ℕ) : update s.task t v u = if u = t then v else s.task u :=
    update_apply _ _ _ _
  refine ⟨h.nodup, h.queued, fun u _ k hr => ?_, fun u _ k hr hs => ?_⟩
  · dsimp only
    rw [htask]
    split_ifs with hu
    · exact (hv k (hu ▸ hr)).1
    · exact h.lives u trivial k hr
  dsimp only at hs
  rw [htask] at hs
  split_ifs at hs with hu
  · exact h.waits u trivial k hr (hu ▸ (hv k (hu ▸ hr)).2 hs)
  · exact h.waits u trivial k hr hs

theorem terminalInv_step (s : Terminal) (op : TerminalOp) (h : TerminalInv s) (hw : op.Wakeful s) :
    ∃ s', s.step op = .ok s' ∧ TerminalInv s' := by
  unfold Terminal.step
  split_ifs with hallow
  case neg => exact ⟨s, rfl, h⟩
  cases op with
  | read t size =>
    obtain ⟨s', r, hs, h'⟩ := h.pttyDevRead hallow.1 hallow.2 size
    dsimp only
    exact ⟨s', by rw [hs]; rfl, h'⟩
  | resume t =>
    obtain ⟨⟨k, size⟩, hr⟩ := Option.isSome_iff_exists.1 hallow.1
    obtain ⟨s', r, hs, h'⟩ := h.resumeRead hr hallow.2
    simp only [hr]
    exact ⟨s', by rw [hs]; rfl, h'⟩
  | key ascii => exact h.keyboardEnqueue ascii
  | switchTo =>
    refine ⟨_, rfl, h.setPtty rfl fun t k hr hs => ?_⟩
    cases k with
    | master => exact isEmpty_reset _
    | slave => exact h.waits t trivial .slave hr hs
  | ioctl request => exact ⟨_, rfl, h.pttyDevIoctl hw⟩
  | signal t sig =>
    obtain ⟨hr, h0⟩ := hallow
    obtain ⟨⟨k, size⟩, hr⟩ := Option.isSome_iff_exists.1 hr
    have hlives := h.lives t trivial k (by rw [Terminal.reader, hr]; rfl)
    obtain ⟨v, hv⟩ := signalTask_sent hlives.alive h0 fun hx => hlives.not_exiting hx.1
    dsimp only
    refine ⟨{ s with task := update s.task t v }, by rw [hv]; rfl, h.setTask fun _ _ => ?_⟩
    exact ⟨(evolves_signalTask hv).lives hlives, asleep_of_signalTask hv⟩
  | other t v =>
    refine ⟨_, rfl, h.setTask fun k hr => ?_⟩
    rw [Terminal.reader, show s.reading t = none from hallow] at hr
    cases hr

/-- **In every run in which no bytes are written for a foreground task that sleeps in a read, no reader sleeps that
could read, and nothing panics.** -/
theorem readersServed_of_wakeful (task : ℕ → Task) (ops : List TerminalOp)
    (h : Along Terminal.step (fun s op => op.Wakeful s) (.start task) ops) :
    ∃ s, runSteps Terminal.step (.start task) ops = .ok s ∧ ReadersServed s := by
  obtain ⟨s, hrun, hs⟩ := inv_run_total terminalInv_step (terminalInv_start task) h
  exact ⟨s, hrun, hs.served⟩

/-- Task 5 is the shell, task 6 is in the foreground and reads what the shell writes. -/
def shellTrace : List TerminalOp :=
  [.ioctl (.master 5), .ioctl (.foreground 6), .read 5 8, .key 65, .resume 5,
   .ioctl (.slaveWrite [65]), .read 6 8, .read 6 8, .signal 6 sigStop, .signal 6 sigCont]

theorem readersServed_of_wakeful_shell : ∃ s,
      runSteps Terminal.step (.start fun _ => createdTask true) shellTrace = .ok s ∧
      (s.task 6).state = .interruptible ∧ ReadersServed s := by
  obtain ⟨s, hrun, hs⟩ := readersServed_of_wakeful (fun _ => createdTask true) shellTrace (by decide)
  refine ⟨s, hrun, ?_, hs⟩
  cases hrun
  rfl

/-- **`PTTY_IOCTL_SLAVE_WRITE` leaves the foreground task asleep in `__ptty_slave_read`.** -/
theorem not_readersServed_slaveWrite : ∃ s, runSteps Terminal.step (.start fun _ => createdTask true)
        [.ioctl (.master 5), .ioctl (.foreground 6), .read 6 8, .ioctl (.slaveWrite [65])] = .ok s ∧
      s.reader 6 = some .slave ∧ (s.task 6).state = .interruptible ∧
      s.ptty.foregroundTaskId = 6 ∧ s.ptty.slaveRing.isEmpty = false ∧ ¬ReadersServed s := by
  refine ⟨_, rfl, rfl, rfl, rfl, rfl, fun h => ?_⟩
  rcases h.slave 6 rfl rfl with hf | he
  · exact hf rfl
  · cases he

end ZeldaOS
