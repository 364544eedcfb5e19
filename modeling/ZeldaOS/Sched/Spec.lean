import ZeldaOS.Sched.Model
import ZeldaOS.Task.Alive

/-!
# What one call of `schedule` does to the queues

The loops of `schedule` as operations on the four sequences.

* `schedule_spec`: a call on partitioned queues.
-/

namespace ZeldaOS

open Machine List Function

/-! ## The four queues -/

def queues (r b e z : List ℕ) : Queue → List ℕ
  | .run => r
  | .blocking => b
  | .exit => e
  | .zombie => z

theorem queues_eta (q : Queue → List ℕ) : q = queues (q .run) (q .blocking) (q .exit) (q .zombie) := by
  funext i
  cases i <;> rfl

section
variable (r b e z x : List ℕ)

@[simp] theorem update_queues_run : update (queues r b e z) .run x = queues x b e z := by
  funext i
  cases i <;> rfl

@[simp] theorem update_queues_blocking : update (queues r b e z) .blocking x = queues r x e z := by
  funext i
  cases i <;> rfl

@[simp] theorem update_queues_exit : update (queues r b e z) .exit x = queues r b x z := by
  funext i
  cases i <;> rfl

@[simp] theorem update_queues_zombie : update (queues r b e z) .zombie x = queues r b e x := by
  funext i
  cases i <;> rfl

end

def TaskState.blocked : TaskState → Bool
  | .interruptible | .uninterruptible => true
  | _ => false

/-- The states that take a task off the blocking list and back to the run list. -/
def TaskState.ready : TaskState → Bool
  | .running | .exiting => true
  | _ => false

theorem assert_of {p : Prop} [Decidable p] (h : p) : assert p = .ok () := by
  rw [assert, ensure_of h]
  rfl

variable {ws : List ℕ} {t : ℕ}

theorem wakeUp_spec {s : SchedState} (h0 : ∀ t ∈ ws, t ≠ 0) (h : ∀ t ∈ ws, (s.task t).Wakeable) :
    wakeUp s ws = .ok { s with task := wakeAll s.task ws, events := s.events ++ ws.map .woken } := by
  have hzero : 0 ∉ ws := fun hmem => h0 0 hmem rfl
  rw [wakeUp, assert_of hzero, wakeUpQueue_eq h]
  rfl

variable {l : List ℕ}

section
variable {c : SchedLayout} {s : SchedState} {q : Queue → List ℕ}

variable (h : Lists s.links c.head q)
include h

theorem append_spec (i : Queue) (ht : t ≠ 0) (hh : ∀ j, t ≠ c.head j) (hq : ∀ j, t ∉ q j) :
    ∃ L, s.append c i t = .ok { s with links := L } ∧ Lists L c.head (update q i (q i ++ [t])) := by
  obtain ⟨L, hL, hl⟩ := listAppend_spec h i ht hh hq
  exact ⟨L, by rw [SchedState.append, hL]; rfl, hl⟩

theorem fetch_spec (i : Queue) {ts : List ℕ} (hq : q i = t :: ts) :
    ∃ L, s.fetch c i = .ok ({ s with links := L }, t) ∧ Lists L c.head (update q i ts) := by
  obtain ⟨L, hL, hl⟩ := listFetch_spec h hq
  exact ⟨L, by rw [SchedState.fetch, hL]; rfl, hl⟩

theorem fetch_nil (i : Queue) (hq : q i = []) : s.fetch c i = .ok (s, 0) := by
  rw [SchedState.fetch, listFetch_nil h hq]
  rfl

theorem delete_spec (i : Queue) {r : List ℕ} (hq : q i = l ++ t :: r)
    (hlen : (q i).length ≤ s.fuel) : ∃ L, s.delete c i t = .ok { s with links := L } ∧
      Lists L c.head (update q i (l ++ r)) := by
  obtain ⟨L, hL, hl⟩ := listDelete_spec h hq s.fuel hlen
  exact ⟨L, by rw [SchedState.delete, hL]; rfl, hl⟩

end

variable {i : Queue}

theorem Lists.notMem_of_update {c : SchedLayout} {L : Links} {q : Queue → List ℕ} (h : Lists L c.head q) (ht : t ∈ q i)
    {xs : List ℕ} (hx : t ∉ xs) (j : Queue) : t ∉ update q i xs j := by
  by_cases hj : j = i
  · rw [hj, update_self]
    exact hx
  rw [update_of_ne hj]
  exact fun hc => hj (h.apart j i t hc ht)

section
variable {c : SchedLayout}

theorem delete_append_spec {s : SchedState} {q : Queue → List ℕ} (h : Lists s.links c.head q) {r : List ℕ}
    (hq : q .blocking = l ++ t :: r) (hlen : (q .blocking).length ≤ s.fuel) (i : Queue) (hi : i ≠ .blocking) :
    ∃ L1 L2, s.delete c .blocking t = .ok { s with links := L1 } ∧
      SchedState.append c { s with links := L1 } i t = .ok { s with links := L2 } ∧
      Lists L2 c.head (update (update q .blocking (l ++ r)) i (q i ++ [t])) := by
  have ht : t ∈ q .blocking := by simp [hq]
  have hnd := h.nodup .blocking
  rw [hq, nodup_middle, nodup_cons] at hnd
  obtain ⟨L1, hd, h1⟩ := delete_spec h .blocking hq hlen
  obtain ⟨L2, ha, h2⟩ := append_spec (s := { s with links := L1 }) h1 i (h.ne_zero _ t ht)
    (h.ne_head _ t ht) (Lists.notMem_of_update h ht hnd.1)
  rw [update_of_ne hi] at h2
  exact ⟨L1, L2, hd, ha, h2⟩

/-! ## The loops -/

/-- The queues after the loop over the blocking list. -/
def swept (task : ℕ → Task) (r kept e z rest : List ℕ) : Queue → List ℕ :=
  queues (r ++ rest.filter fun t => (task t).state.ready) (kept ++ rest.filter fun t => (task t).state.blocked) e
    (z ++ rest.filter fun t => (task t).state = .zombie)

section
variable (r kept e z rest : List ℕ)

theorem swept_ready (h : (task t).state.ready = true) :
    swept task (r ++ [t]) kept e z rest = swept task r kept e z (t :: rest) := by
  cases hst : (task t).state <;> simp [hst, TaskState.ready] at h <;>
    simp [swept, hst, TaskState.ready, TaskState.blocked]

theorem swept_blocked (h : (task t).state.blocked = true) :
    swept task r (kept ++ [t]) e z rest = swept task r kept e z (t :: rest) := by
  cases hst : (task t).state <;> simp [hst, TaskState.blocked] at h <;>
    simp [swept, hst, TaskState.ready, TaskState.blocked]

theorem swept_zombie (h : (task t).state = .zombie) :
    swept task r kept e (z ++ [t]) rest = swept task r kept e z (t :: rest) := by
  simp [swept, h, TaskState.ready, TaskState.blocked]

end

theorem processBlockingTaskList_spec (s : SchedState) (kept : List ℕ) {r rest e z : List ℕ}
    (h : Lists s.links c.head (queues r (kept ++ rest) e z)) (fuel : ℕ) (hfuel : rest.length < fuel)
    (hlen : (kept ++ rest).length ≤ s.fuel) :
    ∃ L, processBlockingTaskList c fuel s (rest.headD 0) = .ok { s with links := L } ∧
      Lists L c.head (swept s.task r kept e z rest) := by
  induction rest generalizing s r kept z fuel with
  | nil =>
    obtain ⟨fuel, rfl⟩ := Nat.exists_eq_add_of_lt hfuel
    exact ⟨s.links, rfl, by simpa [swept] using h⟩
  | cons t rest ih =>
    obtain ⟨fuel, rfl⟩ := Nat.exists_eq_add_of_lt hfuel
    have ht : t ≠ 0 := h.ne_zero .blocking t (by simp [queues])
    have hnext : s.links.next t = rest.headD 0 := (seg_append.mp (h.isList .blocking).seg).2.2.1
    have hrest : rest.length < (t :: rest).length + fuel := by rw [length_cons]; omega
    have hlen' : (kept ++ rest).length ≤ s.fuel := by
      rw [length_append, length_cons] at hlen
      rw [length_append]
      omega
    rw [processBlockingTaskList, headD_cons, if_neg ht]
    simp only [hnext]
    have hready : (s.task t).state.ready = true → ∃ L, (do
        let s ← s.delete c .blocking t
        let s ← taskPut c s t
        processBlockingTaskList c ((t :: rest).length + fuel) s (rest.headD 0)) =
          .ok { s with links := L } ∧ Lists L c.head (swept s.task r kept e z (t :: rest)) :=
      fun hr => by
        obtain ⟨L1, L2, hd, ha, h2⟩ := delete_append_spec h rfl hlen .run (by decide)
        simp only [update_queues_blocking, update_queues_run, queues] at h2
        obtain ⟨L, hloop, hl⟩ := ih { s with links := L2 } kept h2 _ hrest hlen'
        refine ⟨L, by simpa only [hd, taskPut, ha, bind, Except.bind] using hloop, ?_⟩
        rwa [← swept_ready r kept e z rest hr]
    have hblocked : (s.task t).state.blocked = true → ∃ L,
        processBlockingTaskList c ((t :: rest).length + fuel) s (rest.headD 0) =
          .ok { s with links := L } ∧ Lists L c.head (swept s.task r kept e z (t :: rest)) :=
      fun hb => by
        have h' : Lists s.links c.head (queues r (kept ++ [t] ++ rest) e z) := by simpa using h
        obtain ⟨L, hloop, hl⟩ := ih s (kept ++ [t]) h' _ hrest (by simpa using hlen)
        exact ⟨L, hloop, by rwa [← swept_blocked r kept e z rest hb]⟩
    cases hst : (s.task t).state with
    | running => exact hready (by rw [hst]; rfl)
    | exiting => exact hready (by rw [hst]; rfl)
    | interruptible => exact hblocked (by rw [hst]; rfl)
    | uninterruptible => exact hblocked (by rw [hst]; rfl)
    | zombie =>
      obtain ⟨L1, L2, hd, ha, h2⟩ := delete_append_spec h rfl hlen .zombie (by decide)
      simp only [update_queues_blocking, update_queues_zombie, queues] at h2
      obtain ⟨L, hloop, hl⟩ := ih { s with links := L2 } kept h2 _ hrest hlen'
      refine ⟨L, by simpa only [hd, ha, bind, Except.bind] using hloop, ?_⟩
      rwa [← swept_zombie r kept e z rest hst]

theorem reclaimTask_spec {s : SchedState} (hp : s.links.prev t = 0) (hn : s.links.next t = 0) (ht : t ∈ s.live) :
    reclaimTask s t = .ok { s with
      live := s.live.filter (· ≠ t), events := s.events ++ [.reclaimed t] } := by
  rw [reclaimTask, assert_of hp, assert_of hn, assert_of ht]
  rfl

def reclaimEvents (waiters : ℕ → List ℕ) (e : List ℕ) : List SchedEvent :=
  e.flatMap fun t => (waiters t).map .woken ++ [.reclaimed t]

theorem processExitTaskList_spec (s : SchedState) {r b e z : List ℕ}
    (h : Lists s.links c.head (queues r b e z)) (fuel : ℕ) (hfuel : e.length < fuel)
    (hexit : ∀ t ∈ e, (s.task t).state = .exiting ∧ t ∈ s.live)
    (hwait : ∀ t ∈ e, ∀ w ∈ s.waiters t, w ≠ 0 ∧ (s.task w).Wakeable) :
    ∃ L, processExitTaskList c fuel s = .ok { s with
        links := L
        task := wakeAll s.task (e.flatMap s.waiters)
        live := s.live.filter (· ∉ e)
        events := s.events ++ reclaimEvents s.waiters e } ∧
      Lists L c.head (queues r b [] z) := by
  induction e generalizing s fuel with
  | nil =>
    obtain ⟨fuel, rfl⟩ := Nat.exists_eq_add_of_lt hfuel
    refine ⟨s.links, ?_, h⟩
    rw [processExitTaskList, fetch_nil h .exit rfl]
    simp [bind, Except.bind, wakeAll_nil, reclaimEvents]
  | cons t e ih =>
    obtain ⟨fuel, rfl⟩ := Nat.exists_eq_add_of_lt hfuel
    have hmem : t ∈ queues r b (t :: e) z .exit := mem_cons_self
    have ht : t ≠ 0 := h.ne_zero .exit t hmem
    obtain ⟨L1, hf, h1⟩ := fetch_spec h .exit rfl
    obtain ⟨hst, hlive⟩ := hexit t mem_cons_self
    have hnd := nodup_cons.mp (h.nodup .exit)
    obtain ⟨hnx, hpx⟩ := h1.detached t (Lists.notMem_of_update h hmem hnd.1) (h.ne_head .exit t hmem)
    rw [update_queues_exit] at h1
    have hwake := wakeUp_spec (s := { s with links := L1 }) (fun w hw =>
      (hwait t mem_cons_self w hw).1) (fun w hw => (hwait t mem_cons_self w hw).2)
    have hreclaim := reclaimTask_spec (s := { s with
      links := L1, task := wakeAll s.task (s.waiters t)
      events := s.events ++ (s.waiters t).map .woken }) hpx hnx hlive
    have hne : ∀ u ∈ e, u ≠ t := fun u hu he => hnd.1 (he ▸ hu)
    obtain ⟨L, hloop, hl⟩ := ih { s with
        links := L1
        task := wakeAll s.task (s.waiters t)
        live := s.live.filter (· ≠ t)
        events := s.events ++ (s.waiters t).map .woken ++ [.reclaimed t] } h1
      ((t :: e).length + fuel) (by rw [length_cons]; omega)
      (fun u hu => by
        obtain ⟨hu1, hu2⟩ := hexit u (mem_cons_of_mem _ hu)
        exact ⟨(congrArg Task.state (wakeAll_of_exiting hu1)).trans hu1, mem_filter.mpr ⟨hu2, by simpa using hne u hu⟩⟩)
      (fun u hu w hw => by
        obtain ⟨hw1, hw2⟩ := hwait u (mem_cons_of_mem _ hu) w hw
        exact ⟨hw1, wakeAll_wakeable hw2⟩)
    refine ⟨L, ?_, hl⟩
    rw [processExitTaskList, hf]
    simp only [bind, Except.bind, if_neg ht, assert_of hst, hwake, hreclaim, hloop]
    rw [wakeAll_append fun w hw => (hwait t mem_cons_self w hw).2]
    simp [reclaimEvents, filter_filter, Bool.and_comm]

/-- What `schedule` passes over: the run list before the first running task. -/
def passedOver (task : ℕ → Task) (r : List ℕ) : List ℕ :=
  r.takeWhile fun t => (task t).state ≠ .running

def fromRunning (task : ℕ → Task) (r : List ℕ) : List ℕ :=
  r.dropWhile fun t => (task t).state ≠ .running

/-- The queues after the first running task is taken. -/
def picked (task : ℕ → Task) (r b e z : List ℕ) : Queue → List ℕ :=
  queues (fromRunning task r).tail (b ++ (passedOver task r).filter fun t => (task t).state.blocked)
    (e ++ (passedOver task r).filter fun t => (task t).state = .exiting)
    (z ++ (passedOver task r).filter fun t => (task t).state = .zombie)

def Queue.ofState : TaskState → Queue
  | .running => .run
  | .exiting => .exit
  | .zombie => .zombie
  | .interruptible | .uninterruptible => .blocking

theorem picked_cons (r b e z : List ℕ) (h : (task t).state ≠ .running) {q : Queue → List ℕ}
    (hq : q = update (queues r b e z) (.ofState (task t).state) (queues r b e z (.ofState (task t).state) ++ [t])) :
    fromRunning task (t :: r) = fromRunning task r ∧ q .run = r ∧
      picked task r (q .blocking) (q .exit) (q .zombie) = picked task (t :: r) b e z := by
  subst hq
  cases hst : (task t).state <;>
    simp [hst, picked, queues, passedOver, fromRunning, Queue.ofState, TaskState.blocked] at h ⊢

theorem pickNextTask_spec (s : SchedState) {r b e z : List ℕ}
    (h : Lists s.links c.head (queues r b e z)) (fuel : ℕ) (hfuel : r.length < fuel) : ∃ L, pickNextTask c fuel s =
        .ok ({ s with links := L }, (fromRunning s.task r).headD 0) ∧ Lists L c.head (picked s.task r b e z) := by
  induction r generalizing s b e z fuel with
  | nil =>
    obtain ⟨fuel, rfl⟩ := Nat.exists_eq_add_of_lt hfuel
    refine ⟨s.links, ?_, by simpa [picked, passedOver, fromRunning] using h⟩
    rw [pickNextTask, taskGet, fetch_nil h .run rfl]
    rfl
  | cons t r ih =>
    obtain ⟨fuel, rfl⟩ := Nat.exists_eq_add_of_lt hfuel
    have hmem : t ∈ queues (t :: r) b e z .run := mem_cons_self
    have ht : t ≠ 0 := h.ne_zero .run t hmem
    have hnd := nodup_cons.mp (h.nodup .run)
    obtain ⟨L1, hf, h1⟩ := fetch_spec h .run rfl
    have hout : ∀ j, t ∉ queues r b e z j := by
      simpa only [update_queues_run] using Lists.notMem_of_update h hmem hnd.1
    rw [update_queues_run] at h1
    by_cases hrun : (s.task t).state = .running
    · refine ⟨L1, ?_, by simpa [picked, passedOver, fromRunning, hrun] using h1⟩
      rw [pickNextTask, taskGet, hf]
      simp [bind, Except.bind, ht, hrun, fromRunning]
    obtain ⟨L2, ha, h2⟩ := append_spec (s := { s with links := L1 }) h1
      (.ofState (s.task t).state) ht (h.ne_head .run t hmem) hout
    obtain ⟨hrest, hr, hpicked⟩ := picked_cons r b e z hrun rfl
    rw [queues_eta (update _ _ _), hr] at h2
    obtain ⟨L, hloop, hl⟩ := ih { s with links := L2 } h2 ((t :: r).length + fuel) (by rw [length_cons]; omega)
    rw [hpicked] at hl
    refine ⟨L, ?_, hl⟩
    rw [pickNextTask, taskGet, hf, hrest]
    cases hst : (s.task t).state <;> rw [hst] at ha <;>
      simp_all [bind, Except.bind, Queue.ofState]

end

section
variable (c : SchedLayout) (s s' : SchedState) (q q' : Queue → List ℕ)

/-! ## Partitions -/

def SchedState.running : List ℕ := if s.current = 0 ∨ s.current = c.idle then [] else [s.current]

/-- The sequences of the lists, with the current and the idle task, hold every live task once. -/
structure Partitioned : Prop where
  lists : Lists s.links c.head q
  live_nodup : s.live.Nodup
  perm : (c.idle :: (s.running c ++ q .run ++ q .blocking ++ q .exit ++ q .zombie)).Perm s.live
  live_ne : ∀ t ∈ s.live, t ≠ 0 ∧ ∀ i, t ≠ c.head i

def candidates : List ℕ :=
  q .run ++ s.running c ++ (q .blocking).filter fun t => (s.task t).state.ready

/-- The tasks on the exit list are reclaimed after their waiters have been woken, the first running candidate becomes
current, and the others are queued by their state. -/
structure RoundRobin : Prop where
  task : s'.task = wakeAll s.task ((q .exit).flatMap s.waiters)
  live : s'.live = s.live.filter (· ∉ q .exit)
  events : s'.events = s.events ++ reclaimEvents s.waiters (q .exit)
  current : s'.current = (fromRunning s'.task (candidates c s q)).headD c.idle
  run : q' .run = (fromRunning s'.task (candidates c s q)).tail
  blocking : q' .blocking = ((q .blocking).filter fun t => (s.task t).state.blocked) ++
    (passedOver s'.task (candidates c s q)).filter fun t => (s'.task t).state.blocked
  exit : q' .exit = (passedOver s'.task (candidates c s q)).filter fun t =>
    (s'.task t).state = .exiting
  zombie : q' .zombie = q .zombie ++ ((q .blocking).filter fun t => (s.task t).state = .zombie) ++
    (passedOver s'.task (candidates c s q)).filter fun t => (s'.task t).state = .zombie
  frame : s'.taskId = s.taskId ∧ s'.taskSeed = s.taskSeed ∧ s'.waiters = s.waiters ∧ s'.waiting = s.waiting

end

section
variable {c : SchedLayout} {s : SchedState} {q : Queue → List ℕ}

variable (h : Partitioned c s q)
include h

theorem Partitioned.nodup :
    (c.idle :: (s.running c ++ q .run ++ q .blocking ++ q .exit ++ q .zombie)).Nodup :=
  h.perm.nodup_iff.mpr h.live_nodup

theorem Partitioned.mem_live (ht : t ∈ q i) : t ∈ s.live := by
  refine h.perm.mem_iff.mp ?_
  cases i <;> simp [ht]

theorem Partitioned.length_le (i : Queue) : (q i).length < s.fuel := by
  have hlen := h.perm.length_eq
  simp only [length_cons, length_append] at hlen
  rw [SchedState.fuel]
  cases i <;> omega

theorem Partitioned.current_live (h0 : s.current ≠ 0) : s.current ∈ s.live := by
  refine h.perm.mem_iff.mp ?_
  by_cases hidle : s.current = c.idle
  · rw [hidle]
    exact mem_cons_self
  have hrun : s.running c = [s.current] := if_neg (not_or.mpr ⟨h0, hidle⟩)
  simp [hrun]

theorem Partitioned.current_notMem (h0 : s.current ≠ 0) (i : Queue) : s.current ∉ q i := by
  have hnd := h.nodup
  intro hi
  by_cases hidle : s.current = c.idle
  · rw [hidle] at hi
    exact (nodup_cons.mp hnd).1 (by cases i <;> simp [hi])
  have hrun : s.running c = [s.current] := if_neg (not_or.mpr ⟨h0, hidle⟩)
  simp only [hrun, cons_append, nil_append, nodup_cons] at hnd
  exact hnd.2.1 (by cases i <;> simp [hi])

theorem putCurrent_spec : ∃ L, putCurrent c s = .ok { s with links := L, current := 0 } ∧
      Lists L c.head (queues (q .run ++ s.running c) (q .blocking) (q .exit) (q .zombie)) := by
  have hlists := h.lists
  rw [putCurrent]
  by_cases h0 : s.current = 0
  · have hrun : s.running c = [] := if_pos (.inl h0)
    rw [hrun, if_pos h0, append_nil, ← queues_eta]
    exact ⟨s.links, by rw [← h0], hlists⟩
  rw [if_neg h0]
  by_cases hidle : s.current = c.idle
  · have hrun : s.running c = [] := if_pos (.inr hidle)
    rw [hrun, if_pos hidle, append_nil, ← queues_eta]
    exact ⟨s.links, rfl, hlists⟩
  have hrun : s.running c = [s.current] := if_neg (not_or.mpr ⟨h0, hidle⟩)
  obtain ⟨L, ha, hl⟩ := append_spec hlists .run h0 (h.live_ne _ (h.current_live h0)).2 (h.current_notMem h0)
  rw [if_neg hidle, taskPut, ha, hrun]
  refine ⟨L, rfl, ?_⟩
  rwa [queues_eta (update _ _ _), update_self] at hl

end

theorem perm_filter_three {p1 p2 p3 : ℕ → Bool} (h : ∀ t ∈ l, (p1 t).toNat + (p2 t).toNat + (p3 t).toNat = 1) :
    (l.filter p1 ++ l.filter p2 ++ l.filter p3).Perm l := by
  induction l with
  | nil => rfl
  | cons t l ih =>
    have ht := h t mem_cons_self
    refine perm_iff_count.mpr fun a => ?_
    have hl := (ih fun u hu => h u (mem_cons_of_mem _ hu)).count_eq a
    simp only [count_append, filter_cons, count_cons] at hl ⊢
    cases h1 : p1 t <;> cases h2 : p2 t <;> cases h3 : p3 t <;>
      simp [h1, h2, h3, count_cons] at ht ⊢ <;> omega

theorem sweep_perm (task : ℕ → Task) (b : List ℕ) :
    ((b.filter fun t => (task t).state.ready) ++ (b.filter fun t => (task t).state.blocked) ++
      (b.filter fun t => (task t).state = .zombie)).Perm b := by
  refine perm_filter_three fun t _ => ?_
  cases (task t).state <;> rfl

theorem passedOver_perm (task : ℕ → Task) (r : List ℕ) :
    (((passedOver task r).filter fun t => (task t).state.blocked) ++
      ((passedOver task r).filter fun t => (task t).state = .exiting) ++
      ((passedOver task r).filter fun t => (task t).state = .zombie)).Perm (passedOver task r) := by
  refine perm_filter_three fun t ht => ?_
  have hne : (task t).state ≠ .running := by simpa using (all_eq_true.mp (all_takeWhile) t ht)
  cases hst : (task t).state <;> first | exact absurd hst hne | rfl

theorem perm_filter_notMem {e live : List ℕ} (h : (l ++ e).Perm live) (hnd : live.Nodup) :
    l.Perm (live.filter (· ∉ e)) := by
  have hl := (nodup_append.mp (h.nodup_iff.mpr hnd)).2.2
  have hf := h.filter (· ∉ e)
  have hkeep : l.filter (· ∉ e) = l :=
    filter_eq_self.mpr fun t ht => by simpa using fun he => hl t ht t he rfl
  have hdrop : e.filter (· ∉ e) = [] := filter_eq_nil_iff.mpr fun t ht => by simpa using ht
  rwa [filter_append, hkeep, hdrop, append_nil] at hf

section
variable {c : SchedLayout} {s : SchedState} {q : Queue → List ℕ}

theorem Partitioned.perm_live (h : Partitioned c s q) :
    (c.idle :: (candidates c s q ++ ((q .blocking).filter fun t => (s.task t).state.blocked) ++
      (q .zombie ++ (q .blocking).filter fun t => (s.task t).state = .zombie))).Perm (s.live.filter (· ∉ q .exit)) := by
  refine perm_filter_notMem (perm_iff_count.mpr fun a => ?_) h.live_nodup
  have hlive := h.perm.count_eq a
  have hsweep := (sweep_perm s.task (q .blocking)).count_eq a
  simp only [candidates, cons_append, count_cons, count_append] at hlive hsweep ⊢
  omega

theorem running_append_tail (hz : ∀ t ∈ s.live, t ≠ 0) {r : List ℕ}
    (hr : ∀ t ∈ r, t ∈ s.live ∧ t ≠ c.idle) (hcur : s.current = r.headD c.idle) : s.running c ++ r.tail = r := by
  rw [SchedState.running, hcur]
  cases r with
  | nil => simp
  | cons t r =>
    obtain ⟨hlive, hidle⟩ := hr t mem_cons_self
    simp [hz t hlive, hidle]

theorem ite_headD (h : ∀ t ∈ l, t ≠ 0) {d : ℕ} : (if l.headD 0 = 0 then d else l.headD 0) = l.headD d := by
  cases l with
  | nil => rfl
  | cons t l => exact if_neg (h t mem_cons_self)

theorem picked_partitioned {s' : SchedState} {r b z : List ℕ}
    (hlists : Lists s'.links c.head (picked s'.task r b [] z)) (hnd : s'.live.Nodup)
    (hne : ∀ t ∈ s'.live, t ≠ 0 ∧ ∀ i, t ≠ c.head i) (hperm : (c.idle :: (r ++ b ++ z)).Perm s'.live)
    (hcur : s'.current = (fromRunning s'.task r).headD c.idle) : Partitioned c s' (picked s'.task r b [] z) := by
  refine ⟨hlists, hnd, ?_, hne⟩
  have hsub : ∀ t ∈ fromRunning s'.task r, t ∈ s'.live ∧ t ≠ c.idle := fun t ht => by
    have htr : t ∈ r := (dropWhile_sublist _).mem ht
    refine ⟨hperm.mem_iff.mp (by simp [htr]), fun he => ?_⟩
    have hnot := (nodup_cons.mp (hperm.nodup_iff.mpr hnd)).1
    exact hnot (by simp [← he, htr])
  refine List.Perm.trans (perm_iff_count.mpr fun a => ?_) hperm
  have hfrom := congrArg (List.count a) (running_append_tail (fun t ht => (hne t ht).1) hsub hcur)
  have hsplit := congrArg (List.count a) (takeWhile_append_dropWhile
    (p := fun t => (s'.task t).state ≠ .running) (l := r))
  have hpassed := (passedOver_perm s'.task r).count_eq a
  simp only [picked, queues, nil_append, count_cons, count_append, passedOver, fromRunning] at hfrom hsplit hpassed ⊢
  omega

/-- **A call of `schedule` on partitioned queues succeeds, is round robin, and partitions again.** -/
theorem schedule_spec (h : Partitioned c s q) (hexit : ∀ t ∈ q .exit, (s.task t).state = .exiting)
    (hwait : ∀ t ∈ q .exit, ∀ w ∈ s.waiters t, w ≠ 0 ∧ (s.task w).Wakeable) :
    ∃ s' q', schedule c s = .ok s' ∧ Partitioned c s' q' ∧ RoundRobin c s s' q q' := by
  obtain ⟨L1, hput, h1⟩ := putCurrent_spec h
  have hfirst : L1.next (c.head .blocking) = (q .blocking).headD 0 := (h1.isList .blocking).first
  obtain ⟨L2, hblock, h2⟩ := processBlockingTaskList_spec { s with links := L1, current := 0 } []
    h1 s.fuel (h.length_le .blocking) (h.length_le .blocking).le
  replace h2 : Lists L2 c.head (queues (candidates c s q)
      ((q .blocking).filter fun t => (s.task t).state.blocked) (q .exit)
      (q .zombie ++ (q .blocking).filter fun t => (s.task t).state = .zombie)) := h2
  obtain ⟨L3, hreclaim, h3⟩ := processExitTaskList_spec { s with links := L2, current := 0 } h2 s.fuel
    (h.length_le .exit) (fun t ht => ⟨hexit t ht, h.mem_live ht⟩) hwait
  have hperm := h.perm_live
  have hcand : (candidates c s q).length < (s.live.filter (· ∉ q .exit)).length + 1 := by
    have hlen := hperm.length_eq
    simp only [length_cons, length_append] at hlen
    omega
  obtain ⟨L4, hpick, h4⟩ := pickNextTask_spec { s with
      links := L3
      task := wakeAll s.task ((q .exit).flatMap s.waiters)
      live := s.live.filter (· ∉ q .exit)
      events := s.events ++ reclaimEvents s.waiters (q .exit)
      current := 0 } h3 _ hcand
  set task' := wakeAll s.task ((q .exit).flatMap s.waiters)
  set next := (fromRunning task' (candidates c s q)).headD c.idle with hnext
  have hpart : Partitioned c { s with
      links := L4
      task := task'
      live := s.live.filter (· ∉ q .exit)
      events := s.events ++ reclaimEvents s.waiters (q .exit)
      current := next } _ :=
    picked_partitioned h4 (h.live_nodup.filter _) (fun t ht => h.live_ne t (mem_filter.mp ht).1) hperm hnext
  refine ⟨_, _, ?_, hpart, rfl, rfl, rfl, rfl, rfl, rfl, rfl, rfl, rfl, rfl, rfl, rfl⟩
  simp only [SchedState.fuel] at hblock hreclaim
  simp only [schedule, hput, bind, Except.bind, SchedState.fuel, hfirst, hblock, hreclaim, hpick]
  have hpos : ∀ t ∈ fromRunning task' (candidates c s q), t ≠ 0 := fun t ht => by
    have htr : t ∈ candidates c s q := (dropWhile_sublist _).mem ht
    exact (hpart.live_ne t (hperm.mem_iff.mp (by simp [htr]))).1
  have hne : next ≠ 0 := by
    rw [hnext]
    cases hr : fromRunning task' (candidates c s q) with
    | nil => exact c.idle_ne_zero
    | cons t r => exact hpos t (by simp [hr])
  rw [ite_headD hpos, assert_of hne]

end

end ZeldaOS
