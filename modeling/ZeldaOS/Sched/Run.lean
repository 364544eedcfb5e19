import ZeldaOS.Machine.Runs
import ZeldaOS.Sched.Spec

/-!
# Runs of the scheduler

What holds between two steps of the kernel, and what a call of `schedule` does in any such state.

* `schedule_round_robin`: `schedule` is round robin in every reachable state.
* `schedule_fair`: no task starves.
-/

namespace ZeldaOS

open Machine List Function

/-! ## The invariant -/

/-- A task that waits for another one is inside `call_sys_wait0`, and it has not ended. -/
structure TasksInv (s : SchedState) : Prop where
  alive : ∀ t ∈ s.live, (s.task t).Alive
  id_inj : ∀ t ∈ s.live, ∀ u ∈ s.live, s.taskId t = s.taskId u → t = u
  waiter_nodup : ∀ t ∈ s.live, (s.waiters t).Nodup
  waiter_live : ∀ t ∈ s.live, ∀ w ∈ s.waiters t, w ∈ s.live
  waiter_state : ∀ t ∈ s.live, ∀ w ∈ s.waiters t, (s.task w).state ≠ .exiting
  waiter_depth : ∀ t ∈ s.live, ∀ w ∈ s.waiters t, ∃ d, s.waiting w = some (s.taskId t, d) ∧
    0 < d ∧ d ≤ (s.task w).interruptDepth

/-- What holds between two steps. -/
structure SchedInv (c : SchedLayout) (s : SchedState) (q : Queue → List ℕ) : Prop where
  part : Partitioned c s q
  exiting : ∀ t ∈ q .exit, (s.task t).state = .exiting
  tasks : TasksInv s

variable {c : SchedLayout} {s s' : SchedState} {q : Queue → List ℕ}

theorem Partitioned.congr (h : Partitioned c s q) (hl : s'.links = s.links) (hlive : s'.live = s.live)
    (hc : s'.current = s.current) : Partitioned c s' q := by
  obtain ⟨h1, h2, h3, h4⟩ := h
  rw [SchedState.running, ← hc, ← SchedState.running] at h3
  exact ⟨hl ▸ h1, hlive ▸ h2, hlive ▸ h3, hlive ▸ h4⟩

variable {t : ℕ} {id : UInt32} {v : Task} {r : Resume} {waiters' : ℕ → List ℕ}

theorem TasksInv.evolve (h : TasksInv s) {task' : ℕ → Task}
    (he : ∀ u, (s.task u).Evolves (task' u)) : TasksInv { s with task := task' } where
  alive t ht := (he t).alive (h.alive t ht)
  id_inj := h.id_inj
  waiter_nodup := h.waiter_nodup
  waiter_live := h.waiter_live
  waiter_state t ht w hw := by
    rw [Ne, (he w).exiting (h.alive w (h.waiter_live t ht w hw))]
    exact h.waiter_state t ht w hw
  waiter_depth t ht w hw := by
    obtain ⟨d, hd, hpos, hle⟩ := h.waiter_depth t ht w hw
    exact ⟨d, hd, hpos, hle.trans (he w).depth⟩

theorem TasksInv.shrink (h : TasksInv s) {keep : List ℕ} (hsub : ∀ t ∈ keep, t ∈ s.live)
    (hw : ∀ t ∈ keep, ∀ w ∈ s.waiters t, w ∈ keep) : TasksInv { s with live := keep } where
  alive t ht := h.alive t (hsub t ht)
  id_inj t ht u hu := h.id_inj t (hsub t ht) u (hsub u hu)
  waiter_nodup t ht := h.waiter_nodup t (hsub t ht)
  waiter_live := hw
  waiter_state t ht := h.waiter_state t (hsub t ht)
  waiter_depth t ht := h.waiter_depth t (hsub t ht)

theorem TasksInv.congr (h : TasksInv s) (hlive : s'.live = s.live) (htask : s'.task = s.task)
    (hid : s'.taskId = s.taskId) (hws : s'.waiters = s.waiters) (hwg : s'.waiting = s.waiting) : TasksInv s' := by
  obtain ⟨h1, h2, h3, h4, h5, h6⟩ := h
  rw [← hlive] at h1 h2 h3 h4 h5 h6
  rw [← htask] at h1 h5 h6
  rw [← hid] at h2 h6
  rw [← hws] at h3 h4 h5 h6
  rw [← hwg] at h6
  exact ⟨h1, h2, h3, h4, h5, h6⟩

theorem evolves_wakeAll (task : ℕ → Task) (ws : List ℕ) (u : ℕ) : (task u).Evolves (wakeAll task ws u) := by
  rw [wakeAll]
  split_ifs
  · exact evolves_awake _
  · exact .of_state_eq rfl rfl le_rfl

theorem evolves_update {task : ℕ → Task} (he : (task t).Evolves v) (u : ℕ) : (task u).Evolves (update task t v u) := by
  by_cases hu : u = t
  · rw [hu, update_self]
    exact he
  rw [update_of_ne hu]
  exact .of_state_eq rfl rfl le_rfl

theorem SchedInv.setTask (h : SchedInv c s q) (he : (s.task t).Evolves v) : SchedInv c (s.setTask t v) q where
  part := h.part.congr rfl rfl rfl
  exiting u hu := ((evolves_update he u).exiting (h.tasks.alive u (h.part.mem_live hu))).mpr (h.exiting u hu)
  tasks := h.tasks.evolve (evolves_update he)

theorem taskProcessSignal_nested {v' : Task} (hd : v.interruptDepth ≠ 1) (h : taskProcessSignal v = .ok (v', r)) :
    v' = v ∧ r ≠ .yielded := by
  rw [taskProcessSignal, if_neg (fun hc => hd hc.2)] at h
  obtain ⟨rfl, rfl⟩ := Prod.mk.inj (Except.ok.inj h)
  refine ⟨rfl, ?_⟩
  rw [resumeOf]
  split_ifs <;> simp

theorem TasksInv.leave (h : TasksInv s) (hlive : s.current ∈ s.live)
    (hw : ∀ w ∈ s.waiting s.current, w.2 < (s.task s.current).interruptDepth)
    (hv : taskProcessSignal (s.task s.current) = .ok (v, r)) : TasksInv (s.setTask s.current
      (if r = .yielded then v else { v with interruptDepth := v.interruptDepth - 1 })) := by
  set v' := if r = .yielded then v else { v with interruptDepth := v.interruptDepth - 1 } with hv'
  have hstate : v'.state = v.state := by rw [hv']; split_ifs <;> rfl
  have hnon : v'.nonStopState = v.nonStopState := by rw [hv']; split_ifs <;> rfl
  have hother : ∀ u, u ≠ s.current → (s.setTask s.current v').task u = s.task u :=
    fun u hu => update_of_ne hu _ _
  have hself : (s.setTask s.current v').task s.current = v' := update_self _ _ _
  -- a current task that waits is inside a nested interrupt: only its depth changes
  have hnested : ∀ d, s.waiting s.current = some d → 0 < d.2 →
      v'.state = (s.task s.current).state ∧ d.2 ≤ v'.interruptDepth := fun d hd hpos => by
    have hlt := hw d (by rw [hd]; rfl)
    obtain ⟨rfl, hr⟩ := taskProcessSignal_nested (by omega) hv
    rw [hv', if_neg hr]
    exact ⟨rfl, Nat.le_sub_one_of_lt hlt⟩
  refine ⟨fun t ht => ?_, h.id_inj, h.waiter_nodup, h.waiter_live, fun t ht w hmem => ?_, fun t ht w hmem => ?_⟩
  · by_cases he : t = s.current
    · rw [he, hself]
      exact (taskProcessSignal_alive hv (h.alive _ hlive)).congr hstate hnon
    rw [hother t he]
    exact h.alive t ht
  · by_cases he : w = s.current
    · obtain ⟨d, hd, hpos, -⟩ := h.waiter_depth t ht w hmem
      rw [he] at hd
      rw [he, hself, (hnested _ hd hpos).1]
      exact he ▸ h.waiter_state t ht w hmem
    · rw [hother w he]
      exact h.waiter_state t ht w hmem
  obtain ⟨d, hd, hpos, hle⟩ := h.waiter_depth t ht w hmem
  by_cases he : w = s.current
  · refine ⟨d, hd, hpos, ?_⟩
    rw [he] at hd
    rw [he, hself]
    exact (hnested _ hd hpos).2
  · exact ⟨d, hd, hpos, by rwa [hother w he]⟩

/-! ## Calls of the tasks -/

theorem searchTaskById_some (h : searchTaskById s id = some t) : t ∈ s.live ∧ s.taskId t = id :=
  ⟨mem_of_find?_eq_some h, by simpa using find?_some h⟩

theorem searchTaskById_none (h : searchTaskById s id = none) (ht : t ∈ s.live) : s.taskId t ≠ id := by
  simpa using find?_eq_none.mp h t ht

theorem TasksInv.nodup_update (h : TasksInv s) {ws : List ℕ} (hws : t ∈ s.live → ws.Nodup) :
    ∀ u ∈ s.live, (update s.waiters t ws u).Nodup := by
  intro u hu
  by_cases hut : u = t
  · rw [hut, update_self]
    exact hws (hut ▸ hu)
  rw [update_of_ne hut]
  exact h.waiter_nodup u hu

theorem TasksInv.wait0 (h : TasksInv s) (hlive : s.current ∈ s.live) (hw : s.waiting s.current = none)
    (hd : 0 < (s.task s.current).interruptDepth) (hst : (s.task s.current).state ≠ .exiting) : TasksInv { s with
      waiters := update s.waiters t (addWaitQueueEntry (s.waiters t) s.current)
      waiting := update s.waiting s.current (some (s.taskId t, (s.task s.current).interruptDepth)) } := by
  -- a waiter is an old one, which is not the current task, or the current task itself
  have hcases : ∀ u ∈ s.live, ∀ w ∈ update s.waiters t (addWaitQueueEntry (s.waiters t) s.current) u,
      (w ∈ s.waiters u ∧ w ≠ s.current) ∨ (w = s.current ∧ u = t) := fun u hu w hmem => by
    have hne : w ∈ s.waiters u → w ≠ s.current := fun hold he => by
      obtain ⟨d, hd, -⟩ := h.waiter_depth u hu w hold
      rw [he, hw] at hd
      cases hd
    by_cases hut : u = t
    · rw [hut, update_self, mem_addWaitQueueEntry, ← hut] at hmem
      rcases hmem with hold | hcur
      · exact .inl ⟨hold, hne hold⟩
      · exact .inr ⟨hcur, hut⟩
    · rw [update_of_ne hut] at hmem
      exact .inl ⟨hmem, hne hmem⟩
  have hnodup := h.nodup_update fun ht => nodup_addWaitQueueEntry (h.waiter_nodup t ht) s.current
  refine ⟨h.alive, h.id_inj, hnodup, fun u hu w hmem => ?_, fun u hu w hmem => ?_, fun u hu w hmem => ?_⟩
  · rcases hcases u hu w hmem with ⟨hold, -⟩ | ⟨rfl, -⟩
    · exact h.waiter_live u hu w hold
    · exact hlive
  · rcases hcases u hu w hmem with ⟨hold, -⟩ | ⟨rfl, -⟩
    · exact h.waiter_state u hu w hold
    · exact hst
  rcases hcases u hu w hmem with ⟨hold, hne⟩ | ⟨rfl, rfl⟩
  · obtain ⟨d, hd, hrest⟩ := h.waiter_depth u hu w hold
    exact ⟨d, (update_of_ne hne _ _).trans hd, hrest⟩
  · exact ⟨_, update_self _ _ _, hd, le_rfl⟩

theorem TasksInv.wait0Return (h : TasksInv s) (hnodup : ∀ u ∈ s.live, (waiters' u).Nodup)
    (hsub : ∀ u ∈ s.live, ∀ w ∈ waiters' u, w ∈ s.waiters u ∧ w ≠ s.current) :
    TasksInv { s with
      waiting := update s.waiting s.current none, waiters := waiters' } := by
  refine ⟨h.alive, h.id_inj, hnodup, fun u hu w hw => h.waiter_live u hu w (hsub u hu w hw).1,
    fun u hu w hw => h.waiter_state u hu w (hsub u hu w hw).1, fun u hu w hw => ?_⟩
  obtain ⟨hold, hne⟩ := hsub u hu w hw
  simpa only [update_of_ne hne] using h.waiter_depth u hu w hold

theorem TasksInv.searched (h : TasksInv s) :
    match (s.waiting s.current).bind fun w => searchTaskById s w.1 with
    | none => ∀ u ∈ s.live, s.current ∉ s.waiters u
    | some t => ∀ u ∈ s.live, s.current ∈ s.waiters u → u = t := by
  split
  · rename_i hnone
    intro u hu hmem
    obtain ⟨d, hd, -⟩ := h.waiter_depth u hu _ hmem
    rw [hd] at hnone
    exact searchTaskById_none hnone hu rfl
  rename_i t hsome
  intro u hu hmem
  obtain ⟨d, hd, -⟩ := h.waiter_depth u hu _ hmem
  rw [hd] at hsome
  obtain ⟨ht, hid⟩ := searchTaskById_some hsome
  exact h.id_inj u hu t ht hid.symm

theorem TasksInv.create (h : TasksInv s) (hlive : t ∉ s.live) (hv : v.state = .running)
    (hseed : searchTaskById s s.taskSeed = none) : TasksInv (s.create t v) := by
  have hne : ∀ u ∈ s.live, u ≠ t := fun u hu he => hlive (he ▸ hu)
  have htask : ∀ u ∈ s.live, (s.create t v).task u = s.task u :=
    fun u hu => update_of_ne (hne u hu) _ _
  have hid : ∀ u ∈ s.live, (s.create t v).taskId u = s.taskId u :=
    fun u hu => update_of_ne (hne u hu) _ _
  have hwaiting : ∀ u ∈ s.live, (s.create t v).waiting u = s.waiting u :=
    fun u hu => update_of_ne (hne u hu) _ _
  have htaskt : (s.create t v).task t = v := update_self _ _ _
  have hidt : (s.create t v).taskId t = s.taskSeed := update_self _ _ _
  have hwaiters : ∀ u ∈ (s.create t v).live, ∀ w ∈ (s.create t v).waiters u, u ∈ s.live ∧ w ∈ s.waiters u := by
    intro u hu w hw
    change w ∈ update s.waiters t [] u at hw
    rcases mem_cons.mp hu with rfl | hu
    · rw [update_self] at hw
      cases hw
    rw [update_of_ne (hne u hu)] at hw
    exact ⟨hu, hw⟩
  refine ⟨fun u hu => ?_, fun u hu x hx heq => ?_, fun u hu => ?_, fun u hu w hw => ?_, fun u hu w hw => ?_,
    fun u hu w hw => ?_⟩
  · rcases mem_cons.mp hu with rfl | hu
    · rw [htaskt]
      exact ⟨by simp [hv], by simp [hv]⟩
    rw [htask u hu]
    exact h.alive u hu
  · rcases mem_cons.mp hu with hu | hu <;> rcases mem_cons.mp hx with hx | hx
    · rw [hu, hx]
    · rw [hu, hidt, hid x hx] at heq
      exact absurd heq.symm (searchTaskById_none hseed hx)
    · rw [hx, hidt, hid u hu] at heq
      exact absurd heq (searchTaskById_none hseed hu)
    rw [hid u hu, hid x hx] at heq
    exact h.id_inj u hu x hx heq
  · rcases mem_cons.mp hu with rfl | hu
    · change (update s.waiters u [] u).Nodup
      rw [update_self]
      exact nodup_nil
    · exact h.nodup_update (fun _ => nodup_nil) u hu
  · obtain ⟨hu, hw⟩ := hwaiters u hu w hw
    exact mem_cons_of_mem _ (h.waiter_live u hu w hw)
  · obtain ⟨hu, hw⟩ := hwaiters u hu w hw
    rw [htask w (h.waiter_live u hu w hw)]
    exact h.waiter_state u hu w hw
  · obtain ⟨hu, hw⟩ := hwaiters u hu w hw
    rw [htask w (h.waiter_live u hu w hw), hid u hu, hwaiting w (h.waiter_live u hu w hw)]
    exact h.waiter_depth u hu w hw

theorem SchedInv.spawn (h : SchedInv c s q) (h0 : t ≠ 0) (hh : ∀ i, t ≠ c.head i) (hlive : t ∉ s.live)
    (hv : v.state = .running) (hseed : searchTaskById s s.taskSeed = none) :
    ∃ s' q', taskPut c (s.create t v) t = .ok s' ∧ SchedInv c s' q' := by
  have hout : ∀ i, t ∉ q i := fun i hi => hlive (h.part.mem_live hi)
  obtain ⟨hn, hp⟩ := h.part.lists.detached t hout hh
  have hlinks : (s.create t v).links = s.links := by
    rw [SchedState.create, Links.setNext, Links.setPrev, ← hn, update_eq_self, hn, ← hp, update_eq_self]
  have hlists : Lists (s.create t v).links c.head q := by
    rw [hlinks]
    exact h.part.lists
  obtain ⟨L, hput, hl⟩ := append_spec hlists .run h0 hh hout
  have htasks := h.tasks.create hlive hv hseed
  refine ⟨_, _, hput, ⟨hl, nodup_cons.mpr ⟨hlive, h.part.live_nodup⟩, ?_, fun u hu => ?_⟩,
    fun u hu => ?_, ⟨htasks.alive, htasks.id_inj, htasks.waiter_nodup, htasks.waiter_live, htasks.waiter_state,
      htasks.waiter_depth⟩⟩
  · refine List.Perm.trans (perm_iff_count.mpr fun a => ?_) (h.part.perm.cons t)
    have hrun : SchedState.running c { s.create t v with links := L } = s.running c := rfl
    rw [hrun]
    simp [count_cons]
    omega
  · rcases mem_cons.mp hu with rfl | hu
    · exact ⟨h0, hh⟩
    · exact h.part.live_ne u hu
  · have hne : u ≠ t := fun he => hlive (he ▸ h.part.mem_live hu)
    exact (congrArg Task.state (update_of_ne hne _ _)).trans (h.exiting u hu)

theorem SchedInv.leave (h : SchedInv c s q) (h0 : s.current ≠ 0)
    (hw : ∀ w ∈ s.waiting s.current, w.2 < (s.task s.current).interruptDepth)
    (hv : taskProcessSignal (s.task s.current) = .ok (v, r)) : SchedInv c (s.setTask s.current
      (if r = .yielded then v else { v with interruptDepth := v.interruptDepth - 1 })) q where
  part := h.part.congr rfl rfl rfl
  exiting t ht := by
    have hne : t ≠ s.current := fun he => h.part.current_notMem h0 .exit (he ▸ ht)
    exact (congrArg Task.state (update_of_ne hne _ _)).trans (h.exiting t ht)
  tasks := h.tasks.leave (h.part.current_live h0) hw hv

theorem SchedInv.wait0 (h : SchedInv c s q) (h0 : s.current ≠ 0) (hw : s.waiting s.current = none)
    (hd : 0 < (s.task s.current).interruptDepth) (ht : searchTaskById s id = some t)
    (hv : transitState (s.task s.current) .interruptible = .ok v) : SchedInv c { s.setTask s.current v with
      waiters := update s.waiters t (addWaitQueueEntry (s.waiters t) s.current)
      waiting := update s.waiting s.current (some (id, (s.task s.current).interruptDepth)) } q := by
  obtain ⟨hstate, hdepth, hevolves⟩ := evolves_block hv
  obtain ⟨-, rfl⟩ := searchTaskById_some ht
  have h' := h.setTask hevolves
  have hself : (s.setTask s.current v).task (s.setTask s.current v).current = v :=
    update_self _ _ _
  have htasks := h'.tasks.wait0 (t := t) (h.part.current_live h0) hw (by rwa [hself, hdepth])
    (by rw [hself, hstate]; decide)
  rw [hself, hdepth] at htasks
  exact ⟨h.part.congr rfl rfl rfl, h'.exiting, htasks⟩

theorem SchedInv.wait0Return (h : SchedInv c s q) (hnodup : ∀ u ∈ s.live, (waiters' u).Nodup)
    (hsub : ∀ u ∈ s.live, ∀ w ∈ waiters' u, w ∈ s.waiters u ∧ w ≠ s.current) : SchedInv c { s with
      waiting := update s.waiting s.current none, waiters := waiters' } q :=
  ⟨h.part.congr rfl rfl rfl, h.exiting, h.tasks.wait0Return hnodup hsub⟩

theorem SchedInv.schedule (h : SchedInv c s q) :
    ∃ s' q', schedule c s = .ok s' ∧ RoundRobin c s s' q q' ∧ SchedInv c s' q' := by
  obtain ⟨s', q', hs, hpart, hrr⟩ := schedule_spec h.part h.exiting fun t ht w hw => by
    have htlive := h.part.mem_live ht
    have hwlive := h.tasks.waiter_live t htlive w hw
    exact ⟨(h.part.live_ne w hwlive).1, (h.tasks.alive w hwlive).wakeable (h.tasks.waiter_state t htlive w hw)⟩
  refine ⟨s', q', hs, hrr, hpart, fun t ht => ?_, ?_⟩
  · rw [hrr.exit, mem_filter] at ht
    simpa using ht.2
  obtain ⟨hid, -, hwaiters, hwaiting⟩ := hrr.frame
  have hlive : ∀ t, t ∈ s'.live ↔ t ∈ s.live ∧ t ∉ q .exit := by simp [hrr.live]
  have hkeep := (h.tasks.evolve (evolves_wakeAll s.task ((q .exit).flatMap s.waiters))).shrink
    (fun t (ht : t ∈ s'.live) => ((hlive t).mp ht).1) fun t ht w hw => by
      have htlive := ((hlive t).mp ht).1
      exact (hlive w).mpr ⟨h.tasks.waiter_live t htlive w hw, fun hx =>
        h.tasks.waiter_state t htlive w hw (h.exiting w hx)⟩
  exact hkeep.congr rfl hrr.task hid hwaiters hwaiting

theorem assert_eq_ok {p : Prop} [Decidable p] {u : Unit} (h : assert p = .ok u) : p := by
  by_contra hp
  rw [assert, ensure, if_neg hp] at h
  cases h

theorem onTask_eq_ok {α : Type} {x : Except Panic α} {a : α} (h : onTask x = .ok a) : x = .ok a := by
  cases x with
  | error e => cases h
  | ok b => rw [Except.ok.inj h]

/-! ## Runs -/

theorem schedInv_boot (idleTask : Task) : SchedInv c (c.boot idleTask) fun _ => [] where
  part :=
    { lists := ⟨fun i => ⟨rfl, rfl, trivial⟩, c.head_inj, fun _ => nodup_nil, by simp, by simp,
        by simp, fun _ _ _ => ⟨rfl, rfl⟩⟩
      live_nodup := nodup_singleton _
      perm := by simp [SchedState.running, SchedLayout.boot]
      live_ne := by simpa [SchedLayout.boot] using ⟨c.idle_ne_zero, c.idle_ne_head⟩ }
  exiting := by simp
  tasks := by
    refine ⟨fun t _ => ⟨by simp [SchedLayout.boot], by simp [SchedLayout.boot]⟩, ?_, ?_, ?_, ?_, ?_⟩ <;>
      simp [SchedLayout.boot]

theorem schedInv_step (h : SchedInv c s q) {op : SchedOp} (hs : s.step c op = .ok s') : ∃ q', SchedInv c s' q' := by
  unfold SchedState.step at hs
  split_ifs at hs with hallow
  case neg =>
    cases hs
    exact ⟨q, h⟩
  cases op with
  | spawn t v =>
    obtain ⟨h0, hh, hlive, hv⟩ := hallow
    obtain ⟨u, hseed, hs⟩ := bind_eq_ok hs
    obtain ⟨s1, q1, hs1, h1⟩ := h.spawn h0 (fun i => hh i (by cases i <;> simp)) hlive hv (assert_eq_ok hseed)
    cases hs1.symm.trans hs
    exact ⟨q1, h1⟩
  | signal t sig =>
    obtain ⟨v, hv, hs⟩ := bind_eq_ok hs
    cases hs
    exact ⟨q, h.setTask (evolves_signalTask (onTask_eq_ok hv))⟩
  | wakeUp t =>
    obtain ⟨v, hv, hs⟩ := bind_eq_ok hs
    cases hs
    exact ⟨q, h.setTask (evolves_rawTaskWakeUp (onTask_eq_ok hv))⟩
  | block =>
    obtain ⟨v, hv, hs⟩ := bind_eq_ok hs
    cases hs
    exact ⟨q, h.setTask (evolves_block (onTask_eq_ok hv)).2.2⟩
  | wait0 id =>
    obtain ⟨h0, hw, hd⟩ := hallow
    cases ht : searchTaskById s id with
    | none =>
      simp only [ht] at hs
      cases hs
      exact ⟨q, h⟩
    | some t =>
      simp only [ht] at hs
      split_ifs at hs
      · cases hs
        exact ⟨q, h⟩
      obtain ⟨v, hv, hs⟩ := bind_eq_ok hs
      cases hs
      exact ⟨q, h.wait0 h0 hw hd ht (onTask_eq_ok hv)⟩
  | wait0Return =>
    have hsearch := h.tasks.searched
    cases ht : (s.waiting s.current).bind fun w => searchTaskById s w.1 with
    | none =>
      simp only [ht] at hs hsearch
      cases hs
      exact ⟨q, h.wait0Return h.tasks.waiter_nodup fun u hu w hw => ⟨hw, fun he => hsearch u hu (he ▸ hw)⟩⟩
    | some t =>
      simp only [ht] at hs hsearch
      cases hs
      have hnodup := h.tasks.nodup_update fun ht =>
        nodup_removeWaitQueueEntry (h.tasks.waiter_nodup t ht) s.current
      refine ⟨q, h.wait0Return hnodup fun u hu w hw => ?_⟩
      by_cases hut : u = t
      · rw [hut, update_self, mem_removeWaitQueueEntry (h.tasks.waiter_nodup t (hut ▸ hu))] at hw
        exact hut ▸ hw
      · rw [update_of_ne hut] at hw
        exact ⟨hw, fun he => hut (hsearch u hu (he ▸ hw))⟩
  | sysSignal signal handler =>
    cases hs
    exact ⟨q, h.setTask (evolves_callSysSignal _ _ _)⟩
  | sigReturn =>
    obtain ⟨-, -, hs⟩ := bind_eq_ok hs
    cases hs
    exact ⟨q, h.setTask (.of_state_eq rfl rfl le_rfl)⟩
  | enter =>
    cases hs
    exact ⟨q, h.setTask (.of_state_eq rfl rfl (Nat.le_succ _))⟩
  | leave =>
    obtain ⟨h0, -, hw⟩ := hallow
    obtain ⟨⟨v, r⟩, hv, hs⟩ := bind_eq_ok hs
    cases hs
    exact ⟨q, h.leave h0 hw (onTask_eq_ok hv)⟩
  | schedule =>
    obtain ⟨s1, q1, hs1, -, h1⟩ := h.schedule
    cases hs1.symm.trans hs
    exact ⟨q1, h1⟩

theorem schedInv_run (h : SchedInv c s q) {ops : List SchedOp} (hs : s.run c ops = .ok s') :
    ∃ q', SchedInv c s' q' := by
  induction ops generalizing s q with
  | nil =>
    cases hs
    exact ⟨q, h⟩
  | cons op ops ih =>
    obtain ⟨s1, hs1, hs⟩ := bind_eq_ok hs
    obtain ⟨q1, h1⟩ := schedInv_step h hs1
    exact ih h1 hs

/-- **In every reachable state the queues partition the live tasks, and `schedule` reclaims the tasks on the exit list,
picks the first running candidate, and leaves the queues partitioned.** -/
theorem schedule_round_robin (c : SchedLayout) (idleTask : Task) (ops : List SchedOp) (s : SchedState)
    (hs : (c.boot idleTask).run c ops = .ok s) :
    ∃ q s' q', Partitioned c s q ∧ schedule c s = .ok s' ∧ Partitioned c s' q' ∧ RoundRobin c s s' q q' := by
  obtain ⟨q, h⟩ := schedInv_run (schedInv_boot idleTask) hs
  obtain ⟨s', q', hs', hrr, h'⟩ := h.schedule
  exact ⟨q, s', q', h.part, hs', h'.part, hrr⟩

/-- A small machine: the idle task is at `1`, the list heads are at `2` to `5`. -/
def smallLayout : SchedLayout where
  head
    | .run => 2
    | .blocking => 3
    | .exit => 4
    | .zombie => 5
  idle := 1
  head_inj i j h := by cases i <;> cases j <;> first | rfl | exact absurd h (by decide)
  idle_ne_zero := by decide
  idle_ne_head i := by cases i <;> decide

/-- Two tasks are loaded, and the first one is dispatched and returns to PL3. -/
def twoTasks : List SchedOp := [.spawn 8 (createdTask true), .spawn 9 (createdTask true), .schedule, .leave]

theorem schedule_round_robin_two_tasks : ∃ s, (smallLayout.boot (createdTask false)).run smallLayout
        (twoTasks ++ [.enter, .block]) = .ok s ∧
      s.current = 8 ∧ (s.task 8).state = .interruptible ∧
      ∃ q s' q', Partitioned smallLayout s q ∧ schedule smallLayout s = .ok s' ∧
        Partitioned smallLayout s' q' ∧ RoundRobin smallLayout s s' q q' :=
  ⟨_, rfl, rfl, rfl, schedule_round_robin smallLayout (createdTask false)
    (twoTasks ++ [.enter, .block]) _ rfl⟩

/-! ## Fairness -/

/-- At most `n` calls of `schedule` in a row make `t` current. -/
def SchedState.TurnWithin (c : SchedLayout) (s : SchedState) (t n : ℕ) : Prop :=
  ∃ k ≤ n, ∃ s', s.run c (replicate k .schedule) = .ok s' ∧ s'.current = t

/-- A call takes at least one task from before `t`, and new candidates come behind it. -/
theorem SchedInv.turn (h : SchedInv c s q) (hrun : (s.task t).state = .running) {l r : List ℕ}
    (hq : candidates c s q = l ++ t :: r) : s.TurnWithin c t (l.length + 1) := by
  induction hn : l.length using Nat.strongRecOn generalizing s q l r with
  | ind n ih =>
    obtain ⟨s', q', hs', hrr, h'⟩ := h.schedule
    have hallowed : SchedOp.Allowed c s .schedule := trivial
    have hstep : s.step c .schedule = .ok s' := by rw [SchedState.step, if_pos hallowed, hs']
    have hrun' : (s'.task t).state = .running := by
      rw [hrr.task, wakeAll, Task.awake, rawTaskWakeUp, hrun]
      split_ifs <;> exact hrun
    have hfrom : fromRunning s'.task (l ++ t :: r) = fromRunning s'.task l ++ t :: r := by
      simp +contextual [fromRunning, dropWhile_append, hrun']
    have hcur := hrr.current
    have hnext := hrr.run
    rw [hq, hfrom] at hcur hnext
    have hlen : (fromRunning s'.task l).length ≤ n := hn ▸ (dropWhile_sublist _).length_le
    cases hl : fromRunning s'.task l with
    | nil =>
      rw [hl] at hcur
      exact ⟨1, by omega, s', bind_of_ok hstep rfl, hcur⟩
    | cons u l' =>
      rw [hl, cons_append, tail_cons] at hnext
      rw [hl, length_cons] at hlen
      obtain ⟨r', hq'⟩ : ∃ r', candidates c s' q' = l' ++ t :: r' :=
        ⟨_, by rw [candidates, hnext, append_assoc, append_assoc, cons_append]⟩
      obtain ⟨k, hk, s2, hs2, hcur2⟩ := ih l'.length hlen h' hrun' hq' rfl
      exact ⟨k + 1, by omega, s2, bind_of_ok hstep hs2, hcur2⟩

/-- A candidate that is running gets its turn within as many calls as there are candidates. -/
def SchedState.Fair (c : SchedLayout) (s : SchedState) : Prop :=
  ∃ q, Partitioned c s q ∧ ∀ t ∈ candidates c s q, (s.task t).state = .running →
    s.TurnWithin c t (candidates c s q).length

/-- **No task starves.** -/
theorem schedule_fair (c : SchedLayout) (idleTask : Task) (ops : List SchedOp) (s : SchedState)
    (hs : (c.boot idleTask).run c ops = .ok s) : s.Fair c := by
  obtain ⟨q, h⟩ := schedInv_run (schedInv_boot idleTask) hs
  refine ⟨q, h.part, fun t ht hrun => ?_⟩
  obtain ⟨l, r, hq⟩ := append_of_mem ht
  obtain ⟨k, hk, hturn⟩ := h.turn hrun hq
  exact ⟨k, by rw [hq, length_append, length_cons]; omega, hturn⟩

theorem schedule_fair_two_tasks : ∃ s, (smallLayout.boot (createdTask false)).run smallLayout twoTasks = .ok s ∧
      s.current = 8 ∧ s.Fair smallLayout :=
  ⟨_, rfl, rfl, schedule_fair smallLayout (createdTask false) twoTasks _ rfl⟩

end ZeldaOS
