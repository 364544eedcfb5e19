import ZeldaOS.Task.Alive

/-!
# Wait queues

`kernel/wait_queue.c` on queues of tasks, each with one entry. The scheduler, the terminals and the work queues use it.

* `wakeUpQueue_eq`: `wake_up` wakes each task of a queue once if they all can be woken.
-/

namespace ZeldaOS

open Function List

/-! ## The calls -/

def addWaitQueueEntry (q : List ℕ) (t : ℕ) : List ℕ := if t ∈ q then q else q ++ [t]

def removeWaitQueueEntry (q : List ℕ) (t : ℕ) : List ℕ := if t ∈ q then q.erase t else q

/-- `wake_up`. -/
def wakeUpQueue (task : ℕ → Task) : List ℕ → Except Panic (ℕ → Task)
  | [] => .ok task
  | t :: q => do
    let v ← rawTaskWakeUp (task t)
    wakeUpQueue (update task t v) q

variable {q : List ℕ} {t u : ℕ}

theorem mem_addWaitQueueEntry : u ∈ addWaitQueueEntry q t ↔ u ∈ q ∨ u = t := by
  rw [addWaitQueueEntry]
  split_ifs with h
  · exact ⟨.inl, fun hu => hu.elim id fun he => he ▸ h⟩
  · rw [mem_append, mem_singleton]

theorem nodup_addWaitQueueEntry (hq : q.Nodup) (t : ℕ) : (addWaitQueueEntry q t).Nodup := by
  rw [addWaitQueueEntry]
  split_ifs with h
  · exact hq
  · exact hq.append (nodup_singleton t) (by simpa using h)

theorem mem_removeWaitQueueEntry (hq : q.Nodup) : u ∈ removeWaitQueueEntry q t ↔ u ∈ q ∧ u ≠ t := by
  rw [removeWaitQueueEntry]
  split_ifs with h
  · rw [hq.mem_erase_iff, and_comm]
  · exact ⟨fun hu => ⟨hu, fun he => h (he ▸ hu)⟩, And.left⟩

theorem nodup_removeWaitQueueEntry (hq : q.Nodup) (t : ℕ) : (removeWaitQueueEntry q t).Nodup := by
  rw [removeWaitQueueEntry]
  split_ifs
  · exact hq.erase t
  · exact hq

/-! ## Waking -/

/-- The tasks after those of `ws` are woken. -/
def wakeAll (task : ℕ → Task) (ws : List ℕ) (t : ℕ) : Task :=
  if t ∈ ws then (task t).awake else task t

theorem wakeAll_nil (task : ℕ → Task) : wakeAll task [] = task := by
  funext t
  exact if_neg not_mem_nil

variable {task : ℕ → Task} {ws : List ℕ}

theorem wakeAll_wakeable (h : (task t).Wakeable) : (wakeAll task ws t).Wakeable := by
  rw [wakeAll]
  split_ifs
  · exact ⟨_, h.again⟩
  · exact h

theorem wakeAll_of_exiting (h : (task t).state = .exiting) : wakeAll task ws t = task t := by
  rw [wakeAll, Task.awake_of_exiting h, ite_self]

theorem wakeAll_append {vs : List ℕ} (h : ∀ t ∈ ws, (task t).Wakeable) :
    wakeAll (wakeAll task ws) vs = wakeAll task (ws ++ vs) := by
  funext t
  simp only [wakeAll, mem_append]
  by_cases hw : t ∈ ws
  · by_cases hv : t ∈ vs
    · have hagain : (task t).awake.awake = (task t).awake := by
        rw [Task.awake, (h t hw).again]
        rfl
      simp only [hw, hv, if_true, or_true, hagain]
    · simp only [hw, hv, if_true, if_false, true_or]
  · by_cases hv : t ∈ vs
    · simp only [hw, hv, if_true, if_false, or_true]
    · simp only [hw, hv, if_false, or_self]

theorem update_awake : update task t (task t).awake = wakeAll task [t] := by
  funext u
  by_cases hu : u = t
  · rw [hu, update_self, wakeAll, if_pos mem_cons_self]
  · rw [update_of_ne hu, wakeAll, if_neg (by simpa using hu)]

/-- A task that has two entries is awake at the second one. -/
theorem wakeUpQueue_eq (h : ∀ t ∈ ws, (task t).Wakeable) : wakeUpQueue task ws = .ok (wakeAll task ws) := by
  induction ws generalizing task with
  | nil => rw [wakeUpQueue, wakeAll_nil]
  | cons t ws ih =>
    obtain ⟨ht, hws⟩ := forall_mem_cons.1 h
    rw [wakeUpQueue, ht.awake_eq]
    change wakeUpQueue (update task t (task t).awake) ws = _
    rw [update_awake, ih fun u hu => wakeAll_wakeable (hws u hu), wakeAll_append (by simpa using ht), singleton_append]

end ZeldaOS
