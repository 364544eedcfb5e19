import ZeldaOS.Machine.Lists

/-!
# Intrusive lists as sequences

Runs of the operations of `lib/list.c` on any number of lists, and the callers that look first.

* `lists_are_sequences`: the lists are sequences after every run.
-/

namespace ZeldaOS

open Machine List Function

variable {ι : Type} [DecidableEq ι]

/-! ## Runs -/

inductive ListCall (ι : Type) where
  | append (i : ι) (elem : ℕ)
  | prepend (i : ι) (elem : ℕ)
  | pop (i : ι)
  | fetch (i : ι)
  | delete (i : ι) (elem : ℕ)

namespace ListCall

def run (head : ι → ℕ) (fuel : ℕ) (L : Links) : ListCall ι → Except Fault (Links × ℕ)
  | append i elem => (listAppend L (head i) elem).map (·, 0)
  | prepend i elem => (listPrepend L (head i) elem).map (·, 0)
  | pop i => listPop L (head i)
  | fetch i => listFetch L (head i)
  | delete i elem => (listDelete L fuel (head i) elem).map (·, 0)

def effect (q : ι → List ℕ) : ListCall ι → (ι → List ℕ) × ℕ
  | append i elem => (update q i (q i ++ [elem]), 0)
  | prepend i elem => (update q i (elem :: q i), 0)
  | pop i => (update q i (q i).dropLast, (q i).getLastD 0)
  | fetch i => (update q i (q i).tail, (q i).headD 0)
  | delete i elem => (update q i ((q i).erase elem), 0)

/-- An element enters a list when it is in none, and is deleted from its list. -/
def Legal (head : ι → ℕ) (q : ι → List ℕ) : ListCall ι → Prop
  | append _ elem | prepend _ elem => elem ≠ 0 ∧ (∀ j, elem ≠ head j) ∧ ∀ j, elem ∉ q j
  | delete i elem => elem ∈ q i
  | _ => True

/-- The links after a run of legal calls on empty lists, and the sequences it should leave. -/
inductive Reachable (head : ι → ℕ) : Links → (ι → List ℕ) → Prop
  | init {L : Links} (h : Lists L head fun _ => []) : Reachable head L fun _ => []
  | step {L L' : Links} {q : ι → List ℕ} {c : ListCall ι} {fuel elem : ℕ} (h : Reachable head L q)
    (hlegal : c.Legal head q) (hfuel : ∀ i, (q i).length ≤ fuel) (hrun : c.run head fuel L = .ok (L', elem)) :
    Reachable head L' (c.effect q).1

variable {head : ι → ℕ} {q : ι → List ℕ} {L : Links} {fuel : ℕ}

theorem run_spec {c : ListCall ι} (h : Lists L head q) (hlegal : c.Legal head q) (hfuel : ∀ i, (q i).length ≤ fuel) :
    ∃ L', c.run head fuel L = .ok (L', (c.effect q).2) ∧ Lists L' head (c.effect q).1 := by
  cases c with
  | append i elem =>
    obtain ⟨L', hL', h'⟩ := listAppend_spec h i hlegal.1 hlegal.2.1 hlegal.2.2
    exact ⟨L', by rw [run, hL']; rfl, h'⟩
  | prepend i elem =>
    have h' := h.insert (nil_append (q i)).symm hlegal.1 hlegal.2.1 hlegal.2.2
    exact ⟨_, by rw [run, listPrepend_eq h hlegal.2.1 hlegal.2.2]; rfl, h'⟩
  | pop i =>
    rcases eq_nil_or_concat (q i) with hq | ⟨l, x, hq⟩
    · have hnil : L.next (head i) = 0 := by rw [(h.isList i).first, hq]; rfl
      refine ⟨L, by rw [run, listPop, if_pos hnil, effect, hq]; rfl, ?_⟩
      rwa [effect, hq, dropLast_nil, ← hq, update_eq_self]
    rw [concat_eq_append] at hq
    refine ⟨_, by rw [run, listPop_eq h hq, effect, hq, getLastD_concat], ?_⟩
    have h' := h.remove hq
    rw [append_nil] at h'
    rwa [effect, hq, dropLast_concat]
  | fetch i =>
    cases hq : q i with
    | nil =>
      refine ⟨L, by rw [run, listFetch_nil h hq, effect, hq]; rfl, ?_⟩
      rwa [effect, hq, tail_nil, ← hq, update_eq_self]
    | cons x r =>
      obtain ⟨L', hL', h'⟩ := listFetch_spec h hq
      exact ⟨L', by rw [run, hL', effect, hq]; rfl, by rwa [effect, hq]⟩
  | delete i elem =>
    obtain ⟨l, r, hq⟩ := append_of_mem hlegal
    obtain ⟨L', hL', h'⟩ := listDelete_spec h hq fuel (hfuel i)
    have hnd := h.nodup i
    rw [hq] at hnd
    have hl : elem ∉ l := fun hc => (nodup_cons.1 (nodup_middle.1 hnd)).1 (mem_append_left _ hc)
    refine ⟨L', by rw [run, hL']; rfl, ?_⟩
    rwa [effect, hq, erase_append_right _ hl, erase_cons_head]

theorem Reachable.lists (h : Reachable head L q) : Lists L head q := by
  induction h with
  | init h => exact h
  | step h hlegal hfuel hrun ih =>
    obtain ⟨L', hL', h'⟩ := run_spec ih hlegal hfuel
    cases hrun.symm.trans hL'
    exact h'

theorem Reachable.call (h : Reachable head L q) (c : ListCall ι) (hlegal : c.Legal head q)
    (hfuel : ∀ i, (q i).length ≤ fuel) : ∃ L', Reachable head L' (c.effect q).1 := by
  obtain ⟨L', hrun, -⟩ := run_spec h.lists hlegal hfuel
  exact ⟨L', .step h hlegal hfuel hrun⟩

end ListCall

/-! ## Callers that look first -/

def addAbsent (L : Links) (fuel head elem : ℕ) : Except Fault Links := do
  if ← elementInList L fuel head elem then .ok L else listAppend L head elem

def WaitQueue.addWaitQueueEntry (L : Links) (fuel head entry : ℕ) : Except Fault Links := addAbsent L fuel head entry

def putPacket (L : Links) (fuel packetPoolHead pkt : ℕ) : Except Fault Links := addAbsent L fuel packetPoolHead pkt

def WaitQueue.removeWaitQueueEntry (L : Links) (fuel head entry : ℕ) : Except Fault Links := do
  if ← elementInList L fuel head entry then listDelete L fuel head entry else .ok L

/-- A call that succeeds and, made again, changes nothing. -/
def Idempotent (f : Links → Except Fault Links) (L : Links) : Prop := ∃ L', f L = .ok L' ∧ f L' = .ok L'

section
variable {head : ι → ℕ} {q : ι → List ℕ} {L : Links} {i : ι} {x fuel : ℕ}

theorem addAbsent_idempotent (h : Lists L head q) (hfuel : (q i).length + 1 < fuel)
    (hx : x ∈ q i ∨ (ListCall.append i x).Legal head q) : Idempotent (addAbsent · fuel (head i) x) L := by
  have hthere : ∀ {L' q'}, Lists L' head q' → x ∈ q' i → (q' i).length < fuel →
      addAbsent L' fuel (head i) x = .ok L' := fun h' hx' hfuel' => by
    rw [addAbsent, elementInList_spec h' i x hfuel', decide_eq_true hx']
    rfl
  rcases hx with hx | hx
  · have hsame := hthere h hx (by omega)
    exact ⟨L, hsame, hsame⟩
  obtain ⟨L', hL', h'⟩ := listAppend_spec h i hx.1 hx.2.1 hx.2.2
  refine ⟨L', ?_, hthere h' (by simp) (by simpa using hfuel)⟩
  dsimp only
  rw [addAbsent, elementInList_spec h i x (by omega), decide_eq_false (hx.2.2 i)]
  exact hL'

theorem removeWaitQueueEntry_idempotent (h : Lists L head q) (hfuel : (q i).length < fuel) :
    Idempotent (WaitQueue.removeWaitQueueEntry · fuel (head i) x) L := by
  have hgone : ∀ {L' q'}, Lists L' head q' → x ∉ q' i → (q' i).length < fuel →
      WaitQueue.removeWaitQueueEntry L' fuel (head i) x = .ok L' := fun h' hx' hfuel' => by
    rw [WaitQueue.removeWaitQueueEntry, elementInList_spec h' i x hfuel', decide_eq_false hx']
    rfl
  by_cases hx : x ∈ q i
  · obtain ⟨l, r, hq⟩ := append_of_mem hx
    obtain ⟨L', hL', h'⟩ := listDelete_spec h hq fuel hfuel.le
    have hnd := h.nodup i
    have hlen : (q i).length = (l ++ r).length + 1 := by
      rw [hq]
      simp [Nat.add_assoc]
    rw [hq] at hnd
    refine ⟨L', ?_, hgone h' ?_ ?_⟩
    · dsimp only
      rw [WaitQueue.removeWaitQueueEntry, elementInList_spec h i x hfuel, decide_eq_true hx]
      exact hL'
    · rw [update_self]
      exact (nodup_cons.1 (nodup_middle.1 hnd)).1
    · rw [update_self]
      omega
  · have hsame := hgone h hx hfuel
    exact ⟨L, hsame, hsame⟩

end

/-- **Linked lists are sequences after every run**, and the callers that look first are idempotent. -/
theorem lists_are_sequences {head : ι → ℕ} {L : Links} {q : ι → List ℕ} (h : ListCall.Reachable head L q) (fuel : ℕ)
    (hfuel : ∀ i, (q i).length + 1 < fuel) : Lists L head q ∧
      (∀ c : ListCall ι, c.Legal head q → ∃ L', c.run head fuel L = .ok (L', (c.effect q).2) ∧
        Lists L' head (c.effect q).1) ∧
      ∀ i x, elementInList L fuel (head i) x = .ok (decide (x ∈ q i)) ∧
        (x ∈ q i ∨ (ListCall.append i x).Legal head q → Idempotent (putPacket · fuel (head i) x) L ∧
          Idempotent (WaitQueue.addWaitQueueEntry · fuel (head i) x) L) ∧
        Idempotent (WaitQueue.removeWaitQueueEntry · fuel (head i) x) L := by
  have hroom : ∀ i, (q i).length < fuel := fun i => Nat.lt_of_succ_lt (hfuel i)
  refine ⟨h.lists, fun c hlegal => ListCall.run_spec h.lists hlegal fun i => (hroom i).le,
    fun i x => ⟨elementInList_spec h.lists i x (hroom i), fun hx => ?_,
      removeWaitQueueEntry_idempotent h.lists (hroom i)⟩⟩
  have hadd := addAbsent_idempotent h.lists (hfuel i) hx
  exact ⟨hadd, hadd⟩

/-- Two lists, at the addresses 1 and 2. -/
def twoHeads (second : Bool) : ℕ := if second then 2 else 1

theorem lists_twoHeads : Lists ⟨fun _ => 0, fun _ => 0⟩ twoHeads fun _ => [] :=
  ⟨fun _ => ⟨rfl, rfl, trivial⟩, by decide, fun _ => .nil, fun _ _ _ hx => absurd hx not_mem_nil, by simp, by simp,
    fun _ _ _ => ⟨rfl, rfl⟩⟩

/-- Five calls on two lists; 7 is then alone in the second one. -/
theorem lists_are_sequences_two : ∃ L q, ListCall.Reachable twoHeads L q ∧ q false = [8, 6] ∧ q true = [7] ∧
      elementInList L 4 1 6 = .ok true ∧ elementInList L 4 1 7 = .ok false ∧ elementInList L 4 2 7 = .ok true ∧
      Idempotent (WaitQueue.removeWaitQueueEntry · 4 1 6) L := by
  have hshort : ∀ q : Bool → List ℕ, (q false).length ≤ 3 → (q true).length ≤ 3 → ∀ i, (q i).length ≤ 3 :=
    fun q h0 h1 i => Bool.rec h0 h1 i
  obtain ⟨L1, h1⟩ := (ListCall.Reachable.init lists_twoHeads).call (.append false 5)
    ⟨by decide, by decide, by decide⟩ (hshort _ (by decide) (by decide))
  obtain ⟨L2, h2⟩ := h1.call (.append false 6) ⟨by decide, by decide, by decide⟩ (hshort _ (by decide) (by decide))
  obtain ⟨L3, h3⟩ := h2.call (.append true 7) ⟨by decide, by decide, by decide⟩ (hshort _ (by decide) (by decide))
  obtain ⟨L4, h4⟩ := h3.call (.prepend false 8) ⟨by decide, by decide, by decide⟩ (hshort _ (by decide) (by decide))
  obtain ⟨L5, h5⟩ := h4.call (.delete false 5) (by decide : 5 ∈ [8, 5, 6]) (hshort _ (by decide) (by decide))
  have hlists := (lists_are_sequences h5 4 (by decide)).2.2
  exact ⟨_, _, h5, rfl, rfl, (hlists false 6).1, (hlists false 7).1, (hlists true 7).1, (hlists false 6).2.2⟩

end ZeldaOS
