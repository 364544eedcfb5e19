import ZeldaOS.Machine.Bytes

/-!
# Runs of positions

The scan of a ring for `n` free positions in a row below `stop`, which jumps behind the first position that is not
free and ends when the run would reach `stop`.

* `scanRing_least`: the run that is found.
* `scanRing_none_iff`: when the scan ends without one.
-/

namespace Machine

open List

/-! ## Leading runs -/

/-- How many positions below `n` have the property before the first that does not. -/
def leadingRun (p : ℕ → Bool) (n : ℕ) : ℕ := (List.range n).findIdx fun i => !p i

variable {p : ℕ → Bool} {n : ℕ}

theorem leadingRun_le (p : ℕ → Bool) (n : ℕ) : leadingRun p n ≤ n := by
  have h : leadingRun p n ≤ (List.range n).length := findIdx_le_length
  rwa [length_range] at h

theorem of_lt_leadingRun {i : ℕ} (h : i < leadingRun p n) : p i = true := by
  have hi := not_of_lt_findIdx h
  simpa using hi

theorem not_at_leadingRun (h : leadingRun p n < n) : p (leadingRun p n) = false := by
  have hlt : (List.range n).findIdx (fun i => !p i) < (List.range n).length := by
    rwa [length_range]
  have hat := findIdx_getElem (w := hlt)
  rw [getElem_range, Bool.not_eq_true'] at hat
  exact hat

theorem leadingRun_eq_iff : leadingRun p n = n ↔ ∀ i < n, p i = true := by
  constructor
  · intro h i hi
    exact of_lt_leadingRun (by rwa [h])
  intro h
  by_contra hne
  have hlt := lt_of_le_of_ne (leadingRun_le p n) hne
  have hat := not_at_leadingRun hlt
  rw [h _ hlt] at hat
  cases hat

/-! ## The scan -/

def scanRing (free : ℕ → Bool) (size stop n : ℕ) : (fuel a : ℕ) → Except Fault (Option ℕ)
  | 0, _ => .error .diverge
  | fuel + 1, a =>
    if a < stop then
      if stop ≤ (a + n) % size then .ok none
      else if leadingRun (fun i => free ((a + i) % size)) n = n then .ok (some a)
      else scanRing free size stop n fuel ((a + leadingRun (fun i => free ((a + i) % size)) n + 1) % size)
    else .ok none

structure RunIn (free : ℕ → Bool) (start stop n s : ℕ) : Prop where
  start_le : start ≤ s
  le_stop : s + n ≤ stop
  free : ∀ i < n, free (s + i) = true

/-- A position that is not free and ends the scan: a run behind it would reach `stop` and not the end of the ring, or
it is the last one below `stop` or behind it. -/
def StopsScan (free : ℕ → Bool) (size stop n f : ℕ) : Prop :=
  free f = false ∧ (stop ≤ f + 1 + n ∧ f + 1 + n < size ∨ stop ≤ f + 1 ∧ f + 1 < size)

theorem no_run_before {free : ℕ → Bool} {a r s : ℕ} (hr : r < n) (hnot : free (a + r) = false) (has : a ≤ s)
    (hs : s ≤ a + r) : ¬∀ i < n, free (s + i) = true := by
  intro hrun
  have hin := hrun (a + r - s) (by omega)
  rw [Nat.add_sub_of_le hs, hnot] at hin
  cases hin

section Scan
variable {free : ℕ → Bool} {size start stop a fuel : ℕ}

theorem scanRing_cases (free : ℕ → Bool) (size n fuel : ℕ) (ha : a < stop) :
    (stop ≤ (a + n) % size ∧ scanRing free size stop n (fuel + 1) a = .ok none) ∨
    ((a + n) % size < stop ∧ (∀ i < n, free ((a + i) % size) = true) ∧
      scanRing free size stop n (fuel + 1) a = .ok (some a)) ∨
    ((a + n) % size < stop ∧ ∃ r < n, free ((a + r) % size) = false ∧ (∀ i < r, free ((a + i) % size) = true) ∧
      scanRing free size stop n (fuel + 1) a = scanRing free size stop n fuel ((a + r + 1) % size)) := by
  rw [scanRing, if_pos ha]
  by_cases hcheck : stop ≤ (a + n) % size
  · rw [if_pos hcheck]
    exact .inl ⟨hcheck, rfl⟩
  rw [if_neg hcheck]
  refine .inr ?_
  by_cases hrun : leadingRun (fun i => free ((a + i) % size)) n = n
  · rw [if_pos hrun]
    exact .inl ⟨by omega, leadingRun_eq_iff.1 hrun, rfl⟩
  have hlt := lt_of_le_of_ne (leadingRun_le _ n) hrun
  rw [if_neg hrun]
  exact .inr ⟨by omega, _, hlt, not_at_leadingRun hlt,
    fun i hi => of_lt_leadingRun (p := fun i => free ((a + i) % size)) hi, rfl⟩

theorem scanRing_some {s : ℕ} (h : scanRing free size stop n fuel a = .ok (some s)) :
    (s + n) % size < stop ∧ ∀ i < n, free ((s + i) % size) = true := by
  induction fuel generalizing a with
  | zero => cases h
  | succ fuel ih =>
    by_cases hbelow : a < stop
    · rcases scanRing_cases free size n fuel hbelow with ⟨-, hend⟩ | ⟨hcheck, hrun, hfound⟩ | ⟨-, r, -, -, -, hnext⟩
      · rw [hend] at h
        cases h
      · rw [hfound] at h
        cases h
        exact ⟨hcheck, hrun⟩
      · rw [hnext] at h
        exact ih h
    · rw [scanRing, if_neg hbelow] at h
      cases h

/-- **A run that ends before `stop` is found, and no run is lower.** -/
theorem scanRing_least (hsize : stop < size) (hfuel : stop < a + fuel) (ha : start ≤ a)
    (hbefore : ∀ s, RunIn free start stop n s → a ≤ s) (hseen : ∃ s, RunIn free start stop n s ∧ s + n < stop) :
    ∃ s, scanRing free size stop n fuel a = .ok (some s) ∧ RunIn free start stop n s ∧
      ∀ s', RunIn free start stop n s' → s ≤ s' := by
  obtain ⟨s0, hs0, hlt0⟩ := hseen
  have hle := hbefore s0 hs0
  induction fuel generalizing a with
  | zero => omega
  | succ fuel ih =>
    have hmod : ∀ i ≤ n, (a + i) % size = a + i := fun i hi => Nat.mod_eq_of_lt (by omega)
    rcases scanRing_cases free size n fuel (show a < stop by omega) with
      ⟨hcheck, -⟩ | ⟨-, hrun, hfound⟩ | ⟨-, r, hr, hnot, -, hnext⟩
    · rw [hmod n le_rfl] at hcheck
      omega
    · refine ⟨a, hfound, ⟨ha, by omega, fun i hi => ?_⟩, hbefore⟩
      rw [← hmod i hi.le]
      exact hrun i hi
    rw [hmod r hr.le] at hnot
    rw [add_assoc, hmod (r + 1) hr] at hnext
    have hbefore' : ∀ s, RunIn free start stop n s → a + (r + 1) ≤ s := by
      intro s hs
      by_contra hc
      exact no_run_before hr hnot (hbefore s hs) (by omega) hs.free
    rw [hnext]
    exact ih (by omega) (by omega) hbefore' (hbefore' s0 hs0)

theorem scanRing_stops (hsize : stop < size) {f : ℕ} (hstops : StopsScan free size stop n f)
    (hnone : ∀ s, RunIn free start stop n s → stop ≤ s + n) (hfuel : stop ≤ a + fuel) (ha : start ≤ a)
    (haf : a ≤ f + 1) : scanRing free size stop n (fuel + 1) a = .ok none := by
  obtain ⟨hf, hstop⟩ := hstops
  induction fuel generalizing a with
  | zero => rw [scanRing, if_neg (by omega)]
  | succ fuel ih =>
    by_cases hbelow : a < stop
    · rcases scanRing_cases free size n (fuel + 1) hbelow with
        ⟨-, hend⟩ | ⟨hcheck, hrun, -⟩ | ⟨hcheck, r, hr, -, hfree, hnext⟩
      · exact hend
      · -- a run that was found ends before `stop`, or goes through the position that is not free
        by_cases hin : a + n < stop
        · refine absurd (hnone a ⟨ha, hin.le, fun i hi => ?_⟩) (by omega)
          rw [← Nat.mod_eq_of_lt (show a + i < size by omega)]
          exact hrun i hi
        have hwrap : size ≤ a + n := by
          by_contra hc
          rw [Nat.mod_eq_of_lt (by omega)] at hcheck
          omega
        have hat := hrun (f - a) (by omega)
        rw [Nat.add_sub_of_le (by omega), Nat.mod_eq_of_lt (by omega), hf] at hat
        cases hat
      have haf' : a ≤ f := by
        by_contra hc
        rw [Nat.mod_eq_of_lt (by omega)] at hcheck
        omega
      have hle : a + r ≤ f := by
        by_contra hc
        have hat := hfree (f - a) (by omega)
        rw [Nat.add_sub_of_le haf', Nat.mod_eq_of_lt (by omega), hf] at hat
        cases hat
      rw [Nat.mod_eq_of_lt (by omega)] at hnext
      rw [hnext]
      exact ih (by omega) (by omega) (by omega)
    · rw [scanRing, if_neg hbelow]

theorem scanRing_ne_none (hsize : stop < size) (hn : n < stop) (hstops : ∀ f < size, ¬StopsScan free size stop n f)
    (ha : a + n < stop ∨ ∃ f < size, free f = false ∧ a = (f + 1) % size) :
    scanRing free size stop n fuel a ≠ .ok none := by
  induction fuel generalizing a with
  | zero => exact fun hc => by cases hc
  | succ fuel ih =>
    have hgo : a < stop ∧ (a + n) % size < stop := by
      rcases ha with hin | ⟨f, hlt, hf, rfl⟩
      · rw [Nat.mod_eq_of_lt (by omega)]
        exact ⟨by omega, hin⟩
      have hnot := hstops f hlt
      rw [StopsScan, not_and, not_or] at hnot
      obtain ⟨h1, h2⟩ := hnot hf
      by_cases hlast : f + 1 = size
      · rw [hlast, Nat.mod_self, zero_add, Nat.mod_eq_of_lt (by omega)]
        omega
      rw [Nat.mod_eq_of_lt (by omega)]
      refine ⟨by omega, ?_⟩
      by_cases hwrap : f + 1 + n < size
      · rw [Nat.mod_eq_of_lt hwrap]
        omega
      rw [Nat.mod_eq_sub_mod (by omega), Nat.mod_eq_of_lt (by omega)]
      omega
    rcases scanRing_cases free size n fuel hgo.1 with
      ⟨hcheck, -⟩ | ⟨-, -, hfound⟩ | ⟨-, r, hr, hnot, -, hnext⟩
    · omega
    · rw [hfound]
      exact fun hc => by cases hc
    rw [hnext]
    refine ih (.inr ⟨(a + r) % size, Nat.mod_lt _ (by omega), hnot, ?_⟩)
    rw [Nat.mod_add_mod]

/-- **Without a run before `stop`, the scan ends exactly if the first probe reaches `stop`, or a position stops it.** -/
theorem scanRing_none_iff (hsize : stop < size) (hn : 0 < n) (hroom : start + n ≤ stop) (hfuel : size ≤ fuel)
    (hnone : ∀ s, RunIn free start stop n s → stop ≤ s + n) : scanRing free size stop n (fuel + 1) start = .ok none ↔
      start + n = stop ∨ ∃ f < size, StopsScan free size stop n f := by
  constructor
  · intro hend
    by_contra hc
    rw [not_or] at hc
    refine scanRing_ne_none hsize (by omega) (fun f hf hs => hc.2 ⟨f, hf, hs⟩) (.inl (by omega)) hend
  rintro (hfirst | ⟨f, -, hs⟩)
  · rw [scanRing, if_pos (by omega), if_pos]
    rw [Nat.mod_eq_of_lt (by omega)]
    omega
  refine scanRing_stops hsize hs hnone (by omega) le_rfl ?_
  have := hs.2
  omega

end Scan

end Machine
