import Mathlib.Data.List.Basic

/-!
# Runs of a system whose steps can fail

* `ends_run`: an invariant of the steps holds after a run, or a fault that it allows stops it.
* `inv_run_total`: no step fails.
* `inv_of_run`: a run that returns.
-/

namespace Machine

variable {S O E : Type} {step : S → O → Except E S} {P : S → O → Prop} {I : S → Prop}

/-! ## Runs -/

/-- A run stops at the first step that fails. -/
def runSteps (step : S → O → Except E S) (s : S) : List O → Except E S
  | [] => .ok s
  | op :: ops =>
    match step s op with
    | .ok s' => runSteps step s' ops
    | .error e => .error e

theorem runSteps_append (s : S) (ops ops' : List O) :
    runSteps step s (ops ++ ops') = runSteps step s ops >>= fun s' => runSteps step s' ops' := by
  induction ops generalizing s with
  | nil => rfl
  | cons op ops ih =>
    rw [List.cons_append, runSteps, runSteps]
    cases step s op with
    | error e => rfl
    | ok s' => exact ih s'

/-- Every step that the run takes satisfies `P`. -/
def Along (step : S → O → Except E S) (P : S → O → Prop) (s : S) : List O → Prop
  | [] => True
  | op :: ops => P s op ∧
      match step s op with
      | .ok s' => Along step P s' ops
      | .error _ => True

instance decidableAlong (step : S → O → Except E S) (P : S → O → Prop)
    [∀ s op, Decidable (P s op)] : (s : S) → (ops : List O) → Decidable (Along step P s ops)
  | _, [] => inferInstanceAs (Decidable True)
  | s, op :: ops =>
    match h : step s op with
    | .ok s' =>
      have := decidableAlong step P s' ops
      decidable_of_iff (P s op ∧ Along step P s' ops) (by rw [Along, h])
    | .error _ => decidable_of_iff (P s op) (by rw [Along, h]; simp)

variable {s : S} {ops : List O}

theorem along_of_forall {R : O → Prop} (h : ∀ op ∈ ops, R op) : Along step (fun _ op => R op) s ops := by
  induction ops generalizing s with
  | nil => trivial
  | cons op ops ih =>
    refine ⟨h op List.mem_cons_self, ?_⟩
    cases step s op with
    | error e => trivial
    | ok s' => exact ih fun op' hop' => h op' (List.mem_cons_of_mem op hop')

variable {A B : Type} {x : Except E A} {f : A → Except E B} {b : B}

/-! ## Results -/

theorem bind_eq_ok (h : (x >>= f) = .ok b) : ∃ a, x = .ok a ∧ f a = .ok b := by
  cases x with
  | error e => cases h
  | ok a => exact ⟨a, rfl, h⟩

variable {a : A}

theorem bind_of_ok (hx : x = .ok a) (hf : f a = .ok b) : (x >>= f) = .ok b := by
  rw [hx]
  exact hf

theorem toOption_eq_some : x.toOption = some a ↔ x = .ok a := by
  cases x with
  | error e => exact iff_of_false (Option.some_ne_none a).symm nofun
  | ok b => exact ⟨fun h => congrArg Except.ok (Option.some.inj h), fun h => congrArg some (Except.ok.inj h)⟩

theorem exists_ok_of_map {f : A → B} (h : x.toOption.map f = some b) : ∃ a, x = .ok a ∧ f a = b := by
  obtain ⟨a, ha, hf⟩ := Option.map_eq_some_iff.1 h
  exact ⟨a, toOption_eq_some.1 ha, hf⟩

def Succeeds {A : Type} (x : Except E A) : Prop := ∃ a, x = .ok a

theorem succeeds_ok (a : A) : Succeeds (.ok a : Except E A) := ⟨a, rfl⟩

theorem not_succeeds_error (e : E) : ¬Succeeds (.error e : Except E A) := by
  rintro ⟨a, ha⟩
  cases ha

theorem succeeds_bind : Succeeds (x >>= f) ↔ Succeeds x ∧ ∀ a, x = .ok a → Succeeds (f a) := by
  constructor
  · rintro ⟨b, hb⟩
    obtain ⟨a, ha, hf⟩ := bind_eq_ok hb
    refine ⟨⟨a, ha⟩, fun a' ha' => ?_⟩
    cases ha.symm.trans ha'
    exact ⟨b, hf⟩
  · rintro ⟨⟨a, ha⟩, hf⟩
    obtain ⟨b, hb⟩ := hf a ha
    exact ⟨b, bind_of_ok ha hb⟩

theorem succeeds_map {f : A → B} : Succeeds (x.map f) ↔ Succeeds x := by
  cases x with
  | error e => exact iff_of_false (not_succeeds_error e) (not_succeeds_error e)
  | ok a => exact iff_of_true (succeeds_ok (f a)) (succeeds_ok a)

/-! ## Invariants -/

/-- The result satisfies `P`, or the fault satisfies `Q`. -/
def Ends {A : Type} (P : A → Prop) (Q : E → Prop) : Except E A → Prop
  | .ok a => P a
  | .error e => Q e

variable {Q : E → Prop}

theorem Ends.imp {P P' : A → Prop} {Q' : E → Prop} (h : Ends P Q x) (hp : ∀ a, P a → P' a) (hq : ∀ e, Q e → Q' e) :
    Ends P' Q' x := by
  cases x with
  | ok a => exact hp a h
  | error e => exact hq e h

theorem Ends.bind {P : A → Prop} {P' : B → Prop} (hx : Ends P Q x) (hf : ∀ a, x = .ok a → P a → Ends P' Q (f a)) :
    Ends P' Q (x >>= f) := by
  cases x with
  | ok a => exact hf a rfl hx
  | error e => exact hx

theorem ends_run (hstep : ∀ s op, I s → P s op → Ends I Q (step s op)) (hi : I s) (hp : Along step P s ops) :
    Ends I Q (runSteps step s ops) := by
  induction ops generalizing s with
  | nil => exact hi
  | cons op ops ih =>
    rw [Along] at hp
    rw [runSteps]
    have hs := hstep s op hi hp.1
    cases h : step s op with
    | error e =>
      rw [h] at hs
      exact hs
    | ok t =>
      rw [h] at hs hp
      exact ih hs hp.2

theorem inv_run_total (hstep : ∀ s op, I s → P s op → ∃ s', step s op = .ok s' ∧ I s') (hi : I s)
    (hp : Along step P s ops) : ∃ s', runSteps step s ops = .ok s' ∧ I s' := by
  have hends : Ends I (fun _ => False) (runSteps step s ops) := ends_run (fun s op hs hop => by
    obtain ⟨s', hs', hi'⟩ := hstep s op hs hop
    rw [hs']
    exact hi') hi hp
  cases h : runSteps step s ops with
  | error e =>
    rw [h] at hends
    exact hends.elim
  | ok s' =>
    rw [h] at hends
    exact ⟨s', rfl, hends⟩

theorem inv_run (hstep : ∀ s op, I s → ∃ s', step s op = .ok s' ∧ I s') (hi : I s) (ops : List O) :
    ∃ s', runSteps step s ops = .ok s' ∧ I s' := by
  induction ops generalizing s with
  | nil => exact ⟨s, rfl, hi⟩
  | cons op ops ih =>
    obtain ⟨t, ht, hit⟩ := hstep s op hi
    rw [runSteps, ht]
    exact ih hit

theorem inv_of_run (hstep : ∀ s op s', I s → step s op = .ok s' → I s') {s' : S} (hi : I s)
    (hrun : runSteps step s ops = .ok s') : I s' := by
  induction ops generalizing s with
  | nil =>
    cases hrun
    exact hi
  | cons op ops ih =>
    rw [runSteps] at hrun
    cases h : step s op with
    | error e =>
      rw [h] at hrun
      cases hrun
    | ok t =>
      rw [h] at hrun
      exact ih (hstep s op t hi h) hrun

end Machine
