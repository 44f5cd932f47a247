import Mathlib.Tactic.Common

/-!
# Runs of a step function

A run applies a step function to a list of inputs, one after the other. `states` are the states it
goes through and `transitions` the pairs of a state and the input taken in it.

* **`forall_states_iff`** — where one step keeps the property exactly when the step is good, a run
  keeps it throughout exactly when all its steps are good.
* **`forall_okStates_iff`** — the same for steps that may fail: a run ends with a step that does.
-/

namespace LibFep.Lib

variable {σ α : Type*}

/-- The states a run goes through, the first one included. -/
def states (step : σ → α → σ) : σ → List α → List σ
  | s, [] => [s]
  | s, a :: as => s :: states step (step s a) as

/-- The steps a run takes: each input with the state it is taken in. -/
def transitions (step : σ → α → σ) : σ → List α → List (σ × α)
  | _, [] => []
  | s, a :: as => (s, a) :: transitions step (step s a) as

theorem mem_states_self (step : σ → α → σ) (s : σ) (as : List α) : s ∈ states step s as := by
  cases as <;> simp [states]

/-- The final state of a run is one of its states. -/
theorem foldl_mem_states (step : σ → α → σ) (s : σ) (as : List α) :
    as.foldl step s ∈ states step s as := by
  induction as generalizing s with
  | nil => simp [states]
  | cons a as ih => exact List.mem_cons_of_mem _ (ih (step s a))

/-- **A run keeps the property exactly when all its steps are good.** Induction on the inputs: as
long as the property has held, the next step keeps it exactly when it is good. -/
theorem forall_states_iff {step : σ → α → σ} {Inv : σ → Prop} {Valid Good : σ → α → Prop}
    (hstep : ∀ s a, Inv s → Valid s a → (Inv (step s a) ↔ Good s a)) {s : σ} (hs : Inv s)
    {as : List α} (hvalid : ∀ x ∈ transitions step s as, Valid x.1 x.2) :
    (∀ t ∈ states step s as, Inv t) ↔ ∀ x ∈ transitions step s as, Good x.1 x.2 := by
  induction as generalizing s with
  | nil => simpa [states, transitions] using hs
  | cons a as ih =>
    have hiff := hstep s a hs (hvalid (s, a) (by simp [transitions]))
    have hvalid' : ∀ x ∈ transitions step (step s a) as, Valid x.1 x.2 :=
      fun x hx => hvalid x (List.mem_cons_of_mem _ hx)
    simp only [states, transitions, List.forall_mem_cons]
    constructor
    · rintro ⟨-, hrest⟩
      -- the next state is one of those that the run goes through
      have hnext : Inv (step s a) := hrest _ (mem_states_self step _ as)
      exact ⟨hiff.mp hnext, (ih hnext hvalid').mp hrest⟩
    · rintro ⟨hgood, hrest⟩
      have hnext : Inv (step s a) := hiff.mpr hgood
      exact ⟨hs, (ih hnext hvalid').mpr hrest⟩

/-! ## Steps that may fail -/

variable {ε : Type*}

/-- The states a run goes through until a step fails, the first one included. -/
def okStates (step : σ → α → Except ε σ) : σ → List α → List σ
  | s, [] => [s]
  | s, a :: as =>
    s :: match step s a with
      | .ok s' => okStates step s' as
      | .error _ => []

/-- The steps a run takes until one fails: the state before, the input and the state after. -/
def okSteps (step : σ → α → Except ε σ) : σ → List α → List (σ × α × σ)
  | _, [] => []
  | s, a :: as =>
    match step s a with
    | .ok s' => (s, a, s') :: okSteps step s' as
    | .error _ => []

theorem mem_okStates_self (step : σ → α → Except ε σ) (s : σ) (as : List α) :
    s ∈ okStates step s as := by
  cases as <;> simp [okStates]

theorem step_of_mem_okSteps {step : σ → α → Except ε σ} {s : σ} {as : List α} {x : σ × α × σ}
    (hx : x ∈ okSteps step s as) : step x.1 x.2.1 = .ok x.2.2 := by
  induction as generalizing s with
  | nil => exact absurd hx List.not_mem_nil
  | cons a as ih =>
    rw [okSteps] at hx
    split at hx
    · next s' hstep =>
      rcases List.mem_cons.mp hx with rfl | hx
      · exact hstep
      · exact ih hx
    · exact absurd hx List.not_mem_nil

/-- A run that comes to its end has taken a step for each input. -/
theorem map_okSteps {step : σ → α → Except ε σ} {s t : σ} {as : List α}
    (h : as.foldlM step s = .ok t) : (okSteps step s as).map (·.2.1) = as := by
  induction as generalizing s with
  | nil => rfl
  | cons a as ih =>
    rw [List.foldlM_cons] at h
    cases hok : step s a with
    | error e =>
      rw [hok] at h
      exact absurd (show Except.error e = Except.ok t from h) (by simp)
    | ok s' =>
      rw [hok] at h
      rw [okSteps, hok, List.map_cons, ih h]

/-- A run comes to its end, in a good state, if from each good state every step leads to one. -/
theorem exists_foldlM_ok {step : σ → α → Except ε σ} {P : σ → Prop} {as : List α}
    (hstep : ∀ s, P s → ∀ a ∈ as, ∃ s', step s a = .ok s' ∧ P s') {s : σ} (hs : P s) :
    ∃ t, as.foldlM step s = .ok t ∧ P t := by
  induction as generalizing s with
  | nil => exact ⟨s, rfl, hs⟩
  | cons a as ih =>
    obtain ⟨s', hok, hs'⟩ := hstep s hs a List.mem_cons_self
    obtain ⟨t, hrun, ht⟩ := ih (fun s hs a ha => hstep s hs a (List.mem_cons_of_mem _ ha)) hs'
    refine ⟨t, ?_, ht⟩
    rw [List.foldlM_cons, hok]
    exact hrun

/-- What every step of a run keeps holds in the states that its steps are taken in. -/
theorem inv_of_mem_okSteps {step : σ → α → Except ε σ} {Inv : σ → Prop} {as : List α}
    (hstep : ∀ s, ∀ a ∈ as, ∀ s', Inv s → step s a = .ok s' → Inv s') {s : σ} (hs : Inv s) :
    ∀ x ∈ okSteps step s as, x.2.1 ∈ as ∧ Inv x.1 := by
  induction as generalizing s with
  | nil => exact fun x hx => absurd hx List.not_mem_nil
  | cons a as ih =>
    rw [okSteps]
    cases hok : step s a with
    | error e => exact fun x hx => absurd hx List.not_mem_nil
    | ok s' =>
      have hs' : Inv s' := hstep s a List.mem_cons_self s' hs hok
      have hrest := ih (fun s b hb => hstep s b (List.mem_cons_of_mem _ hb)) hs'
      refine List.forall_mem_cons.mpr ⟨⟨List.mem_cons_self, hs⟩, fun x hx => ?_⟩
      exact ⟨List.mem_cons_of_mem _ (hrest x hx).1, (hrest x hx).2⟩

/-- **A run whose steps may fail keeps the property exactly when all its steps are good.** -/
theorem forall_okStates_iff {step : σ → α → Except ε σ} {Inv : σ → Prop} {Good : σ → α → Prop}
    (hstep : ∀ s a s', Inv s → step s a = .ok s' → (Inv s' ↔ Good s a)) {s : σ} (hs : Inv s)
    {as : List α} :
    (∀ t ∈ okStates step s as, Inv t) ↔ ∀ x ∈ okSteps step s as, Good x.1 x.2.1 := by
  induction as generalizing s with
  | nil => simpa [okStates, okSteps] using hs
  | cons a as ih =>
    rw [okStates, okSteps]
    cases hok : step s a with
    | error e => simpa using hs
    | ok s' =>
      have hiff := hstep s a s' hs hok
      simp only [List.forall_mem_cons]
      constructor
      · rintro ⟨-, hrest⟩
        have hnext : Inv s' := hrest _ (mem_okStates_self step s' as)
        exact ⟨hiff.mp hnext, (ih hnext).mp hrest⟩
      · rintro ⟨hgood, hrest⟩
        have hnext : Inv s' := hiff.mpr hgood
        exact ⟨hs, (ih hnext).mpr hrest⟩

/-- The states of a run are the first one and those that its steps lead to. -/
theorem forall_okStates_iff_steps {step : σ → α → Except ε σ} {Inv : σ → Prop} {s : σ}
    {as : List α} :
    (∀ t ∈ okStates step s as, Inv t) ↔ Inv s ∧ ∀ x ∈ okSteps step s as, Inv x.2.2 := by
  induction as generalizing s with
  | nil => simp [okStates, okSteps]
  | cons a as ih =>
    rw [okStates, okSteps, List.forall_mem_cons]
    cases hok : step s a with
    | error e => simp
    | ok s' =>
      simp only [List.forall_mem_cons]
      rw [ih]

end LibFep.Lib
