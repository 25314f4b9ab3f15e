import Mathlib

/-!
# Runs of a machine

A machine takes steps on events; an event that is not possible in a state has no
successor. A property that every step meeting a condition preserves holds after every
run whose steps all meet that condition.
-/

namespace MariadbShell.Lib.Machine

variable {State Event : Type}

/-- The state after a sequence of events. -/
def run (step : State → Event → Option State) : State → List Event → Option State
  | state, [] => some state
  | state, event :: events =>
    match step state event with
    | none => none
    | some next => run step next events

/-- Every step of the run meets the condition. -/
def Meets (step : State → Event → Option State) (condition : State → Event → Prop) :
    State → List Event → Prop
  | _, [] => True
  | state, event :: events =>
    condition state event ∧
      match step state event with
      | none => True
      | some next => Meets step condition next events

instance Meets.decidable (step : State → Event → Option State)
    (condition : State → Event → Prop) [∀ state event, Decidable (condition state event)] :
    ∀ state events, Decidable (Meets step condition state events)
  | _, [] => inferInstanceAs (Decidable True)
  | state, event :: events =>
    match taken : step state event with
    | none => decidable_of_iff (condition state event) (by simp [Meets, taken])
    | some next =>
      have := Meets.decidable step condition next events
      decidable_of_iff (condition state event ∧ Meets step condition next events)
        (by simp [Meets, taken])

variable {condition : State → Event → Prop} {step : State → Event → Option State}

theorem meets_of_forall (holds : ∀ state event, condition state event) (state : State)
    (events : List Event) :
    Meets step condition state events := by
  induction events generalizing state with
  | nil => trivial
  | cons event events ih =>
    refine ⟨holds state event, ?_⟩
    cases step state event with
    | none => trivial
    | some next => exact ih next

theorem Meets.append {state middle : State} {first second : List Event}
    (before : Meets step condition state first) (ran : run step state first = some middle)
    (after : Meets step condition middle second) :
    Meets step condition state (first ++ second) := by
  induction first generalizing state with
  | nil =>
    cases ran
    exact after
  | cons event first ih =>
    obtain ⟨here, later⟩ := before
    refine ⟨here, ?_⟩
    unfold run at ran
    cases taken : step state event with
    | none => trivial
    | some next =>
      simp only [taken] at later ran
      exact ih later ran

theorem run_invariant {step : State → Event → Option State} {condition : State → Event → Prop}
    {invariant : State → Prop}
    (preserved : ∀ state event next, invariant state → condition state event →
      step state event = some next → invariant next)
    {events : List Event} {state final : State} (initial : invariant state)
    (meets : Meets step condition state events) (result : run step state events = some final) :
    invariant final := by
  induction events generalizing state with
  | nil =>
    cases Option.some.inj result
    exact initial
  | cons event events ih =>
    obtain ⟨here, later⟩ := meets
    unfold run at result
    cases taken : step state event with
    | none => simp [taken] at result
    | some next =>
      simp only [taken] at later result
      exact ih (preserved state event next initial here taken) later result

/-- A property that every step preserves holds after every run. -/
theorem run_preserves (invariant : State → Prop)
    (preserved : ∀ {state event next}, invariant state → step state event = some next →
      invariant next)
    {events : List Event} {state final : State} (initial : invariant state)
    (result : run step state events = some final) : invariant final :=
  run_invariant (fun _ _ _ holds _ taken => preserved holds taken) initial
    (meets_of_forall (fun _ _ => True.intro) _ _) result

/-- A measure that every step makes smaller bounds the length of the runs. -/
theorem run_length_le {invariant : State → Prop} {measure : State → Nat}
    (preserved : ∀ state event next, invariant state → condition state event →
      step state event = some next → invariant next)
    (decreases : ∀ state event next, invariant state → condition state event →
      step state event = some next → measure next < measure state) {events : List Event}
    {state final : State} (initial : invariant state) (meets : Meets step condition state events)
    (result : run step state events = some final) :
    events.length ≤ measure state := by
  induction events generalizing state with
  | nil => exact Nat.zero_le _
  | cons event events ih =>
    obtain ⟨here, later⟩ := meets
    unfold run at result
    cases taken : step state event with
    | none => simp [taken] at result
    | some next =>
      simp only [taken] at later result
      have bound := ih (preserved state event next initial here taken) later result
      have smaller := decreases state event next initial here taken
      rw [List.length_cons]
      omega

end MariadbShell.Lib.Machine
