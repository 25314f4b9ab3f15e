import Mathlib

/-!
# Computations that may fail

A computation reads and changes a state and ends with a value or with an error. An error does
not roll the state back, and a handler goes on from there. Statements are pre- and
postconditions, with a second postcondition for errors.
-/

namespace MariadbShell.Lib

/-- A computation on a state, which is kept when an error is raised. -/
def Attempt (State Error Value : Type) : Type :=
  State → Except Error Value × State

namespace Attempt

variable {State Error Value Result : Type}

protected def pure (value : Value) : Attempt State Error Value :=
  fun state => (.ok value, state)

protected def bind (first : Attempt State Error Value) (next : Value → Attempt State Error Result) :
    Attempt State Error Result :=
  fun state =>
    match first state with
    | (.ok value, state) => next value state
    | (.error error, state) => (.error error, state)

instance : Monad (Attempt State Error) where
  pure := Attempt.pure
  bind := Attempt.bind

def raise (error : Error) : Attempt State Error Value :=
  fun state => (.error error, state)

/-- Go on with a handler if an error is raised. -/
def handle (first : Attempt State Error Value) (handler : Error → Attempt State Error Value) :
    Attempt State Error Value :=
  fun state =>
    match first state with
    | (.ok value, state) => (.ok value, state)
    | (.error error, state) => handler error state

def modify (change : State → State) : Attempt State Error Unit :=
  fun state => (.ok (), change state)

def get : Attempt State Error State :=
  fun state => (.ok state, state)

def lift (result : Except Error Value) : Attempt State Error Value :=
  fun state => (result, state)

theorem bind_ok {first : Attempt State Error Value} {next : Value → Attempt State Error Result}
    {state later : State} {value : Value} (ran : first state = (.ok value, later)) :
    (first >>= next) state = next value later := by
  change Attempt.bind first next state = _
  rw [Attempt.bind, ran]

/-! ## Pre- and postconditions -/

/-- From a state with `pre`, a value comes with `post` and an error with `fails`. -/
def Triple (pre : State → Prop) (action : Attempt State Error Value)
    (post : Value → State → Prop) (fails : Error → State → Prop) : Prop :=
  ∀ state, pre state →
    match action state with
    | (.ok value, state) => post value state
    | (.error error, state) => fails error state

namespace Triple

variable {pre : State → Prop} {post : Value → State → Prop}
  {fails raised : Error → State → Prop} {result : Result → State → Prop}

theorem value {value : Value} (holds : ∀ state, pre state → post value state) :
    Triple pre (pure value) post fails :=
  holds

theorem raise {error : Error} (holds : ∀ state, pre state → fails error state) :
    Triple pre (Attempt.raise error : Attempt State Error Value) post fails :=
  holds

theorem modify {change : State → State} {post : Unit → State → Prop}
    (holds : ∀ state, pre state → post () (change state)) :
    Triple pre (Attempt.modify change : Attempt State Error Unit) post fails :=
  holds

variable {next : Value → Attempt State Error Result} {first : Attempt State Error Value}

theorem bind (before : Triple pre first post fails)
    (after : ∀ value, Triple (post value) (next value) result fails) :
    Triple pre (first >>= next) result fails := by
  intro state holds
  have begun := before state holds
  change match Attempt.bind first next state with
    | (.ok value, state) => result value state
    | (.error error, state) => fails error state
  unfold Attempt.bind
  cases ran : first state with
  | mk outcome later =>
    rw [ran] at begun
    cases outcome with
    | ok value => exact after value later begun
    | error error => exact begun

theorem lift_bind {known : Except Error Value}
    (ok : ∀ value, known = .ok value → Triple pre (next value) result fails)
    (error : ∀ error, known = .error error → ∀ state, pre state → fails error state) :
    Triple pre (Attempt.lift known >>= next) result fails := by
  cases known with
  | ok value => exact ok value rfl
  | error raised => exact error raised rfl

theorem modify_bind {change : State → State} {next : Unit → Attempt State Error Result}
    (stable : ∀ state, pre state → pre (change state))
    (rest : Triple pre (next ()) result fails) :
    Triple pre (Attempt.modify change >>= next) result fails :=
  fun state holds => rest (change state) (stable state holds)

theorem get_bind {next : State → Attempt State Error Result}
    (rest : ∀ seen, pre seen → Triple (fun state => state = seen ∧ pre state) (next seen)
      result fails) :
    Triple pre (Attempt.get >>= next) result fails :=
  fun state holds => rest state holds state ⟨rfl, holds⟩

theorem handle {handler : Error → Attempt State Error Value} (before : Triple pre first post raised)
    (after : ∀ error, Triple (raised error) (handler error) post fails) :
    Triple pre (first.handle handler) post fails := by
  intro state holds
  have begun := before state holds
  unfold Attempt.handle
  cases ran : first state with
  | mk outcome later =>
    rw [ran] at begun
    cases outcome with
    | ok value => exact begun
    | error error => exact after error later begun

variable {action : Attempt State Error Value}

/-- A fact that the precondition has besides the state. -/
theorem given {fact : Prop} (triple : fact → Triple pre action post fails) :
    Triple (fun state => pre state ∧ fact) action post fails :=
  fun state both => triple both.2 state both.1

/-- A computation without errors returns a value. -/
theorem returns (triple : Triple pre action post fun _ _ => False) {state : State}
    (holds : pre state) :
    ∃ value later, action state = (.ok value, later) ∧ post value later := by
  have ran := triple state holds
  cases outcome : action state with
  | mk result later =>
    rw [outcome] at ran
    cases result with
    | ok value => exact ⟨value, later, rfl, ran⟩
    | error raised => exact ran.elim

theorem weaken {stronger : State → Prop} {other : Value → State → Prop}
    {others : Error → State → Prop} (triple : Triple pre action post fails)
    (before : ∀ state, stronger state → pre state)
    (ok : ∀ value state, post value state → other value state)
    (error : ∀ error state, fails error state → others error state) :
    Triple stronger action other others := by
  intro state holds
  have ran := triple state (before state holds)
  cases outcome : action state with
  | mk result later =>
    rw [outcome] at ran
    cases result with
    | ok value => exact ok value later ran
    | error raised => exact error raised later ran

end Triple

end Attempt

end MariadbShell.Lib
