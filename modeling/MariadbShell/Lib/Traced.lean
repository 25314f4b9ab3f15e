import Mathlib

/-!
# Computations with a trace

A computation leaves events on the way to its value. What holds of all events of a
computation is a condition on each of its steps.
-/

namespace MariadbShell.Lib

/-- A value and the events on the way to it. -/
structure Traced (Event Value : Type) where
  value : Value
  events : List Event

namespace Traced

variable {Event Value Result : Type}

instance : Monad (Traced Event) where
  pure value := ⟨value, []⟩
  bind first next := ⟨(next first.value).value, first.events ++ (next first.value).events⟩

def emit (event : Event) : Traced Event Unit :=
  ⟨(), [event]⟩

@[simp] theorem value_pure (value : Value) : (pure value : Traced Event Value).value = value := rfl

@[simp] theorem value_bind (first : Traced Event Value) (next : Value → Traced Event Result) :
    (first >>= next).value = (next first.value).value := rfl

@[simp] theorem value_ite (condition : Prop) [Decidable condition]
    (first second : Traced Event Value) :
    (if condition then first else second).value =
      if condition then first.value else second.value :=
  apply_ite _ _ _ _

/-- Every event of the computation has the property. -/
def All (holds : Event → Prop) (action : Traced Event Value) : Prop :=
  ∀ event ∈ action.events, holds event

variable {holds : Event → Prop}

@[simp] theorem all_pure (value : Value) : All holds (pure value : Traced Event Value) :=
  nofun

@[simp] theorem all_emit (event : Event) : All holds (emit event) ↔ holds event :=
  List.forall_mem_singleton

@[simp] theorem all_bind (first : Traced Event Value) (next : Value → Traced Event Result) :
    All holds (first >>= next) ↔ All holds first ∧ All holds (next first.value) :=
  List.forall_mem_append

end Traced

end MariadbShell.Lib
