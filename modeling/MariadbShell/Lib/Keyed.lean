import Mathlib

/-!
# Values under keys

A map as the list of its entries in the order of their keys.
-/

namespace MariadbShell.Lib.Keyed

open List

variable {Key Value : Type} [DecidableEq Key]

def get (key : Key) : List (Key × Value) → Option Value
  | [] => none
  | (other, value) :: rest => if key = other then some value else get key rest

theorem mem_of_get {entries : List (Key × Value)} {key : Key} {value : Value}
    (found : get key entries = some value) : (key, value) ∈ entries := by
  induction entries with
  | nil => cases found
  | cons entry rest ih =>
    rw [get] at found
    split at found
    · next here =>
      cases found
      rw [here]
      exact mem_cons_self
    · exact mem_cons_of_mem _ (ih found)

variable [LT Key]

/-- The keys stand in their order. -/
def Ascending (entries : List (Key × Value)) : Prop :=
  entries.Pairwise fun left right => left.1 < right.1

variable {entries : List (Key × Value)} {key : Key} {value : Value}

theorem Ascending.get_of_mem [@Std.Irrefl Key (· < ·)] (ascending : Ascending entries)
    (member : (key, value) ∈ entries) : get key entries = some value := by
  induction entries with
  | nil => cases member
  | cons entry rest ih =>
    obtain ⟨above, others⟩ := pairwise_cons.mp ascending
    rw [get]
    rcases mem_cons.mp member with rfl | later
    · exact if_pos rfl
    · have other : key ≠ entry.1 := by
        rintro rfl
        exact Std.Irrefl.irrefl _ (above (entry.1, value) later)
      rw [if_neg other, ih others later]

variable [DecidableLT Key]

instance (entries : List (Key × Value)) : Decidable (Ascending entries) :=
  inferInstanceAs (Decidable (entries.Pairwise _))

/-- Set the value under a key; a new entry stands in front of the greater ones. -/
def put (key : Key) (value : Value) : List (Key × Value) → List (Key × Value)
  | [] => [(key, value)]
  | (other, old) :: rest =>
    if key = other then (key, value) :: rest
    else if key < other then (key, value) :: (other, old) :: rest
    else (other, old) :: put key value rest

def alter (key : Key) (change : Option Value → Value) (entries : List (Key × Value)) :
    List (Key × Value) :=
  put key (change (get key entries)) entries

theorem get_put (key other : Key) (value : Value) (entries : List (Key × Value)) :
    get other (put key value entries) = if other = key then some value else get other entries := by
  induction entries with
  | nil => rfl
  | cons entry rest ih =>
    obtain ⟨first, old⟩ := entry
    rw [put]
    split
    · next here =>
      subst here
      rw [get, get]
      split <;> rfl
    · next here =>
      split
      · rw [get]
      · rw [get, get, ih]
        by_cases same : other = key
        · rw [if_neg (same ▸ here), if_pos same, if_pos same]
        · rw [if_neg same, if_neg same]

theorem get_alter (key other : Key) (change : Option Value → Value) (entries : List (Key × Value)) :
    get other (alter key change entries) =
      if other = key then some (change (get key entries)) else get other entries :=
  get_put key other _ entries

theorem mem_put {entry : Key × Value} (member : entry ∈ put key value entries) :
    entry.1 = key ∨ entry ∈ entries := by
  induction entries with
  | nil => exact .inl (congrArg Prod.fst (mem_singleton.mp member))
  | cons first rest ih =>
    rw [put] at member
    split at member
    · exact (mem_cons.mp member).imp (congrArg Prod.fst) (mem_cons_of_mem _)
    · split at member
      · exact (mem_cons.mp member).imp_left (congrArg Prod.fst)
      · rcases mem_cons.mp member with same | later
        · exact .inr (mem_cons.mpr (.inl same))
        · exact (ih later).imp_right (mem_cons_of_mem _)

theorem Ascending.put [IsTrans Key (· < ·)] [@Std.Trichotomous Key (· < ·)]
    (ascending : Ascending entries) : Ascending (Keyed.put key value entries) := by
  induction entries with
  | nil => exact pairwise_singleton _ _
  | cons first rest ih =>
    obtain ⟨above, others⟩ := pairwise_cons.mp ascending
    rw [Keyed.put]
    split
    · next same => exact pairwise_cons.mpr ⟨same ▸ above, others⟩
    · next other =>
      split
      · next below =>
        refine pairwise_cons.mpr ⟨forall_mem_cons.mpr ⟨below, fun entry member => ?_⟩, ascending⟩
        exact IsTrans.trans _ _ _ below (above entry member)
      · next notBelow =>
        refine pairwise_cons.mpr ⟨fun entry member => ?_, ih others⟩
        rcases mem_put member with same | inside
        · rw [same]
          by_contra notAbove
          exact other (Std.Trichotomous.trichotomous _ _ notBelow notAbove)
        · exact above entry inside

theorem Ascending.alter [IsTrans Key (· < ·)] [@Std.Trichotomous Key (· < ·)]
    (ascending : Ascending entries) (change : Option Value → Value) :
    Ascending (Keyed.alter key change entries) :=
  ascending.put

/-- A key above all others comes last. -/
theorem put_of_above [@Std.Asymm Key (· < ·)] (above : ∀ entry ∈ entries, entry.1 < key) :
    Keyed.put key value entries = entries ++ [(key, value)] := by
  induction entries with
  | nil => rfl
  | cons entry rest ih =>
    obtain ⟨first, others⟩ := forall_mem_cons.mp above
    have notBelow := Std.Asymm.asymm _ _ first
    have other : key ≠ entry.1 := by
      rintro rfl
      exact notBelow first
    rw [Keyed.put, if_neg other, if_neg notBelow, ih others, cons_append]

end MariadbShell.Lib.Keyed
