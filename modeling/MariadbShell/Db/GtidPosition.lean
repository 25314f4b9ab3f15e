import MariadbShell.Lib.Keyed

/-!
# Positions of replication

`Mariadb_gtid_position`: the last transaction of each domain. Merging two positions gives the
least one that contains both. The number of transactions between two positions is counted
modulo `2^64`, and a domain whose sequence is 0 counts for nothing.
-/

namespace MariadbShell.Db

open List Lib.Keyed

structure GtidEntry where
  serverId : UInt32
  sequence : UInt64
deriving DecidableEq, Repr

/-- The entries of the map, in the order of the domains. -/
structure GtidPosition where
  domains : List (UInt32 × GtidEntry)
  ascending : Ascending domains

namespace GtidPosition

variable (position other : GtidPosition)

def contains : Bool :=
  other.domains.all fun (domain, entry) =>
    match get domain position.domains with
    | none => false
    | some found => ¬ found.sequence < entry.sequence

/-- The sequence of a domain, 0 if the position does not have it. -/
def sequenceOf (base : GtidPosition) (domain : UInt32) : UInt64 :=
  match get domain base.domains with
  | none => 0
  | some found => found.sequence

def transactionsSince (position base : GtidPosition) : UInt64 :=
  position.domains.foldl (fun count (domain, entry) =>
    if entry.sequence > base.sequenceOf domain then
      count + (entry.sequence - base.sequenceOf domain)
    else count) 0

/-- What merging an entry leaves for its domain. -/
def advance (entry : GtidEntry) : Option GtidEntry → GtidEntry
  | none => entry
  | some old => if old.sequence < entry.sequence then entry else old

def merge : GtidPosition where
  domains := other.domains.foldl (fun domains (domain, entry) =>
    alter domain (advance entry) domains) position.domains
  ascending := by
    have kept (entries : List (UInt32 × GtidEntry)) :
        ∀ domains : List (UInt32 × GtidEntry), Ascending domains →
          Ascending (entries.foldl (fun domains (domain, entry) =>
            alter domain (advance entry) domains) domains) := by
      induction entries with
      | nil => exact fun _ ascending => ascending
      | cons entry rest ih => exact fun domains ascending => ih _ (ascending.alter _)
    exact kept _ _ position.ascending

/-! ## The order -/

theorem contains_iff {position other : GtidPosition} :
    position.contains other = true ↔ ∀ domain entry, get domain other.domains = some entry →
      ∃ found, get domain position.domains = some found ∧ entry.sequence ≤ found.sequence := by
  rw [contains, all_eq_true]
  constructor
  · intro all domain entry present
    have here := all _ (mem_of_get present)
    dsimp only at here
    split at here
    · cases here
    · next found same =>
      exact ⟨found, same, UInt64.not_lt.mp (of_decide_eq_true here)⟩
  · rintro all ⟨domain, entry⟩ member
    obtain ⟨found, same, bound⟩ := all domain entry (other.ascending.get_of_mem member)
    simp [same, bound]

theorem contains_refl (position : GtidPosition) : position.contains position = true :=
  contains_iff.mpr fun _ entry present => ⟨entry, present, UInt64.le_refl _⟩

theorem contains_trans {first second third : GtidPosition} (left : first.contains second = true)
    (right : second.contains third = true) : first.contains third = true := by
  refine contains_iff.mpr fun domain entry present => ?_
  obtain ⟨middle, between, lower⟩ := contains_iff.mp right domain entry present
  obtain ⟨found, above, upper⟩ := contains_iff.mp left domain middle between
  exact ⟨found, above, UInt64.le_trans lower upper⟩

theorem sequence_le_advance (entry : GtidEntry) (old : Option GtidEntry) :
    entry.sequence ≤ (advance entry old).sequence ∧
      ∀ found, old = some found → found.sequence ≤ (advance entry old).sequence := by
  cases old with
  | none => exact ⟨UInt64.le_refl _, nofun⟩
  | some old =>
    rw [advance]
    split
    · next below =>
      refine ⟨UInt64.le_refl _, ?_⟩
      rintro _ ⟨⟩
      exact UInt64.le_of_lt below
    · next above =>
      refine ⟨UInt64.not_lt.mp above, ?_⟩
      rintro _ ⟨⟩
      exact UInt64.le_refl _

/-- The entry of a domain after the entries of another position were merged one by one. -/
theorem get_merge (domain : UInt32) :
    get domain (position.merge other).domains =
      match get domain other.domains with
      | none => get domain position.domains
      | some entry => some (advance entry (get domain position.domains)) := by
  obtain ⟨entries, ascending⟩ := other
  obtain ⟨domains, start⟩ := position
  simp only [merge]
  induction entries generalizing domains with
  | nil => rfl
  | cons entry rest ih =>
    obtain ⟨above, others⟩ := pairwise_cons.mp ascending
    rw [foldl_cons, ih others _ (start.alter _), get_alter, Lib.Keyed.get]
    by_cases here : domain = entry.1
    · have absent : get domain rest = none := by
        cases found : get domain rest with
        | none => rfl
        | some value => exact absurd (above _ (mem_of_get found)) (here ▸ UInt32.lt_irrefl _)
      rw [absent, if_pos here, if_pos here, here]
    · rw [if_neg here, if_neg here]

theorem merge_contains :
    (position.merge other).contains position = true ∧
      (position.merge other).contains other = true := by
  constructor
  · refine contains_iff.mpr fun domain entry present => ?_
    rw [get_merge, present]
    cases get domain other.domains with
    | none => exact ⟨entry, rfl, UInt64.le_refl _⟩
    | some more => exact ⟨_, rfl, (sequence_le_advance more _).2 entry rfl⟩
  · refine contains_iff.mpr fun domain entry present => ?_
    rw [get_merge, present]
    exact ⟨_, rfl, (sequence_le_advance entry _).1⟩

theorem contains_merge {bound position other : GtidPosition}
    (left : bound.contains position = true) (right : bound.contains other = true) :
    bound.contains (position.merge other) = true := by
  refine contains_iff.mpr fun domain entry present => ?_
  rw [get_merge] at present
  split at present
  · exact contains_iff.mp left domain entry present
  · next more same =>
    cases present
    unfold advance
    split
    · exact contains_iff.mp right domain more same
    · next old mine =>
      split
      · exact contains_iff.mp right domain more same
      · exact contains_iff.mp left domain old mine

/-! ## The number of transactions -/

/-- The number of transactions of the position that are not in the base, as a number. -/
def backlog (position base : GtidPosition) : Nat :=
  (position.domains.map fun (domain, entry) =>
    entry.sequence.toNat - (base.sequenceOf domain).toNat).sum

theorem transactionsSince_eq (position base : GtidPosition) :
    (position.transactionsSince base).toNat = position.backlog base % 2 ^ 64 := by
  have counted (entries : List (UInt32 × GtidEntry)) (count : UInt64) :
      (entries.foldl (fun count (domain, entry) =>
        if entry.sequence > base.sequenceOf domain then
          count + (entry.sequence - base.sequenceOf domain)
        else count) count).toNat =
      (count.toNat + (entries.map fun (domain, entry) =>
        entry.sequence.toNat - (base.sequenceOf domain).toNat).sum) % 2 ^ 64 := by
    induction entries generalizing count with
    | nil => simp [Nat.mod_eq_of_lt count.toNat_lt]
    | cons entry rest ih =>
      rw [foldl_cons, ih, map_cons, sum_cons]
      dsimp only
      split
      · next more =>
        have below := UInt64.le_of_lt more
        rw [UInt64.toNat_add, UInt64.toNat_sub_of_le _ _ below, Nat.mod_add_mod, Nat.add_assoc]
      · next less =>
        have none_ := UInt64.le_iff_toNat_le.mp (UInt64.not_lt.mp less)
        rw [Nat.sub_eq_zero_of_le none_, Nat.zero_add]
  rw [transactionsSince, counted, backlog]
  simp

/-- When a position contains another one, in terms of the transactions it lacks. -/
theorem contains_iff_backlog {position base : GtidPosition} :
    base.contains position = true ↔ position.backlog base = 0 ∧
      ∀ domain entry, (domain, entry) ∈ position.domains → entry.sequence = 0 →
        get domain base.domains ≠ none := by
  have lacking : position.backlog base = 0 ↔ ∀ domain entry, (domain, entry) ∈ position.domains →
      entry.sequence ≤ base.sequenceOf domain := by
    simp only [backlog, sum_eq_zero_iff, mem_map]
    constructor
    · intro all domain entry member
      exact Nat.sub_eq_zero_iff_le.mp (all _ ⟨_, member, rfl⟩)
    · rintro all _ ⟨⟨domain, entry⟩, member, rfl⟩
      exact Nat.sub_eq_zero_of_le (all domain entry member)
  rw [lacking, contains_iff]
  constructor
  · intro all
    refine ⟨fun domain entry member => ?_, fun domain entry member _ missing => ?_⟩
    · obtain ⟨found, same, bound⟩ := all domain entry (position.ascending.get_of_mem member)
      rw [sequenceOf, same]
      exact bound
    · obtain ⟨found, same, -⟩ := all domain entry (position.ascending.get_of_mem member)
      rw [missing] at same
      cases same
  · rintro ⟨below, known⟩ domain entry present
    have member := mem_of_get present
    have bound := below domain entry member
    rw [sequenceOf] at bound
    cases found : get domain base.domains with
    | none =>
      rw [found] at bound
      have zero : entry.sequence = 0 := UInt64.le_zero_iff.mp bound
      exact absurd found (known domain entry member zero)
    | some other =>
      rw [found] at bound
      exact ⟨other, rfl, bound⟩

/--
Positions are ordered, with merging as the least upper bound. No transactions were made since
the base exactly if it contains the position, unless their number is a multiple of `2^64` or a
domain with sequence 0 is not in the base.
-/
theorem merge_least_and_transactionsSince_iff :
    (position.merge other).contains position = true ∧
      (position.merge other).contains other = true ∧
      (∀ bound : GtidPosition, bound.contains position = true → bound.contains other = true →
        bound.contains (position.merge other) = true) ∧
      position.contains position = true ∧
      (∀ third : GtidPosition, position.contains other = true → other.contains third = true →
        position.contains third = true) ∧
      ((position.transactionsSince other = 0 ↔ other.contains position = true) ↔
        (2 ^ 64 ∣ position.backlog other → position.backlog other = 0) ∧
          (position.backlog other = 0 → ∀ domain entry, (domain, entry) ∈ position.domains →
            entry.sequence = 0 → get domain other.domains ≠ none)) := by
  refine ⟨(merge_contains position other).1, (merge_contains position other).2,
    fun _ => contains_merge, contains_refl position, fun _ => contains_trans, ?_⟩
  have zero : position.transactionsSince other = 0 ↔ 2 ^ 64 ∣ position.backlog other := by
    rw [← UInt64.toNat_inj, transactionsSince_eq, Nat.dvd_iff_mod_eq_zero]
    rfl
  rw [zero, contains_iff_backlog]
  constructor
  · intro same
    refine ⟨fun divides => (same.mp divides).1, fun none_ => ?_⟩
    exact (same.mp (none_ ▸ Nat.dvd_zero _)).2
  · rintro ⟨whole, known⟩
    refine ⟨fun divides => ⟨whole divides, known (whole divides)⟩, ?_⟩
    rintro ⟨none_, -⟩
    exact none_ ▸ Nat.dvd_zero _

/-- A domain without transactions, and two domains whose sequences wrap. -/
theorem transactionsSince_zero_and_wrap :
    let empty : GtidPosition := ⟨[], Pairwise.nil⟩
    let zero : GtidPosition := ⟨[(0, ⟨1, 0⟩)], by decide⟩
    let wide : GtidPosition :=
      ⟨[(0, ⟨1, 9223372036854775808⟩), (1, ⟨1, 9223372036854775808⟩)], by decide⟩
    (zero.transactionsSince empty = 0 ∧ empty.contains zero = false) ∧
      wide.transactionsSince empty = 0 ∧ empty.contains wide = false := by
  decide +kernel

end GtidPosition

end MariadbShell.Db
