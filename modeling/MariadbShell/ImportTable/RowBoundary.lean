import MariadbShell.ImportTable.TransactionBuffer

/-!
# Row boundaries found in buffered data

What the boundary searches of a transaction buffer return: a reported boundary ends a line
terminator of the data that starts within the limit. The functions of the default dialect agree
with those of a dialect without escape character, so two of the three families remain.
-/

namespace MariadbShell.ImportTable

open List Lib.MachineInt Lib.Search Dialect Byte

variable {data : Bytes} {limit : Nat} {dialect : Dialect}

theorem searchStart_of_lt (positive : 0 < limit) (bounded : limit < 2 ^ 64)
    (inside : limit < data.length) :
    searchStart data limit = limit - 1 := by
  have exactValue : (toUInt64 ((limit : Int) - 1) : Int) = (limit : Int) - 1 :=
    toUInt64_of_range (by omega) (by omega)
  simp only [searchStart, if_pos inside]
  omega

theorem searchStart_of_le (outside : data.length ≤ limit) :
    searchStart data limit = data.length := by
  simp [searchStart, Nat.not_lt.mpr outside]

theorem eq_default_of_ofDialect (mode : BoundarySearch.ofDialect dialect = .default_) :
    dialect = default_ := by
  unfold BoundarySearch.ofDialect at mode
  by_cases isDefault : dialect = default_
  · exact isDefault
  · rw [if_neg isDefault] at mode
    split at mode <;> cases mode

theorem findLast_default (data : Bytes) (limit : Nat) :
    findLastRowBoundaryBefore default_ data limit =
      findLastRowBoundaryBeforeImplNoEscape default_ data limit := by
  have terminator : default_.linesTerminatedBy = [newline] := rfl
  simp only [findLastRowBoundaryBefore, BoundarySearch.ofDialect, if_true,
    findLastRowBoundaryBeforeImplDefault, findLastRowBoundaryBeforeImplNoEscape, terminator,
    take_succ_cons, take_zero, length_singleton, Nat.lt_one_iff]

theorem findFirst_default (data : Bytes) :
    findFirstRowBoundaryAfter default_ data =
      findFirstRowBoundaryAfterImplNoEscape default_ data := by
  have terminator : default_.linesTerminatedBy = [newline] := rfl
  simp only [findFirstRowBoundaryAfter, BoundarySearch.ofDialect, if_true,
    findFirstRowBoundaryAfterImplDefault, findFirstRowBoundaryAfterImplNoEscape, terminator,
    take_succ_cons, take_zero, length_singleton]

/-- A backward search either looks at escape characters or ignores them. -/
theorem findLast_cases (dialect : Dialect) (data : Bytes) (limit : Nat) :
    (BoundarySearch.ofDialect dialect = .escape ∧ findLastRowBoundaryBefore dialect data limit =
      findLastRowBoundaryBeforeImplEscape dialect data limit) ∨
    (BoundarySearch.ofDialect dialect ≠ .escape ∧ findLastRowBoundaryBefore dialect data limit =
      findLastRowBoundaryBeforeImplNoEscape dialect data limit) := by
  cases mode : BoundarySearch.ofDialect dialect with
  | default_ =>
    rw [eq_default_of_ofDialect mode]
    exact .inr ⟨nofun, findLast_default data limit⟩
  | noEscape => exact .inr ⟨nofun, by simp only [findLastRowBoundaryBefore, mode]⟩
  | escape => exact .inl ⟨rfl, by simp only [findLastRowBoundaryBefore, mode]⟩

/-! ## Reported boundaries -/

/-- The terminator at the offset is passed over because of the byte before it. -/
def LooksEscaped (dialect : Dialect) (data : Bytes) (offset : Nat) : Prop :=
  BoundarySearch.ofDialect dialect = .escape ∧ EscapedAt dialect data offset

instance (dialect : Dialect) (data : Bytes) (offset : Nat) :
    Decidable (LooksEscaped dialect data offset) :=
  inferInstanceAs (Decidable (_ ∧ _))

/-- A line terminator that a search of the data may report. -/
def Reported (dialect : Dialect) (data : Bytes) (offset : Nat) : Prop :=
  OccursAt dialect.linesTerminatedBy data offset ∧ ¬ LooksEscaped dialect data offset

section

variable (nonempty : dialect.linesTerminatedBy ≠ [])

include nonempty

/-- A reported boundary of the backward loop ends a terminator at or before the start. -/
theorem lastUnescapedFrom_pos {fuel start : Nat}
    (found : 0 < lastUnescapedFrom dialect data fuel start) :
    ∃ offset, lastUnescapedFrom dialect data fuel start =
        offset + dialect.linesTerminatedBy.length ∧
      Reported dialect data offset ∧ offset ≤ start := by
  induction fuel generalizing start with
  | zero => simp [lastUnescapedFrom] at found
  | succ fuel ih =>
    unfold lastUnescapedFrom at found ⊢
    cases search : rfind dialect.linesTerminatedBy data start with
    | none => simp [search] at found
    | some offset =>
      obtain ⟨bound, occurs, -⟩ := rfind_some nonempty search
      simp only [search] at found ⊢
      by_cases escaped : EscapedAt dialect data offset
      · by_cases low : offset < dialect.linesTerminatedBy.length
        · simp [escaped, low] at found
        · simp only [if_pos escaped, if_neg low] at found ⊢
          obtain ⟨other, result, reported, boundOther⟩ := ih found
          exact ⟨other, result, reported, by omega⟩
      · simp only [if_neg escaped]
        exact ⟨offset, rfl, ⟨occurs, fun looks => escaped looks.2⟩, bound⟩

/-- A boundary reported by a backward search ends a line terminator of the data. -/
theorem findLast_pos (found : 0 < findLastRowBoundaryBefore dialect data limit) :
    ∃ offset, findLastRowBoundaryBefore dialect data limit =
        offset + dialect.linesTerminatedBy.length ∧
      Reported dialect data offset ∧
      offset ≤ searchStart data limit ∧
      dialect.linesTerminatedBy.length ≤ searchStart data limit := by
  rcases findLast_cases dialect data limit with ⟨mode, same⟩ | ⟨mode, same⟩
  · rw [same, findLastRowBoundaryBeforeImplEscape] at found ⊢
    by_cases low : searchStart data limit < dialect.linesTerminatedBy.length
    · simp [low] at found
    · simp only [if_neg low] at found ⊢
      obtain ⟨offset, result, reported, bound⟩ := lastUnescapedFrom_pos nonempty found
      exact ⟨offset, result, reported, bound, by omega⟩
  · rw [same, findLastRowBoundaryBeforeImplNoEscape] at found ⊢
    by_cases low : searchStart data limit < dialect.linesTerminatedBy.length
    · simp [low] at found
    · simp only [if_neg low] at found ⊢
      cases search : rfind dialect.linesTerminatedBy data (searchStart data limit) with
      | none => simp [search] at found
      | some offset =>
        obtain ⟨bound, occurs, -⟩ := rfind_some nonempty search
        exact ⟨offset, rfl, ⟨occurs, fun looks => mode looks.1⟩, bound, by omega⟩

/-- A boundary lies inside the data. -/
theorem findLast_le_length : findLastRowBoundaryBefore dialect data limit ≤ data.length := by
  rcases Nat.eq_zero_or_pos (findLastRowBoundaryBefore dialect data limit) with absent | found
  · omega
  · obtain ⟨offset, result, reported, -⟩ := findLast_pos nonempty found
    have inside := reported.1.end_le nonempty
    omega

end

/-- A one-byte terminator that starts before the limit also ends there. -/
theorem findLast_le_of_single (single : dialect.linesTerminatedBy.length = 1) (positive : 0 < limit)
    (bounded : limit < 2 ^ 64) : findLastRowBoundaryBefore dialect data limit ≤ limit := by
  have nonempty : dialect.linesTerminatedBy ≠ [] := ne_nil_of_length_pos (by omega)
  have inside : findLastRowBoundaryBefore dialect data limit ≤ data.length :=
    findLast_le_length nonempty
  rcases Nat.eq_zero_or_pos (findLastRowBoundaryBefore dialect data limit) with absent | found
  · omega
  · obtain ⟨offset, result, -, bound, -⟩ := findLast_pos nonempty found
    rcases Nat.lt_or_ge limit data.length with short | long
    · rw [searchStart_of_lt positive bounded short] at bound
      omega
    · omega

section

variable (nonempty : dialect.linesTerminatedBy ≠ [])

include nonempty

/-- A limit not longer than the terminator never reaches past itself. -/
theorem findLast_le_of_short (positive : 0 < limit) (bounded : limit < 2 ^ 64)
    (short : limit ≤ dialect.linesTerminatedBy.length) :
    findLastRowBoundaryBefore dialect data limit ≤ limit := by
  have inside : findLastRowBoundaryBefore dialect data limit ≤ data.length :=
    findLast_le_length nonempty
  rcases Nat.eq_zero_or_pos (findLastRowBoundaryBefore dialect data limit) with absent | found
  · omega
  · obtain ⟨offset, result, -, -, room⟩ := findLast_pos nonempty found
    rcases Nat.lt_or_ge limit data.length with short | long
    · rw [searchStart_of_lt positive bounded short] at room
      omega
    · omega

/-- A backward search reports the last terminator in reach unless it is escaped. -/
theorem findLast_eq {offset : Nat}
    (room : dialect.linesTerminatedBy.length ≤ searchStart data limit)
    (occurs : OccursAt dialect.linesTerminatedBy data offset)
    (reached : offset ≤ searchStart data limit)
    (last : ∀ other, offset < other → other ≤ searchStart data limit →
      ¬ OccursAt dialect.linesTerminatedBy data other)
    (plain : ¬ EscapedAt dialect data offset) :
    findLastRowBoundaryBefore dialect data limit = offset + dialect.linesTerminatedBy.length := by
  have found := rfind_eq_some nonempty occurs reached last
  rcases findLast_cases dialect data limit with ⟨-, same⟩ | ⟨-, same⟩
  · simp only [same, findLastRowBoundaryBeforeImplEscape, if_neg (Nat.not_lt.mpr room),
      lastUnescapedFrom, found, if_neg plain]
  · simp only [same, findLastRowBoundaryBeforeImplNoEscape, if_neg (Nat.not_lt.mpr room), found]

end

/-! ## The default dialect -/

/-- A backward search of the default dialect that reports nothing saw no terminator. -/
theorem findLast_default_eq_zero (wide : 2 ≤ limit) (bounded : limit < 2 ^ 64)
    (absent : findLastRowBoundaryBefore default_ data limit = 0) :
    ∀ offset, offset < limit → data[offset]? ≠ some newline := by
  have terminator : default_.linesTerminatedBy = [newline] := rfl
  rw [findLast_default] at absent
  intro offset below here
  have inside : offset < data.length := (List.getElem?_eq_some_iff.mp here).1
  have reached : offset ≤ searchStart data limit ∧ 1 ≤ searchStart data limit := by
    rcases Nat.lt_or_ge limit data.length with short | long
    · rw [searchStart_of_lt (by omega) bounded short]
      omega
    · rw [searchStart_of_le long]
      omega
  simp only [findLastRowBoundaryBeforeImplNoEscape, terminator, length_singleton,
    if_neg (Nat.not_lt.mpr reached.2)] at absent
  cases search : rfind [newline] data (searchStart data limit) with
  | none => exact rfind_none (by simp) search offset reached.1 (occursAt_singleton.mpr here)
  | some found => simp [search] at absent

theorem findLast_default_pos (positive : 0 < limit) (bounded : limit < 2 ^ 64)
    (found : 0 < findLastRowBoundaryBefore default_ data limit) :
    findLastRowBoundaryBefore default_ data limit ≤ limit ∧
      data[findLastRowBoundaryBefore default_ data limit - 1]? = some newline := by
  have nonempty : default_.linesTerminatedBy ≠ [] := by decide
  refine ⟨findLast_le_of_single rfl positive bounded, ?_⟩
  obtain ⟨offset, result, reported, -⟩ := findLast_pos nonempty found
  have occurs := reported.1
  have terminator : default_.linesTerminatedBy = [newline] := rfl
  rw [terminator] at result occurs
  rw [result]
  exact occursAt_singleton.mp occurs

theorem findFirst_default_eq_zero (absent : findFirstRowBoundaryAfter default_ data = 0) :
    newline ∉ data := by
  have terminator : default_.linesTerminatedBy = [newline] := rfl
  rw [findFirst_default] at absent
  simp only [findFirstRowBoundaryAfterImplNoEscape, terminator] at absent
  cases search : find [newline] data 0 with
  | none =>
    intro member
    obtain ⟨offset, here⟩ := getElem?_of_mem member
    exact find_none (by simp) search offset (Nat.zero_le _) (occursAt_singleton.mpr here)
  | some found => simp [search] at absent

/-- The first boundary of the default dialect ends the first row of the data. -/
theorem findFirst_default_pos (found : 0 < findFirstRowBoundaryAfter default_ data) :
    data[findFirstRowBoundaryAfter default_ data - 1]? = some newline ∧
      ∀ offset, offset + 1 < findFirstRowBoundaryAfter default_ data →
        data[offset]? ≠ some newline := by
  have terminator : default_.linesTerminatedBy = [newline] := rfl
  rw [findFirst_default] at found ⊢
  simp only [findFirstRowBoundaryAfterImplNoEscape, terminator] at found ⊢
  cases search : find [newline] data 0 with
  | none => simp [search] at found
  | some first =>
    obtain ⟨-, occurs, least⟩ := find_some search
    refine ⟨occursAt_singleton.mp occurs, fun offset below here => ?_⟩
    change offset + 1 < first + 1 at below
    exact least offset (Nat.zero_le _) (by omega) (occursAt_singleton.mpr here)

end MariadbShell.ImportTable
