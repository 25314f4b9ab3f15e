import MariadbShell.Db.GtidPosition
import MariadbShell.Lib.Decimal
import MariadbShell.Sql.Spans

/-!
# Texts of replication positions

What `Mariadb_gtid_position::parse` accepts: entries `domain-server-sequence`, separated by
commas, with blanks around them. It reads the text of a position as that position.
-/

namespace MariadbShell.Db

open List
open ImportTable (Bytes)
open Lib.Decimal Lib.Keyed
open Sql Chr

namespace GtidPosition

/-! ## The code -/

/-- The characters that `str_strip_view` removes. -/
def isBlank (chr : UInt8) : Bool :=
  chr ∈ [space, 13, 10, 9]

def strip (text : Bytes) : Bytes :=
  (text.dropWhile isBlank).rdropWhile isBlank

def parseNumber (component : Bytes) (max : Nat) : Option Nat :=
  if component = [] ∨ component.any (!isDigit ·) then none
  else
    component.foldlM (fun value chr =>
      let digit := chr.toNat - 48
      if value > (max - digit) / 10 then none else some (value * 10 + digit)) 0

def single (domain : UInt32) (entry : GtidEntry) : GtidPosition :=
  ⟨[(domain, entry)], pairwise_singleton _ _⟩

def parseEntry (gtid : Bytes) : Option GtidPosition :=
  match (strip gtid).splitOn minus with
  | [domain, server, sequence] =>
      (parseNumber domain (2 ^ 32 - 1)).bind fun domain =>
        (parseNumber server (2 ^ 32 - 1)).bind fun server =>
          (parseNumber sequence (2 ^ 64 - 1)).map fun sequence =>
            single domain.toUInt32 ⟨server.toUInt32, sequence.toUInt64⟩
  | _ => none

/-- `parse`; no position stands for the exception `std::invalid_argument`. -/
def parse (position : Bytes) : Option GtidPosition :=
  if strip position = [] then some ⟨[], Pairwise.nil⟩
  else
    (position.splitOn comma).foldlM (fun result gtid => (parseEntry gtid).map result.merge)
      ⟨[], Pairwise.nil⟩

def entryText (entry : UInt32 × GtidEntry) : Bytes :=
  decimal entry.1.toNat ++ minus ::
    (decimal entry.2.serverId.toNat ++ minus :: decimal entry.2.sequence.toNat)

def str (position : GtidPosition) : Bytes :=
  [comma].intercalate (position.domains.map entryText)

end GtidPosition

/-! ## Well-formed texts -/

/-- A text of digits for a number up to the given one. -/
structure IsNumber (max : Nat) (text : Bytes) : Prop where
  nonempty : text ≠ []
  digits : ∀ chr ∈ text, isDigit chr = true
  fits : value text ≤ max

theorem IsNumber.of_decimal {number max : Nat} (fits : number ≤ max) :
    IsNumber max (decimal number) where
  nonempty := decimal_ne_nil number
  digits chr member := by
    have bounds := decimal_digits member
    simp only [isDigit, UInt8.le_iff_toNat_le, decide_eq_true_eq]
    exact bounds
  fits := by rwa [value_decimal]

theorem IsNumber.not_mem {max : Nat} {text : Bytes} {chr : UInt8} (number : IsNumber max text)
    (other : isDigit chr = false) : chr ∉ text := by
  intro member
  rw [number.digits chr member] at other
  cases other

structure GtidToken where
  before : Bytes
  domain : Bytes
  server : Bytes
  sequence : Bytes
  after : Bytes
  blank : ∀ chr ∈ before ++ after, GtidPosition.isBlank chr = true
  isDomain : IsNumber (2 ^ 32 - 1) domain
  isServer : IsNumber (2 ^ 32 - 1) server
  isSequence : IsNumber (2 ^ 64 - 1) sequence

namespace GtidToken

def core (token : GtidToken) : Bytes :=
  token.domain ++ minus :: (token.server ++ minus :: token.sequence)

def text (token : GtidToken) : Bytes :=
  token.before ++ (token.core ++ token.after)

end GtidToken

namespace GtidPosition

/-! ## Numbers -/

/-- The check for an overflow is exact. -/
theorem digits_loop {max number : Nat} (wide : 9 ≤ max) {text : Bytes}
    (digits : ∀ chr ∈ text, isDigit chr = true) (start : Nat) (small : start ≤ max) :
    text.foldlM (fun value chr =>
        let digit := chr.toNat - 48
        if value > (max - digit) / 10 then none else some (value * 10 + digit)) start =
      some number ↔
    start * 10 ^ text.length + value text ≤ max ∧
      start * 10 ^ text.length + value text = number := by
  induction text generalizing start with
  | nil => simp [value, small]
  | cons chr rest ih =>
    obtain ⟨first, others⟩ := forall_mem_cons.mp digits
    have nine : chr.toNat - 48 ≤ 9 := by
      have bound : chr.toNat ≤ 57 := UInt8.le_iff_toNat_le.mp (of_decide_eq_true first).2
      omega
    have shifted : start * 10 ^ (chr :: rest).length + value (chr :: rest) =
        (start * 10 + (chr.toNat - 48)) * 10 ^ rest.length + value rest := by
      rw [value_cons, length_cons, Nat.pow_succ, Nat.add_mul, Nat.mul_assoc start,
        Nat.mul_comm 10, Nat.add_assoc]
    rw [shifted, foldlM_cons]
    dsimp only
    generalize chr.toNat - 48 = digit at *
    have overflow : start > (max - digit) / 10 ↔ max < start * 10 + digit := by omega
    split
    · next large =>
      have more : start * 10 + digit ≤ (start * 10 + digit) * 10 ^ rest.length :=
        Nat.le_mul_of_pos_right _ (Nat.pow_pos (by decide))
      have beyond := overflow.mp large
      refine iff_of_false (by rintro ⟨⟩) fun fits => ?_
      omega
    · next fits => exact ih others _ (Nat.le_of_not_lt (mt overflow.mpr fits))

theorem parseNumber_iff {component : Bytes} {max number : Nat} (wide : 9 ≤ max) :
    parseNumber component max = some number ↔
      IsNumber max component ∧ value component = number := by
  unfold parseNumber
  split
  · next refused =>
    refine iff_of_false (by rintro ⟨⟩) fun number => ?_
    rcases refused with empty | other
    · exact number.1.nonempty empty
    · obtain ⟨chr, member, noDigit⟩ := any_eq_true.mp other
      simp [number.1.digits chr member] at noDigit
  · next accepted =>
    obtain ⟨nonempty, all⟩ := not_or.mp accepted
    have digits : ∀ chr ∈ component, isDigit chr = true := by simpa using all
    rw [digits_loop wide digits 0 (Nat.zero_le _), Nat.zero_mul, Nat.zero_add]
    exact and_congr_left fun _ => ⟨fun fits => ⟨nonempty, digits, fits⟩, fun number => number.fits⟩

/-! ## Entries -/

/-- Blanks around a text without blanks are removed. -/
theorem strip_eq {before core after : Bytes} (blank : ∀ chr ∈ before ++ after, isBlank chr = true)
    (solid : ∀ chr ∈ core, isBlank chr = false) : strip (before ++ (core ++ after)) = core := by
  have front (list rest : Bytes) (all : ∀ chr ∈ list, isBlank chr = false) (some_ : list ≠ []) :
      (list ++ rest).dropWhile isBlank = list ++ rest := by
    obtain ⟨chr, more, rfl⟩ := exists_cons_of_ne_nil some_
    rw [cons_append, dropWhile_cons_of_neg]
    simp [all chr mem_cons_self]
  obtain ⟨left, right⟩ := forall_mem_append.mp blank
  rw [strip, dropWhile_append_of_pos left]
  by_cases empty : core = []
  · rw [empty, nil_append, dropWhile_eq_nil_iff.mpr right, rdropWhile_nil]
  · rw [front core after solid empty, List.rdropWhile, reverse_append,
      dropWhile_append_of_pos (by simpa using right)]
    have back := front core.reverse [] (by simpa using solid) (by simpa using empty)
    rw [append_nil] at back
    rw [back, reverse_reverse]

theorem strip_split (text : Bytes) : ∃ before after, text = before ++ (strip text ++ after) ∧
    ∀ chr ∈ before ++ after, isBlank chr = true := by
  refine ⟨text.takeWhile isBlank, (text.dropWhile isBlank).rtakeWhile isBlank, ?_, ?_⟩
  · rw [strip, rdropWhile_append_rtakeWhile, takeWhile_append_dropWhile]
  · exact forall_mem_append.mpr
      ⟨fun _ => mem_takeWhile_imp, fun _ => mem_rtakeWhile_imp⟩

theorem strip_eq_nil_iff {text : Bytes} : strip text = [] ↔ ∀ chr ∈ text, isBlank chr = true := by
  constructor
  · intro empty
    obtain ⟨before, after, same, blank⟩ := strip_split text
    rwa [same, empty, nil_append]
  · intro blank
    have removed := @strip_eq text [] [] (by simpa using blank) (by simp)
    simpa using removed

end GtidPosition

namespace GtidToken

open GtidPosition

variable (token : GtidToken)

theorem mem_core {chr : UInt8} (member : chr ∈ token.core) :
    isDigit chr = true ∨ chr = Chr.minus := by
  simp only [core, mem_append, mem_cons] at member
  rcases member with domain | minus | server | minus | sequence
  · exact .inl (token.isDomain.digits chr domain)
  · exact .inr minus
  · exact .inl (token.isServer.digits chr server)
  · exact .inr minus
  · exact .inl (token.isSequence.digits chr sequence)

theorem solid {chr : UInt8} (member : chr ∈ token.core) : isBlank chr = false := by
  refine decide_eq_false fun blank => ?_
  have plain : isDigit chr = false ∧ chr ≠ Chr.minus := by
    simp only [mem_cons, not_mem_nil, or_false] at blank
    rcases blank with rfl | rfl | rfl | rfl <;> decide
  rcases token.mem_core member with digit | minus
  · rw [plain.1] at digit
    cases digit
  · exact plain.2 minus

/-- The three numbers are read. -/
theorem parseEntry_text : parseEntry token.text =
    some (.single (value token.domain).toUInt32
      ⟨(value token.server).toUInt32, (value token.sequence).toUInt64⟩) := by
  have pieces : token.core.splitOn minus = [token.domain, token.server, token.sequence] := by
    have split := @splitOn_intercalate _ [token.domain, token.server, token.sequence] _ _
      minus
    have free : ∀ number ∈ [token.domain, token.server, token.sequence], minus ∉ number := by
      simp only [forall_mem_cons]
      exact ⟨token.isDomain.not_mem rfl, token.isServer.not_mem rfl,
        token.isSequence.not_mem rfl, nofun⟩
    simpa [List.intercalate, core] using split free (by simp)
  rw [parseEntry, text, strip_eq token.blank fun _ => token.solid, pieces]
  dsimp only
  rw [(parseNumber_iff (by decide)).mpr ⟨token.isDomain, rfl⟩,
    (parseNumber_iff (by decide)).mpr ⟨token.isServer, rfl⟩,
    (parseNumber_iff (by decide)).mpr ⟨token.isSequence, rfl⟩]
  rfl

/-- Other entries are refused. -/
theorem parseEntry_isSome_iff {gtid : Bytes} :
    (parseEntry gtid).isSome = true ↔ ∃ token : GtidToken, token.text = gtid := by
  constructor
  · intro read
    unfold parseEntry at read
    split at read
    · next domain server sequence pieces =>
      obtain ⟨before, after, same, blank⟩ := strip_split gtid
      obtain ⟨_, read⟩ := Option.isSome_iff_exists.mp read
      obtain ⟨_, first, read⟩ := Option.bind_eq_some_iff.mp read
      obtain ⟨_, second, read⟩ := Option.bind_eq_some_iff.mp read
      obtain ⟨_, third, -⟩ := Option.map_eq_some_iff.mp read
      refine ⟨⟨before, domain, server, sequence, after, blank,
        ((parseNumber_iff (by decide)).mp first).1,
        ((parseNumber_iff (by decide)).mp second).1,
        ((parseNumber_iff (by decide)).mp third).1⟩, ?_⟩
      have joined := @intercalate_splitOn _ (strip gtid) _ _ minus
      rw [pieces] at joined
      rw [same, ← joined]
      simp [text, core, List.intercalate]
    · cases read
  · rintro ⟨token, rfl⟩
    rw [token.parseEntry_text]
    rfl

end GtidToken

namespace GtidPosition

theorem foldlM_isSome_iff (gtids : List Bytes) (start : GtidPosition) :
    (gtids.foldlM (fun result gtid => (parseEntry gtid).map result.merge) start).isSome = true ↔
      ∀ gtid ∈ gtids, (parseEntry gtid).isSome = true := by
  induction gtids generalizing start with
  | nil => simp
  | cons gtid rest ih =>
    rw [foldlM_cons, forall_mem_cons]
    cases parseEntry gtid with
    | none => simp
    | some position => simpa using ih (start.merge position)

theorem comma_not_mem (tokens : List GtidToken) :
    ∀ text ∈ tokens.map GtidToken.text, Chr.comma ∉ text := by
  intro text member
  obtain ⟨token, -, rfl⟩ := mem_map.mp member
  intro comma
  rw [GtidToken.text, mem_append, mem_append] at comma
  rcases comma with before | core | after
  · exact absurd (token.blank _ (mem_append_left _ before)) (by decide)
  · exact absurd (token.mem_core core) (by decide)
  · exact absurd (token.blank _ (mem_append_right _ after)) (by decide)

/-- The entry of a text that `str` writes. -/
def token (entry : UInt32 × GtidEntry) : GtidToken where
  before := []
  domain := decimal entry.1.toNat
  server := decimal entry.2.serverId.toNat
  sequence := decimal entry.2.sequence.toNat
  after := []
  blank := nofun
  isDomain := IsNumber.of_decimal (Nat.le_pred_of_lt entry.1.toNat_lt)
  isServer := IsNumber.of_decimal (Nat.le_pred_of_lt entry.2.serverId.toNat_lt)
  isSequence := IsNumber.of_decimal (Nat.le_pred_of_lt entry.2.sequence.toNat_lt)

theorem text_token (entry : UInt32 × GtidEntry) : (token entry).text = entryText entry :=
  append_nil _

theorem parseEntry_entryText (entry : UInt32 × GtidEntry) :
    parseEntry (entryText entry) = some (single entry.1 entry.2) := by
  rw [← text_token, GtidToken.parseEntry_text]
  simp [token, value_decimal]

/-- Entries of greater domains are appended. -/
theorem foldlM_entries (entries : List (UInt32 × GtidEntry)) (start : GtidPosition)
    (ascending : Ascending (start.domains ++ entries)) :
    (entries.map entryText).foldlM (fun result gtid => (parseEntry gtid).map result.merge) start =
      some ⟨start.domains ++ entries, ascending⟩ := by
  induction entries generalizing start with
  | nil => simp
  | cons entry rest ih =>
    have above : ∀ other ∈ start.domains, other.1 < entry.1 := fun other member =>
      (pairwise_append.mp ascending).2.2 other member entry mem_cons_self
    have absent : get entry.1 start.domains = none := by
      cases found : get entry.1 start.domains with
      | none => rfl
      | some old => exact absurd (above _ (mem_of_get found)) (UInt32.lt_irrefl _)
    have appended : (start.merge (single entry.1 entry.2)).domains = start.domains ++ [entry] := by
      change put entry.1 (advance entry.2 (get entry.1 start.domains)) start.domains = _
      rw [absent]
      exact put_of_above above
    have later : Ascending ((start.merge (single entry.1 entry.2)).domains ++ rest) := by
      rwa [appended, append_assoc]
    rw [map_cons, foldlM_cons, parseEntry_entryText]
    refine (ih _ later).trans ?_
    simp [appended]

/-- A position is read back from its text. -/
theorem parse_str (position : GtidPosition) : parse position.str = some position := by
  obtain ⟨entries, ascending⟩ := position
  cases entries with
  | nil => rfl
  | cons entry rest =>
    have solid : strip (str ⟨entry :: rest, ascending⟩) ≠ [] := by
      intro empty
      obtain ⟨chr, more, first⟩ := exists_cons_of_ne_nil (decimal_ne_nil entry.1.toNat)
      have inside : chr ∈ str ⟨entry :: rest, ascending⟩ := by
        cases rest <;> simp [str, entryText, first, List.intercalate]
      have blank := strip_eq_nil_iff.mp empty chr inside
      have digit := (token entry).solid (by simp [GtidToken.core, token, first] : chr ∈ _)
      rw [digit] at blank
      cases blank
    have texts : (entry :: rest).map entryText =
        ((entry :: rest).map token).map GtidToken.text := by
      simp [text_token]
    have pieces : (str ⟨entry :: rest, ascending⟩).splitOn comma =
        (entry :: rest).map entryText := by
      rw [str, texts, splitOn_intercalate _ (comma_not_mem _) (by simp)]
    rw [parse, if_neg solid, pieces]
    exact foldlM_entries (entry :: rest) ⟨[], Pairwise.nil⟩ ascending

/--
The blank texts and the lists of entries are accepted, and what `str` writes is read as the
same position.
-/
theorem parse_iff_and_parse_str :
    (∀ text : Bytes, (parse text).isSome = true ↔ (∀ chr ∈ text, isBlank chr = true) ∨
      ∃ tokens : List GtidToken, tokens ≠ [] ∧
        text = [comma].intercalate (tokens.map GtidToken.text)) ∧
    ∀ position : GtidPosition, parse position.str = some position := by
  refine ⟨fun position => ?_, parse_str⟩
  rw [← strip_eq_nil_iff, parse]
  by_cases blank : strip position = []
  · simp [blank]
  · rw [if_neg blank, foldlM_isSome_iff]
    simp only [blank, false_or]
    constructor
    · intro all
      have entries : position.splitOn comma ∈ Set.range (List.map GtidToken.text) := by
        rw [Set.range_list_map]
        exact fun gtid member => GtidToken.parseEntry_isSome_iff.mp (all gtid member)
      obtain ⟨tokens, same⟩ := entries
      refine ⟨tokens, ?_, ?_⟩
      · rintro rfl
        exact splitOn_ne_nil _ _ same.symm
      · rw [same, intercalate_splitOn]
    · rintro ⟨tokens, some_, rfl⟩ gtid member
      rw [splitOn_intercalate _ (comma_not_mem tokens) (by simpa using some_)] at member
      obtain ⟨token, -, rfl⟩ := mem_map.mp member
      exact GtidToken.parseEntry_isSome_iff.mpr ⟨token, rfl⟩

end GtidPosition

end MariadbShell.Db
