import MariadbShell.Uri.Parser

/-!
# Percent-encoded texts

The rules of most components have one shape: a percent-encoded character, then runs of
characters of some groups. The encoder with such rules writes each character by itself,
and the parser with such rules reads the characters back whatever follows them.
-/

namespace MariadbShell.Uri

open List
open ImportTable (Bytes ascii)
open Sql Chr

/-! ## Characters -/

theorem mem_characters {first chr : UInt8} {count : Nat} (small : first.toNat + count ≤ 256) :
    chr ∈ characters first count ↔ first ≤ chr ∧ chr.toNat < first.toNat + count := by
  simp only [characters, mem_map, mem_range, UInt8.le_iff_toNat_le]
  constructor
  · rintro ⟨index, below, rfl⟩
    have sum : (first + index.toUInt8).toNat = first.toNat + index := by
      rw [UInt8.toNat_add, Nat.toUInt8, UInt8.toNat_ofNat', Nat.add_mod_mod]
      omega
    omega
  · rintro ⟨above, below⟩
    refine ⟨chr.toNat - first.toNat, by omega, UInt8.toNat_inj.mp ?_⟩
    rw [UInt8.toNat_add, Nat.toUInt8, UInt8.toNat_ofNat', Nat.add_mod_mod]
    omega

variable {chr : UInt8}

theorem mem_digit : chr ∈ digit ↔ isDigit chr = true := by
  rw [digit, mem_characters (by decide), isDigit, decide_eq_true_eq, @UInt8.le_iff_toNat_le chr]
  exact and_congr_right fun _ => Nat.lt_succ_iff

theorem mem_hexDigit : chr ∈ hexDigit ↔
    isDigit chr = true ∨ 65 ≤ chr ∧ chr ≤ 70 ∨ 97 ≤ chr ∧ chr ≤ 102 := by
  rw [hexDigit, mem_append, mem_append, mem_characters (by decide),
    mem_characters (by decide), mem_digit, or_comm]
  refine or_congr_right (or_congr ?_ ?_)
  all_goals
    exact and_congr_right fun _ => Nat.lt_succ_iff

theorem mem_alphanumeric : chr ∈ alphanumeric ↔ isAlnum chr = true := by
  rw [alphanumeric, mem_append, mem_append, mem_characters (by decide),
    mem_characters (by decide), mem_digit, isAlnum, decide_eq_true_eq, isAlpha, decide_eq_true_eq]
  refine or_congr_left (or_congr ?_ ?_)
  all_goals
    exact and_congr_right fun _ => Nat.lt_succ_iff

theorem mem_unreserved : chr ∈ unreserved ↔
    isAlnum chr = true ∨ chr ∈ [minus, dot, underscore, 126] := by
  rw [unreserved, mem_append, mem_alphanumeric]

theorem digit_subset : digit ⊆ hexDigit :=
  fun _ => mem_append_right _

theorem isAlnum_of_hexDigit (member : chr ∈ hexDigit) : isAlnum chr = true := by
  rw [mem_hexDigit] at member
  rw [isAlnum, isAlpha]
  simp only [UInt8.le_iff_toNat_le, decide_eq_true_eq] at member ⊢
  obtain digit | ⟨lower, upper⟩ | ⟨lower, upper⟩ := member
  · exact .inr digit
  · exact .inl (.inl ⟨lower, Nat.le_trans upper (by decide)⟩)
  · exact .inl (.inr ⟨lower, Nat.le_trans upper (by decide)⟩)

theorem hexDigit_subset : hexDigit ⊆ unreserved :=
  fun _ member => mem_unreserved.mpr (.inl (isAlnum_of_hexDigit member))

theorem isSpace_of_isAlnum : ∀ chr, isAlnum chr = true → isSpace chr = false :=
  forall_byte (by decide +kernel)

def pctCode (chr : UInt8) : Bytes :=
  [percent, hexChar (chr >>> 4), hexChar (chr &&& 15)]

/-- The two halves of a byte. -/
theorem nibbles : ∀ chr : UInt8,
    chr >>> 4 < 16 ∧ chr &&& 15 < 16 ∧ (chr >>> 4) <<< 4 ||| (chr &&& 15) = chr :=
  forall_byte (by decide +kernel)

theorem hexChar_of_lt {nibble : UInt8} (small : nibble < 16) :
    hexChar nibble ∈ hexDigit ∧ hexValue (hexChar nibble) = nibble := by
  have all : ∀ index : Fin 16, hexChar (UInt8.ofNat index) ∈ hexDigit ∧
      hexValue (hexChar (UInt8.ofNat index)) = UInt8.ofNat index := by
    decide +kernel
  have found := all ⟨nibble.toNat, small⟩
  rwa [UInt8.ofNat_toNat] at found

theorem hexChar_mem (chr : UInt8) :
    hexChar (chr >>> 4) ∈ hexDigit ∧ hexChar (chr &&& 15) ∈ hexDigit :=
  ⟨(hexChar_of_lt (nibbles chr).1).1, (hexChar_of_lt (nibbles chr).2.1).1⟩

theorem pctdecode_pctCode (chr : UInt8) : pctdecode (pctCode chr) = [chr] := by
  obtain ⟨high, low, whole⟩ := nibbles chr
  obtain ⟨highHex, highValue⟩ := hexChar_of_lt high
  obtain ⟨lowHex, lowValue⟩ := hexChar_of_lt low
  simp [pctCode, pctdecode, highHex, lowHex, highValue, lowValue, whole]

/-- What is written for a character when `raw` ones stand for themselves. -/
def encodeChar (raw : UInt8 → Bool) (chr : UInt8) : Bytes :=
  if raw chr then [chr] else pctCode chr

def encoded (raw : UInt8 → Bool) (text : Bytes) : Bytes :=
  text.flatMap (encodeChar raw)

@[simp] theorem encoded_nil (raw : UInt8 → Bool) : encoded raw [] = [] := rfl

@[simp] theorem encoded_cons (raw : UInt8 → Bool) (chr : UInt8) (text : Bytes) :
    encoded raw (chr :: text) = encodeChar raw chr ++ encoded raw text := rfl

@[simp] theorem encoded_append (raw : UInt8 → Bool) (left right : Bytes) :
    encoded raw (left ++ right) = encoded raw left ++ encoded raw right :=
  flatMap_append

variable {raw : UInt8 → Bool} {text simple : Bytes} {groups : List (TokenType × Bytes)}
  {rules : Rules} {code : UInt8 → TokenType}

theorem encoded_congr {raw' : UInt8 → Bool} (agree : ∀ chr ∈ text, raw chr = raw' chr) :
    encoded raw text = encoded raw' text :=
  flatMap_congr fun chr member => by rw [encodeChar, encodeChar, agree chr member]

/-- Texts of characters that stand for themselves are written as they are. -/
theorem encoded_of_raw (all : ∀ chr ∈ text, raw chr = true) : encoded raw text = text := by
  induction text with
  | nil => rfl
  | cons chr rest ih =>
    obtain ⟨stands, others⟩ := forall_mem_cons.mp all
    simp [encodeChar, stands, ih others]

theorem encoded_eq_nil : encoded raw text = [] ↔ text = [] := by
  cases text with
  | nil => simp
  | cons chr rest =>
    simp only [encoded_cons, append_eq_nil_iff, reduceCtorEq, iff_false, not_and]
    unfold encodeChar
    split <;> simp [pctCode]

/-- What an encoded text consists of. -/
theorem mem_encoded (member : chr ∈ encoded raw text) :
    raw chr = true ∧ chr ∈ text ∨ chr = percent ∨ chr ∈ hexDigit := by
  obtain ⟨origin, inside, written⟩ := mem_flatMap.mp member
  unfold encodeChar at written
  split at written
  · next stands =>
    obtain rfl := mem_singleton.mp written
    exact .inl ⟨stands, inside⟩
  · simp only [pctCode, mem_cons, not_mem_nil, or_false] at written
    obtain rfl | rfl | rfl := written
    · exact .inr (.inl rfl)
    · exact .inr (.inr (hexChar_mem origin).1)
    · exact .inr (.inr (hexChar_mem origin).2)

/-- Other characters than the raw ones and those of the codes do not occur. -/
theorem not_mem_encoded {raw : UInt8 → Bool} (text : Bytes) (other : raw chr = false)
    (plain : chr ≠ Chr.percent ∧ chr ∉ hexDigit) : chr ∉ encoded raw text := by
  intro member
  obtain ⟨stands, -⟩ | percent | hex := mem_encoded member
  · rw [other] at stands
    cases stands
  · exact plain.1 percent
  · exact plain.2 hex

/-! ## Rules -/

/-- The rules of the groups, behind that for a percent-encoded character. -/
def groupRules (groups : List (TokenType × Bytes)) : List (TokenType × Pattern) :=
  pctEncodedRule :: groups.map fun group => (group.1, .sequence group.2)

/-- The characters that such rules take as they are. -/
def isRaw (simple : Bytes) (groups : List (TokenType × Bytes)) (chr : UInt8) : Bool :=
  chr ∈ simple || groups.any fun group => chr ∈ group.2

theorem isRaw_of_mem {group : TokenType × Bytes} (member : group ∈ groups)
    (inside : chr ∈ group.2) : isRaw simple groups chr = true := by
  rw [isRaw, Bool.or_eq_true, any_eq_true]
  exact .inr ⟨group, member, decide_eq_true inside⟩

theorem isRaw_iff : isRaw simple groups chr = true ↔ chr ∈ simple ++ groups.flatMap (·.2) := by
  simp [isRaw]

def marks : Bytes :=
  [minus, dot, underscore, 126]

/-- The raw characters as a test, if they are the unreserved ones and a few others. -/
theorem isRaw_eq (extra : Bytes)
    (all : ∀ chr, chr ∈ simple ++ groups.flatMap (·.2) ↔ chr ∈ unreserved ∨ chr ∈ extra)
    (chr : UInt8) :
    isRaw simple groups chr = decide (isAlnum chr = true ∨ chr ∈ marks ++ extra) := by
  rw [Bool.eq_iff_iff, isRaw_iff, all, mem_unreserved, decide_eq_true_eq, mem_append, or_assoc,
    marks]

variable {groups' : List (TokenType × Bytes)}

/-- Rules with more characters take at least those. -/
theorem isRaw_mono {simple' : Bytes} (simples : simple' ⊆ simple)
    (inner : ∀ group ∈ groups', ∃ other ∈ groups, group.2 ⊆ other.2)
    (stands : isRaw simple' groups' chr = true) : isRaw simple groups chr = true := by
  rw [isRaw_iff, mem_append, mem_flatMap] at stands
  obtain member | ⟨group, member, inside⟩ := stands
  · simp [isRaw, simples member]
  · obtain ⟨other, found, subset⟩ := inner group member
    exact isRaw_of_mem found (subset inside)

def groupOf (groups : List (TokenType × Bytes)) (chr : UInt8) : Option (TokenType × Bytes) :=
  groups.find? fun group => chr ∈ group.2

theorem mem_of_groupOf {group : TokenType × Bytes} (found : groupOf groups chr = some group) :
    group ∈ groups ∧ chr ∈ group.2 := by
  have holds := find?_some found
  exact ⟨mem_of_find?_eq_some found, of_decide_eq_true holds⟩

theorem count_sequence_eq_zero {group : Bytes} {rest : Bytes} :
    (Pattern.sequence group).count (chr :: rest) = 0 ↔ chr ∉ group := by
  simp [Pattern.count, takeWhile_cons]

theorem readComplex_sequence (type : TokenType) (group : Bytes)
    (others : List (TokenType × Pattern)) (chr : UInt8) (rest : Bytes) :
    readComplex ((type, .sequence group) :: others) (chr :: rest) =
      if chr ∈ group then some (type, ((chr :: rest).takeWhile (· ∈ group)).length)
      else readComplex others (chr :: rest) := by
  rw [readComplex]
  by_cases member : chr ∈ group
  · rw [if_neg (mt count_sequence_eq_zero.mp (not_not.mpr member)), if_pos member]
    rfl
  · rw [if_pos (count_sequence_eq_zero.mpr member), if_neg member]

theorem readComplex_vector (type : TokenType) (groups : List Bytes)
    (others : List (TokenType × Pattern)) (other : chr ≠ percent) (rest : Bytes) :
    readComplex ((type, .vector ([percent] :: groups)) :: others) (chr :: rest) =
      readComplex others (chr :: rest) := by
  rw [readComplex, if_pos]
  simp [Pattern.count, matchesAll, other]

theorem readComplex_sequences (groups : List (TokenType × Bytes)) (chr : UInt8) (rest : Bytes) :
    readComplex (groups.map fun group => (group.1, .sequence group.2)) (chr :: rest) =
      (groupOf groups chr).map fun group =>
        (group.1, ((chr :: rest).takeWhile (· ∈ group.2)).length) := by
  induction groups with
  | nil => rfl
  | cons group others ih =>
    rw [map_cons, readComplex_sequence, ih, groupOf, groupOf, find?_cons]
    by_cases member : chr ∈ group.2 <;> simp [member]

/-- Away from a percent sign the groups decide. -/
theorem readComplex_group (groups : List (TokenType × Bytes)) (other : chr ≠ percent)
    (rest : Bytes) :
    readComplex (groupRules groups) (chr :: rest) =
      (groupOf groups chr).map fun group =>
        (group.1, ((chr :: rest).takeWhile (· ∈ group.2)).length) := by
  rw [groupRules, pctEncodedRule, readComplex_vector _ _ _ other, readComplex_sequences]

theorem readComplex_pctCode (groups : List (TokenType × Bytes)) (chr : UInt8) (rest : Bytes) :
    readComplex (groupRules groups) (pctCode chr ++ rest) = some (.pctEncoded, 3) := by
  obtain ⟨high, low⟩ := hexChar_mem chr
  simp [groupRules, pctCode, readComplex, pctEncodedRule, Pattern.count, matchesAll, high, low]

/-! ## The loop of the tokenizer -/

/-- The characters of the token that was read last are skipped. -/
theorem getTokens_skip (rules : Rules) (front rest : Bytes) (left position : Nat)
    (pending : Bytes) :
    getTokens rules front.length left position pending (front ++ rest) =
      getTokens rules 0 (left - front.length) (position + front.length) pending rest := by
  induction front generalizing left position with
  | nil => rfl
  | cons chr front ih =>
    rw [length_cons, cons_append, getTokens, ih]
    congr 1 <;> omega

/-- Nothing is read behind the range. -/
theorem getTokens_end (rules : Rules) (position : Nat) (rest : Bytes) :
    getTokens rules 0 0 position [] rest = .ok [] := by
  cases rest <;> rfl

theorem getTokens_simple (simple : chr ∈ rules.simple) (calm : isSpace chr = false)
    (left position : Nat) (rest : Bytes) :
    getTokens rules 0 (left + 1) position [] (chr :: rest) =
      (⟨.simple chr, [chr]⟩ :: ·) <$> getTokens rules 0 left (position + 1) [] rest := by
  rw [getTokens]
  simp [calm, simple, flush]

/-- A complex token that the rules read at the front of the text. -/
theorem getTokens_complex {type : TokenType} {token rest : Bytes}
    (read : readComplex rules.complex (chr :: token ++ rest) = some (type, token.length + 1))
    (complex : chr ∉ rules.simple) (calm : isSpace chr = false)
    (continues : chr ∉ rules.finalGroup) (left position : Nat) :
    getTokens rules 0 (left + (token.length + 1)) position [] (chr :: token ++ rest) =
      (⟨type, chr :: token⟩ :: ·) <$>
        getTokens rules 0 left (position + (token.length + 1)) [] rest := by
  rw [cons_append] at read ⊢
  rw [← Nat.add_assoc, getTokens]
  simp only [calm, Bool.false_eq_true, false_and, if_false, complex, read, continues, flush,
    if_true, nil_append, Nat.add_sub_cancel, take_succ_cons, take_left]
  rw [getTokens_skip]
  have rounds : left + token.length - token.length = left := by omega
  rw [rounds, Nat.add_assoc, Nat.add_comm 1]
  rfl

/-- A character that no rule takes ends the reading. -/
theorem getTokens_illegal (complex : chr ∉ rules.simple)
    (noRule : ∀ rest, readComplex rules.complex (chr :: rest) = none)
    (noFinal : chr ∉ rules.finalGroup) (strict : rules.allowUnknownTokens = false)
    (left position : Nat) (rest : Bytes) :
    ∃ error, getTokens rules 0 (left + 1) position [] (chr :: rest) = .error error := by
  rw [getTokens, if_neg complex, noRule rest]
  split
  · exact ⟨_, rfl⟩
  · exact ⟨.illegalCharacter chr position, by simp [strict]⟩

theorem stops_cons {stops : UInt8 → Prop} (here : stops chr) (rest : Bytes) :
    ∀ first ∈ (chr :: rest).head?, stops first := by
  simpa using here

theorem takeWhile_stops {holds : UInt8 → Bool} (text : Bytes) {rest : Bytes}
    (stops : ∀ chr ∈ rest.head?, holds chr = false) :
    (text ++ rest).takeWhile holds = text.takeWhile holds := by
  induction text with
  | nil =>
    cases rest with
    | nil => rfl
    | cons chr rest => simp [stops chr rfl]
  | cons chr text ih => rw [cons_append, takeWhile_cons, takeWhile_cons, ih]

/-- Where the text begins with a run of characters of a group. -/
theorem takeWhile_run {holds : UInt8 → Bool} {run rest : Bytes}
    (all : ∀ chr ∈ run, holds chr = true) (stops : ∀ chr ∈ rest.head?, holds chr = false) :
    (run ++ rest).takeWhile holds = run := by
  rw [takeWhile_stops run stops, takeWhile_eq_self_iff.mpr all]

/-- The token of a run of characters of a group. -/
theorem getTokens_run {rules : Rules} {type : TokenType} {group : Bytes}
    (read : ∀ chr rest, chr ∈ group → readComplex rules.complex (chr :: rest) =
      some (type, ((chr :: rest).takeWhile (· ∈ group)).length))
    (plain : ∀ chr ∈ group, chr ∉ rules.simple ∧ isSpace chr = false ∧ chr ∉ rules.finalGroup)
    {run post : Bytes} (nonempty : run ≠ []) (inside : ∀ chr ∈ run, chr ∈ group)
    (stops : ∀ chr ∈ post.head?, chr ∉ group) (left position : Nat) :
    getTokens rules 0 (left + run.length) position [] (run ++ post) =
      (⟨type, run⟩ :: ·) <$> getTokens rules 0 left (position + run.length) [] post := by
  obtain ⟨chr, rest, rfl⟩ := exists_cons_of_ne_nil nonempty
  have member : chr ∈ group := inside chr mem_cons_self
  have taken : (chr :: rest ++ post).takeWhile (· ∈ group) = chr :: rest :=
    takeWhile_run (fun other within => decide_eq_true (inside other within))
      fun other head => decide_eq_false (stops other head)
  have reading := read chr (rest ++ post) member
  rw [← cons_append, taken] at reading
  obtain ⟨complex, calm, continues⟩ := plain chr member
  exact getTokens_complex reading complex calm continues left position

/-! ## Reading an encoded text -/

/-- The types that are given to runs of characters. -/
def TokenType.ofGroup : TokenType → Bool
  | .simple _ | .pctEncoded | .zoneDelimiter | .final | .unknown => false
  | .alphanumeric | .unreserved | .subDelims | .delims | .digits | .hexDigits => true

theorem TokenType.ne_of_ofGroup {type other : TokenType} (run : type.ofGroup = true)
    (single : other.ofGroup = false) : type ≠ other := by
  rintro rfl
  exact nomatch run.symm.trans single

/-- Rules that read back what the encoder wrote with raw characters of its own; `code` is
the type of the token for an encoded character. -/
structure ReadsBack (rules : Rules) (groups : List (TokenType × Bytes))
    (code : UInt8 → TokenType) (raw : UInt8 → Bool) : Prop where
  readGroup : ∀ chr rest, chr ≠ percent → readComplex rules.complex (chr :: rest) =
    (groupOf groups chr).map fun group =>
      (group.1, ((chr :: rest).takeWhile (· ∈ group.2)).length)
  readCode : ∀ chr rest, readComplex rules.complex (pctCode chr ++ rest) = some (code chr, 3)
  percentComplex : percent ∉ rules.simple ∧ percent ∉ rules.finalGroup
  accepted : ∀ chr, raw chr = true →
    isRaw rules.simple groups chr = true ∧ isSpace chr = false ∧ chr ∉ rules.finalGroup ∧
      chr ≠ percent
  groupsPlain : ∀ group ∈ groups, percent ∉ group.2 ∧ group.1.ofGroup = true

/-- Rules of the usual shape, for what an encoder with fewer characters wrote. -/
theorem ReadsBack.of_groups (complex : rules.complex = groupRules groups)
    (simples : simple ⊆ rules.simple)
    (inner : ∀ group ∈ groups', ∃ other ∈ groups, group.2 ⊆ other.2)
    (percentComplex : percent ∉ rules.simple ∧ percent ∉ rules.finalGroup) {extra : Bytes}
    (raw : ∀ chr, isRaw simple groups' chr = decide (isAlnum chr = true ∨ chr ∈ marks ++ extra))
    (calm : ∀ chr ∈ marks ++ extra, isSpace chr = false ∧ chr ∉ rules.finalGroup ∧ chr ≠ percent)
    (final : ∀ chr ∈ rules.finalGroup, isAlnum chr = false)
    (groupsPlain : ∀ group ∈ groups, percent ∉ group.2 ∧ group.1.ofGroup = true) :
    ReadsBack rules groups (fun _ => .pctEncoded) (isRaw simple groups') where
  readGroup := fun chr rest other => by rw [complex, readComplex_group groups other]
  readCode := fun chr rest => by rw [complex, readComplex_pctCode]
  percentComplex := percentComplex
  accepted := fun chr stands => by
    refine ⟨isRaw_mono simples inner stands, ?_⟩
    rw [raw, decide_eq_true_eq] at stands
    obtain alnum | other := stands
    · refine ⟨isSpace_of_isAlnum _ alnum, fun member => ?_, ?_⟩
      · rw [final chr member] at alnum
        cases alnum
      · rintro rfl
        exact absurd alnum (by decide)
    · exact calm chr other
  groupsPlain := groupsPlain

def codedTokens (simple : Bytes) (groups : List (TokenType × Bytes)) (code : UInt8 → TokenType)
    (raw : UInt8 → Bool) : Nat → Bytes → List Token
  | _, [] => []
  | skip + 1, _ :: rest => codedTokens simple groups code raw skip rest
  | 0, chr :: rest =>
    if raw chr = false then
      ⟨code chr, pctCode chr⟩ :: codedTokens simple groups code raw 0 rest
    else if chr ∈ simple then
      ⟨.simple chr, [chr]⟩ :: codedTokens simple groups code raw 0 rest
    else
      match groupOf groups chr with
      | none => codedTokens simple groups code raw 0 rest
      | some (type, group) =>
        let run := rest.takeWhile fun chr => raw chr && chr ∈ group
        ⟨type, chr :: run⟩ :: codedTokens simple groups code raw run.length rest

theorem codedTokens_skip (simple : Bytes) (groups : List (TokenType × Bytes))
    (code : UInt8 → TokenType) (raw : UInt8 → Bool) (front rest : Bytes) :
    codedTokens simple groups code raw front.length (front ++ rest) =
      codedTokens simple groups code raw 0 rest := by
  induction front with
  | nil => rfl
  | cons chr front ih =>
    exact ih

/-- A raw character that is no token of its own belongs to a group. -/
theorem ReadsBack.group (reads : ReadsBack rules groups code raw) (stands : raw chr = true)
    (complex : chr ∉ rules.simple) :
    ∃ type group, groupOf groups chr = some (type, group) ∧ (type, group) ∈ groups ∧
      chr ∈ group := by
  have accepted := (reads.accepted chr stands).1
  rw [isRaw, Bool.or_eq_true, decide_eq_true_eq] at accepted
  obtain ⟨group, member, inside⟩ := any_eq_true.mp (accepted.resolve_left complex)
  cases found : groupOf groups chr with
  | none =>
    have absent := find?_eq_none.mp found group member
    exact absurd inside absent
  | some first => exact ⟨first.1, first.2, rfl, mem_of_groupOf found⟩

/-- A character outside the groups begins no complex token. -/
theorem ReadsBack.readComplex_none (reads : ReadsBack rules groups code raw)
    (other : chr ≠ percent) (noGroup : ∀ group ∈ groups, chr ∉ group.2) (rest : Bytes) :
    readComplex rules.complex (chr :: rest) = none := by
  have absent : groupOf groups chr = none := find?_eq_none.mpr (by simpa using noGroup)
  rw [reads.readGroup chr rest other, absent]
  rfl

/--
The tokens of an encoded text: a code, a character that is a token of its own, or a run of raw
characters of a group that the text does not go on with.
-/
theorem ReadsBack.tokens_induction (reads : ReadsBack rules groups code raw)
    {motive : Bytes → List Token → Prop} (nil : motive [] [])
    (coded : ∀ {chr rest tokens}, raw chr = false → motive rest tokens →
      motive (chr :: rest) (⟨code chr, pctCode chr⟩ :: tokens))
    (single : ∀ {chr rest tokens}, raw chr = true → chr ∈ rules.simple → motive rest tokens →
      motive (chr :: rest) (⟨.simple chr, [chr]⟩ :: tokens))
    (run : ∀ {type group chr run rest tokens}, groupOf groups chr = some (type, group) →
      chr ∉ rules.simple → (∀ other ∈ chr :: run, raw other = true ∧ other ∈ group) →
      (∀ other ∈ rest.head?, raw other = true → other ∉ group) → motive rest tokens →
      motive (chr :: run ++ rest) (⟨type, chr :: run⟩ :: tokens)) (text : Bytes) :
    motive text (codedTokens rules.simple groups code raw 0 text) := by
  induction size : text.length using Nat.strong_induction_on generalizing text with
  | _ size ih =>
    subst size
    cases text with
    | nil => exact nil
    | cons chr text =>
      have later := ih text.length (Nat.lt_succ_self _) text rfl
      rw [codedTokens]
      split
      · next hidden => exact coded hidden later
      · next stands =>
        rw [Bool.not_eq_false] at stands
        split
        · next simple => exact single stands simple later
        · next complex =>
          obtain ⟨type, group, found, -, inside⟩ := reads.group stands complex
          let holds : UInt8 → Bool := fun chr => raw chr && chr ∈ group
          have whole : text.takeWhile holds ++ text.dropWhile holds = text :=
            takeWhile_append_dropWhile
          have skipped := codedTokens_skip rules.simple groups code raw
            (text.takeWhile holds) (text.dropWhile holds)
          have shorter : (text.dropWhile holds).length < (chr :: text).length :=
            Nat.lt_succ_of_le (dropWhile_suffix holds).length_le
          have step := @run type group chr (text.takeWhile holds) _ _ found complex
            (forall_mem_cons.mpr ⟨⟨stands, inside⟩, fun other taken => by
              simpa [holds] using mem_takeWhile_imp taken⟩)
            (fun other head raw member => by
              have ends := head?_dropWhile_not holds text
              rw [Option.mem_def.mp head] at ends
              simp [holds, raw, member] at ends)
            (ih _ shorter _ rfl)
          rw [whole] at skipped
          rw [cons_append, whole, ← skipped] at step
          rw [found]
          exact step

/-- No run of the group goes on into an encoded text that does not begin with it. -/
theorem encoded_stops {group rest post : Bytes} (plain : percent ∉ group)
    (ends : ∀ other ∈ rest.head?, raw other = true → other ∉ group)
    (stops : ∀ chr ∈ post.head?, chr ∉ group) :
    ∀ chr ∈ (encoded raw rest ++ post).head?, chr ∉ group := by
  cases rest with
  | nil => exact stops
  | cons next rest =>
    by_cases stands : raw next = true
    · simpa [encodeChar, stands] using ends next rfl stands
    · simpa [encodeChar, stands, pctCode] using plain

/-- A run of raw characters is written as it is. -/
theorem encoded_run {group run : Bytes} (all : ∀ chr ∈ run, raw chr = true ∧ chr ∈ group)
    (rest : Bytes) : encoded raw (run ++ rest) = run ++ encoded raw rest := by
  rw [encoded_append, encoded_of_raw fun chr member => (all chr member).1]

/-- The rules read an encoded text in front of anything that does not prolong its last run. -/
theorem getTokens_encoded (reads : ReadsBack rules groups code raw) (text : Bytes) {post : Bytes}
    (stops : ∀ chr ∈ post.head?, ∀ group ∈ groups, chr ∉ group.2) (left position : Nat) :
    getTokens rules 0 (left + (encoded raw text).length) position [] (encoded raw text ++ post) =
      (codedTokens rules.simple groups code raw 0 text ++ ·) <$>
        getTokens rules 0 left (position + (encoded raw text).length) [] post := by
  revert position
  refine reads.tokens_induction (motive := fun text tokens => ∀ position,
    getTokens rules 0 (left + (encoded raw text).length) position [] (encoded raw text ++ post) =
      (tokens ++ ·) <$> getTokens rules 0 left (position + (encoded raw text).length) [] post)
    (by simp) ?_ ?_ ?_ text
  · intro chr rest tokens hidden later position
    have written : encoded raw (chr :: rest) = pctCode chr ++ encoded raw rest := by
      simp [encodeChar, hidden]
    have size : (pctCode chr ++ encoded raw rest).length = (encoded raw rest).length + 3 := by
      simp [pctCode]
    rw [written, append_assoc, size]
    refine (getTokens_complex (reads.readCode chr (encoded raw rest ++ post))
      reads.percentComplex.1 (by decide) reads.percentComplex.2
      (left + (encoded raw rest).length) position).trans ?_
    rw [length_cons, length_singleton, later, Nat.add_assoc position 3, Nat.add_comm 3]
    simp [pctCode]
  · intro chr rest tokens stands simple later position
    have written : encoded raw (chr :: rest) = chr :: encoded raw rest := by
      simp [encodeChar, stands]
    rw [written, cons_append, length_cons, ← Nat.add_assoc,
      getTokens_simple simple (reads.accepted chr stands).2.1, later]
    simp [Nat.add_assoc, Nat.add_comm]
  · intro type group chr run rest tokens found complex all ends later position
    obtain ⟨-, calm, continues, other⟩ := reads.accepted chr (all chr mem_cons_self).1
    obtain ⟨member, -⟩ := mem_of_groupOf found
    have front : (chr :: run ++ (encoded raw rest ++ post)).takeWhile (· ∈ group) = chr :: run :=
      takeWhile_run (fun other taken => decide_eq_true (all other taken).2) fun other head =>
        decide_eq_false (encoded_stops (reads.groupsPlain _ member).1 ends
          (fun chr head => stops chr head _ member) other head)
    have read : readComplex rules.complex (chr :: run ++ (encoded raw rest ++ post)) =
        some (type, run.length + 1) := by
      have reading := reads.readGroup chr (run ++ (encoded raw rest ++ post)) other
      rw [found, Option.map_some, ← cons_append, front] at reading
      exact reading
    have size : (chr :: run ++ encoded raw rest).length =
        (encoded raw rest).length + (run.length + 1) := by
      rw [length_append, length_cons, Nat.add_comm]
    rw [encoded_run all, size, append_assoc, ← Nat.add_assoc left,
      getTokens_complex read complex calm continues, later, Nat.add_assoc position,
      Nat.add_comm (run.length + 1)]
    simp

/-- The tokens of a range with an encoded text. -/
theorem getTokens_encoded_end (reads : ReadsBack rules groups code raw) (text : Bytes)
    {post : Bytes} (stops : ∀ chr ∈ post.head?, ∀ group ∈ groups, chr ∉ group.2) (position : Nat) :
    getTokens rules 0 (encoded raw text).length position [] (encoded raw text ++ post) =
      .ok (codedTokens rules.simple groups code raw 0 text) := by
  have tokens := getTokens_encoded reads text stops 0 position
  rw [Nat.zero_add, getTokens_end] at tokens
  rw [tokens]
  exact congrArg Except.ok (append_nil _)

/-- A character that the encoder leaves as it is and that the rules do not take ends the
reading of the text. -/
theorem getTokens_refused {accepted : UInt8 → Bool} (reads : ReadsBack rules groups code accepted)
    (inner : ∀ chr, accepted chr = true → raw chr = true)
    (refused : ∀ chr, raw chr = true → accepted chr = false → chr ∉ rules.simple ∧
      (∀ group ∈ groups, chr ∉ group.2) ∧ chr ∉ rules.finalGroup ∧ chr ≠ percent)
    (strict : rules.allowUnknownTokens = false)
    (found : ∃ chr ∈ text, raw chr = true ∧ accepted chr = false) (left position : Nat)
    (post : Bytes) :
    ∃ error, getTokens rules 0 (left + (encoded raw text).length) position []
      (encoded raw text ++ post) = .error error := by
  obtain ⟨first, search⟩ : ∃ first, text.find? (fun chr => raw chr && !accepted chr) = some first :=
    Option.isSome_iff_exists.mp (find?_isSome.mpr (by simpa using found))
  obtain ⟨holds, before, after, rfl, plain⟩ := find?_eq_some_iff_append.mp search
  obtain ⟨stands, unknown⟩ : raw first = true ∧ accepted first = false := by simpa using holds
  obtain ⟨complex, noGroup, noFinal, other⟩ := refused first stands unknown
  have same : encoded raw before = encoded accepted before := by
    refine encoded_congr fun chr member => ?_
    have known := plain chr member
    cases taken : accepted chr with
    | true => exact inner chr taken
    | false => simpa [taken] using known
  have written : encodeChar raw first = [first] := by simp [encodeChar, stands]
  obtain ⟨error, failed⟩ := getTokens_illegal complex
    (reads.readComplex_none other noGroup) noFinal strict
    (left + (encoded raw after).length) (position + (encoded accepted before).length)
    (encoded raw after ++ post)
  have size : left + (encoded raw (before ++ first :: after)).length =
      left + (encoded raw after).length + 1 + (encoded accepted before).length := by
    simp [written, same]
    omega
  refine ⟨error, ?_⟩
  rw [size, encoded_append, encoded_cons, written, same, append_assoc, append_assoc,
    singleton_append, getTokens_encoded reads before (stops_cons noGroup _), failed]
  rfl

/-- The tokens of an encoded text stand for the text. -/
theorem codedTokens_decoded (reads : ReadsBack rules groups (fun _ => .pctEncoded) raw)
    (text : Bytes) :
    (codedTokens rules.simple groups (fun _ => .pctEncoded) raw 0 text).flatMap Token.decoded =
      text := by
  refine reads.tokens_induction (motive := fun text tokens =>
    tokens.flatMap Token.decoded = text) rfl ?_ ?_ ?_ text
  · intro chr rest tokens _ later
    simp [Token.decoded, pctdecode_pctCode, later]
  · intro chr rest tokens _ _ later
    simp [Token.decoded, later]
  · intro type group chr run rest tokens found _ _ _ later
    have plain : type ≠ .pctEncoded :=
      TokenType.ne_of_ofGroup (reads.groupsPlain _ (mem_of_groupOf found).1).2 rfl
    simp [Token.decoded, plain, later]

/-- The tokens of an encoded text cover it. -/
theorem codedTokens_text (reads : ReadsBack rules groups code raw) (text : Bytes) :
    (codedTokens rules.simple groups code raw 0 text).flatMap Token.text = encoded raw text := by
  refine reads.tokens_induction (motive := fun text tokens =>
    tokens.flatMap Token.text = encoded raw text) rfl ?_ ?_ ?_ text
  · intro chr rest tokens hidden later
    simp [later, encodeChar, hidden]
  · intro chr rest tokens stands _ later
    simp [later, encodeChar, stands]
  · intro type group chr run rest tokens _ _ all _ later
    rw [encoded_run all, flatMap_cons, later]

/-- Simple tokens of an encoded text are raw characters of the text, and none ends the reading. -/
theorem codedTokens_type (reads : ReadsBack rules groups (fun _ => .pctEncoded) raw)
    (text : Bytes) :
    ∀ token ∈ codedTokens rules.simple groups (fun _ => .pctEncoded) raw 0 text,
      token.type ≠ .final ∧ ∀ chr, token.type = .simple chr → raw chr = true ∧ chr ∈ text := by
  refine reads.tokens_induction (motive := fun text tokens => ∀ token ∈ tokens,
    token.type ≠ .final ∧ ∀ chr, token.type = .simple chr → raw chr = true ∧ chr ∈ text)
    (by simp) ?_ ?_ ?_ text
  · intro chr rest tokens _ later
    exact forall_mem_cons.mpr ⟨by simp, fun token member => (later token member).imp_right
      fun simple other same => (simple other same).imp_right (mem_cons_of_mem _)⟩
  · intro chr rest tokens stands _ later
    refine forall_mem_cons.mpr ⟨⟨by simp, fun other same => ?_⟩,
      fun token member => (later token member).imp_right
        fun simple other same => (simple other same).imp_right (mem_cons_of_mem _)⟩
    obtain rfl : chr = other := by simpa using same
    exact ⟨stands, mem_cons_self⟩
  · intro type group chr run rest tokens found _ _ _ later
    have single := (reads.groupsPlain _ (mem_of_groupOf found).1).2
    exact forall_mem_cons.mpr ⟨⟨TokenType.ne_of_ofGroup single rfl,
      fun other same => absurd same (TokenType.ne_of_ofGroup single rfl)⟩,
      fun token member => (later token member).imp_right
        fun simple other same => (simple other same).imp_right (mem_append_right _)⟩

/-! ## The encoder -/

/-- Whether a percent sign in the text is followed by two hexadecimal digits. -/
def containsPctCode : Bytes → Bool
  | [] => false
  | chr :: rest =>
    matchesAll [[percent], hexDigit, hexDigit] (chr :: rest) || containsPctCode rest

/-- Rules of the encoder for a component. -/
structure Encodes (rules : Rules) (groups : List (TokenType × Bytes)) : Prop where
  complex : rules.complex = groupRules groups
  lenient : rules.allowSpaces = true ∧ rules.allowUnknownTokens = true ∧ rules.finalGroup = []
  percent : isRaw rules.simple groups Chr.percent = false
  unreserved : ∀ chr ∈ unreserved, isRaw rules.simple groups chr = true
  known : ∀ group ∈ groups, group.1.ofGroup = true

/-- Rules whose raw characters are the unreserved ones and a few others. -/
theorem Encodes.of_raw (complex : rules.complex = groupRules groups)
    (lenient : rules.allowSpaces = true ∧ rules.allowUnknownTokens = true ∧ rules.finalGroup = [])
    {extra : Bytes} (raw : ∀ chr, isRaw rules.simple groups chr =
      decide (isAlnum chr = true ∨ chr ∈ marks ++ extra))
    (percent : Chr.percent ∉ marks ++ extra) (known : ∀ group ∈ groups, group.1.ofGroup = true) :
    Encodes rules groups where
  complex := complex
  lenient := lenient
  percent := by
    rw [raw, decide_eq_false_iff_not, not_or]
    exact ⟨by decide, percent⟩
  unreserved := fun chr member => by
    rw [raw, decide_eq_true_eq, mem_append, ← or_assoc]
    exact .inl (mem_unreserved.mp member)
  known := known

def rendered (tokens : List Token) : Bytes :=
  tokens.flatMap fun token => if token.type = .unknown then pctencode token.text else token.text

theorem pctencode_of_coded (encodes : Encodes rules groups)
    (coded : ∀ chr ∈ text, isRaw rules.simple groups chr = false) :
    pctencode text = encoded (isRaw rules.simple groups) text := by
  refine flatMap_congr fun chr member => ?_
  have other : chr ∉ unreserved := by
    intro stands
    exact nomatch (coded chr member).symm.trans (encodes.unreserved chr stands)
  simp [pctencodeChar, other, encodeChar, coded chr member, pctCode]

/-! ## Codes in a text -/

/-- A code, a text of raw characters or unknown characters. -/
inductive Token.Kind (raw : UInt8 → Bool) (lenient : Bool) : Token → Prop where
  | code {high low : UInt8} (hexHigh : high ∈ hexDigit) (hexLow : low ∈ hexDigit) :
      Kind raw lenient ⟨.pctEncoded, [percent, high, low]⟩
  | plain {type : TokenType} {text : Bytes} (known : type ≠ .unknown ∧ type ≠ .pctEncoded)
      (stands : ∀ chr ∈ text, raw chr = true) : Kind raw lenient ⟨type, text⟩
  | unknown {text : Bytes} (allowed : lenient = true) (coded : ∀ chr ∈ text, raw chr = false) :
      Kind raw lenient ⟨.unknown, text⟩

/-- The tokens are the text behind pending characters, and a code in it is a token. -/
structure Covers (raw : UInt8 → Bool) (lenient : Bool) (pending text : Bytes)
    (tokens : List Token) : Prop where
  text_eq : tokens.flatMap Token.text = pending ++ text
  kinds : ∀ token ∈ tokens, token.Kind raw lenient
  codes : containsPctCode text = true → ∃ token ∈ tokens, token.type = .pctEncoded

theorem not_mem_of_raw (coded : raw chr = false) (stands : ∀ chr ∈ text, raw chr = true) :
    chr ∉ text :=
  fun member => Bool.false_ne_true (coded.symm.trans (stands chr member))

theorem containsPctCode_cons {rest : Bytes} (other : chr ≠ percent) :
    containsPctCode (chr :: rest) = containsPctCode rest := by
  simp [containsPctCode, matchesAll, other]

theorem containsPctCode_append {front : Bytes} (free : percent ∉ front) (rest : Bytes) :
    containsPctCode (front ++ rest) = containsPctCode rest := by
  induction front with
  | nil => rfl
  | cons chr front ih =>
    obtain ⟨other, free⟩ := not_or.mp (mt mem_cons.mpr free)
    rw [cons_append, containsPctCode_cons (Ne.symm other), ih free]

section

variable {lenient : Bool} {pending : Bytes}

theorem Covers.flush (held : ∀ chr ∈ pending, lenient = true ∧ raw chr = false) :
    Covers raw lenient pending [] (flush pending) := by
  unfold Uri.flush
  split
  · next empty => exact ⟨by rw [empty]; rfl, nofun, nofun⟩
  · next filled =>
    refine ⟨by simp, fun token member => ?_, nofun⟩
    rw [mem_singleton.mp member]
    exact .unknown (held _ (head_mem filled)).1 fun chr inside => (held chr inside).2

theorem Covers.cons {tokens : List Token} {token : Token} (coded : raw percent = false)
    (covers : Covers raw lenient [] text tokens) (kind : token.Kind raw lenient)
    (known : token.type ≠ .unknown) (held : ∀ chr ∈ pending, lenient = true ∧ raw chr = false) :
    Covers raw lenient pending (token.text ++ text) (Uri.flush pending ++ [token] ++ tokens) where
  text_eq := by
    rw [flatMap_append, flatMap_append, (Covers.flush held : Covers raw ..).text_eq, covers.text_eq]
    simp
  kinds other member := by
    rcases mem_append.mp member with early | later
    · rcases mem_append.mp early with flushed | same
      · exact (Covers.flush held).kinds other flushed
      · rw [mem_singleton.mp same]
        exact kind
    · exact covers.kinds other later
  codes found := by
    cases kind with
    | code => exact ⟨_, mem_append_left _ (mem_append_right _ mem_cons_self), rfl⟩
    | plain _ stands =>
      rw [containsPctCode_append (not_mem_of_raw coded stands)] at found
      obtain ⟨code, member, type⟩ := covers.codes found
      exact ⟨code, mem_append_right _ member, type⟩
    | unknown => exact absurd rfl known

end

/-- A complex token is a code or a run of characters of a group. -/
theorem readComplex_cases {rest : Bytes} {type : TokenType} {count : Nat}
    (plain : ∀ group ∈ groups, percent ∉ group.2 ∧ group.1.ofGroup = true)
    (read : readComplex (groupRules groups) (chr :: rest) = some (type, count)) :
    (∃ high low others, high ∈ hexDigit ∧ low ∈ hexDigit ∧ chr = percent ∧
        rest = high :: low :: others ∧ type = .pctEncoded ∧ count = 3) ∨
      ∃ group ∈ groups, chr ∈ group.2 ∧ type = group.1 ∧
        count = ((chr :: rest).takeWhile (· ∈ group.2)).length := by
  by_cases other : chr = percent
  · subst other
    have absent : groupOf groups percent = none :=
      find?_eq_none.mpr fun group member => by simpa using (plain group member).1
    rw [groupRules, pctEncodedRule, readComplex, readComplex_sequences, absent] at read
    obtain _ | ⟨high, _ | ⟨low, others⟩⟩ := rest
    · cases read
    · simp [Pattern.count, matchesAll] at read
    · by_cases hex : high ∈ hexDigit ∧ low ∈ hexDigit
      · simp [Pattern.count, matchesAll, hex] at read
        exact .inl ⟨high, low, others, hex.1, hex.2, rfl, rfl, read.1.symm, read.2.symm⟩
      · simp [Pattern.count, matchesAll, hex] at read
  · rw [readComplex_group groups other, Option.map_eq_some_iff] at read
    obtain ⟨group, found, same⟩ := read
    cases same
    obtain ⟨member, inside⟩ := mem_of_groupOf found
    exact .inr ⟨group, member, inside, rfl, rfl⟩

/-- A character that begins no complex token begins no code and is in no group. -/
theorem readComplex_eq_none {rest : Bytes}
    (read : readComplex (groupRules groups) (chr :: rest) = none) :
    matchesAll [[percent], hexDigit, hexDigit] (chr :: rest) = false ∧
      groupOf groups chr = none := by
  rw [groupRules, pctEncodedRule, readComplex] at read
  split at read
  · next noCode =>
    rw [readComplex_sequences, Option.map_eq_none_iff] at read
    exact ⟨by simpa [Pattern.count] using noCode, read⟩
  · cases read

/-- The tokens of a chunk, up to a character of no group. -/
theorem getTokens_covers (complex : rules.complex = groupRules groups)
    (coded : isRaw rules.simple groups percent = false)
    (finals : ∀ chr ∈ rules.finalGroup, chr ∈ rules.simple)
    (plain : ∀ group ∈ groups, percent ∉ group.2 ∧ group.1.ofGroup = true) {post : Bytes}
    (stops : ∀ chr ∈ post.head?, chr ∉ hexDigit ∧ ∀ group ∈ groups, chr ∉ group.2)
    {skip position : Nat} {chunk pending : Bytes} {tokens : List Token}
    (fits : skip ≤ chunk.length) (held : ∀ chr ∈ pending,
      rules.allowUnknownTokens = true ∧ isRaw rules.simple groups chr = false)
    (read : getTokens rules skip chunk.length position pending (chunk ++ post) = .ok tokens) :
    Covers (isRaw rules.simple groups) rules.allowUnknownTokens pending (chunk.drop skip)
      tokens := by
  induction chunk generalizing skip position pending tokens with
  | nil =>
    obtain rfl : skip = 0 := Nat.le_zero.mp fits
    have same : tokens = flush pending := by
      cases post <;> exact (Except.ok.inj read).symm
    rw [same]
    exact .flush held
  | cons chr chunk ih =>
    cases skip with
    | succ skip => exact ih (Nat.le_of_succ_le_succ fits) held read
    | zero =>
      rw [length_cons, cons_append, getTokens] at read
      split at read
      · cases read
      split at read
      · next simple =>
        obtain ⟨later, run, rfl⟩ := map_ok read
        have stands : ∀ other ∈ [chr], isRaw rules.simple groups other = true := by
          simp [isRaw, simple]
        have kind : Token.Kind (isRaw rules.simple groups) rules.allowUnknownTokens
            ⟨.simple chr, [chr]⟩ := .plain ⟨nofun, nofun⟩ stands
        exact (ih (Nat.zero_le _) (by simp) run).cons coded kind nofun held
      next simple =>
      rw [complex] at read
      split at read
      · next type count found =>
        rw [if_neg fun final => simple (finals chr final)] at read
        obtain ⟨later, run, rfl⟩ := map_ok read
        rcases readComplex_cases plain found with
          ⟨high, low, others, hexHigh, hexLow, rfl, text, rfl, rfl⟩ |
          ⟨group, member, inside, rfl, rfl⟩
        · obtain ⟨behind, rfl⟩ : ∃ behind, chunk = high :: low :: behind := by
            obtain _ | ⟨first, _ | ⟨second, behind⟩⟩ := chunk
            · rw [nil_append] at text
              exact absurd hexHigh (stops high (by rw [text]; rfl)).1
            · have behind : post = low :: others := (List.cons.inj text).2
              exact absurd hexLow (stops low (by rw [behind]; rfl)).1
            · obtain ⟨rfl, rest⟩ := List.cons.inj text
              obtain ⟨rfl, -⟩ := List.cons.inj rest
              exact ⟨behind, rfl⟩
          exact (ih (Nat.le_add_left 2 _) (by simp) run).cons coded (.code hexHigh hexLow) nofun
            held
        · have taken : (chr :: (chunk ++ post)).takeWhile (· ∈ group.2) =
              chr :: chunk.takeWhile (· ∈ group.2) := by
            rw [takeWhile_cons_of_pos (by simpa using inside), takeWhile_stops chunk]
            intro first here
            simpa using (stops first here).2 group member
          have front : (chr :: (chunk ++ post)).take
              ((chr :: (chunk ++ post)).takeWhile (· ∈ group.2)).length =
                chr :: chunk.takeWhile (· ∈ group.2) := by
            rw [← taken]
            exact (prefix_iff_eq_take.mp (List.takeWhile_prefix _)).symm
          rw [front]
          rw [taken] at run
          have stands : ∀ other ∈ chr :: chunk.takeWhile (· ∈ group.2),
              isRaw rules.simple groups other = true := by
            rw [← taken]
            intro other inside
            have holds := mem_takeWhile_imp inside
            exact isRaw_of_mem member (of_decide_eq_true holds)
          have other {type : TokenType} (single : type.ofGroup = false) : group.1 ≠ type :=
            TokenType.ne_of_ofGroup (plain group member).2 single
          have covers := (ih (List.takeWhile_prefix _).length_le (by simp) run).cons coded
            (.plain ⟨other rfl, other rfl⟩ stands) (other rfl) held
          rw [cons_append, prefix_iff_eq_append.mp (List.takeWhile_prefix _)] at covers
          exact covers
      · next none =>
        rw [if_neg fun final => simple (finals chr final)] at read
        split at read
        · next lenient =>
          obtain ⟨noCode, absent⟩ := readComplex_eq_none none
          have coded' : isRaw rules.simple groups chr = false := by
            simpa [isRaw, simple] using find?_eq_none.mp absent
          have held' : ∀ other ∈ pending ++ [chr],
              rules.allowUnknownTokens = true ∧ isRaw rules.simple groups other = false :=
            forall_mem_append.mpr ⟨held, forall_mem_singleton.mpr ⟨lenient, coded'⟩⟩
          have covers := ih (Nat.zero_le _) held' read
          refine ⟨by rw [covers.text_eq]; simp, covers.kinds, fun found => covers.codes ?_⟩
          rw [drop_zero, containsPctCode, Bool.or_eq_true] at found
          refine found.resolve_left fun code => ?_
          obtain _ | ⟨high, _ | ⟨low, behind⟩⟩ := chunk
          · simp [matchesAll] at code
          · simp [matchesAll] at code
          · simp [matchesAll] at code noCode
            exact absurd code.2.2 (noCode code.1 code.2.1)
        · cases read

/-! ## What the encoder writes -/

/-- The rules of the encoder refuse nothing. -/
theorem getTokens_lenient (spaces : rules.allowSpaces = true)
    (unknown : rules.allowUnknownTokens = true) (skip left position : Nat)
    (pending text : Bytes) :
    ∃ tokens, getTokens rules skip left position pending text = .ok tokens := by
  fun_induction getTokens rules skip left position pending text with
  | case1 | case3 | case6 | case8 => exact ⟨_, rfl⟩
  | case2 _ _ _ _ _ _ ih | case9 _ _ _ _ _ _ _ _ _ _ ih => exact ih
  | case4 _ _ _ _ _ space => exact absurd (spaces.symm.trans space.2) (by decide)
  | case5 _ _ _ _ _ _ _ ih | case7 _ _ _ _ _ _ _ _ _ _ _ _ ih =>
    obtain ⟨tokens, later⟩ := ih
    exact ⟨_, by rw [later]; rfl⟩
  | case10 _ _ _ _ _ _ _ _ _ refused => exact absurd unknown refused

theorem containsPctCode_behind {front rest : Bytes}
    (free : containsPctCode (front ++ rest) = false) : containsPctCode rest = false := by
  induction front with
  | nil => exact free
  | cons chr front ih => exact ih (Bool.or_eq_false_iff.mp free).2

/-- Without codes, the tokens are written as their characters one by one. -/
theorem rendered_eq (encodes : Encodes rules groups) {lenient : Bool} {tokens : List Token}
    (kinds : ∀ token ∈ tokens, token.Kind (isRaw rules.simple groups) lenient)
    (free : containsPctCode (tokens.flatMap Token.text) = false) :
    rendered tokens = encoded (isRaw rules.simple groups) (tokens.flatMap Token.text) := by
  induction tokens with
  | nil => rfl
  | cons token tokens ih =>
    obtain ⟨kind, kinds⟩ := forall_mem_cons.mp kinds
    rw [flatMap_cons] at free ⊢
    rw [rendered, flatMap_cons, ← rendered, ih kinds (containsPctCode_behind free), encoded_append]
    cases kind with
    | code hexHigh hexLow => simp [containsPctCode, matchesAll, hexHigh, hexLow] at free
    | plain known stands => rw [if_neg known.1, encoded_of_raw stands]
    | unknown _ coded => rw [if_pos rfl, pctencode_of_coded encodes coded]

theorem encodeWith_covers (encodes : Encodes rules groups) (text : Bytes) :
    ∃ tokens, encodeWith rules text = rendered tokens ∧
      Covers (isRaw rules.simple groups) rules.allowUnknownTokens [] text tokens := by
  obtain ⟨spaces, unknown, noFinal⟩ := encodes.lenient
  obtain ⟨tokens, read⟩ := getTokens_lenient spaces unknown 0 text.length 0 [] text
  have tokenized : process rules text 0 text.length = .ok tokens := read
  refine ⟨tokens, by rw [encodeWith, tokenized]; rfl, ?_⟩
  have plain : ∀ group ∈ groups, percent ∉ group.2 ∧ group.1.ofGroup = true :=
    fun group member => ⟨fun inside => Bool.false_ne_true
      (encodes.percent.symm.trans (isRaw_of_mem member inside)), encodes.known group member⟩
  exact @getTokens_covers groups rules encodes.complex encodes.percent (by simp [noFinal]) plain
    [] (by simp) 0 0 text [] tokens (Nat.zero_le _) (by simp) (by rw [append_nil]; exact read)

/-- Without percent codes in the text, each of its characters is written by itself. -/
theorem encodeWith_eq (encodes : Encodes rules groups) (free : containsPctCode text = false) :
    encodeWith rules text = encoded (isRaw rules.simple groups) text := by
  obtain ⟨tokens, written, covers⟩ := encodeWith_covers encodes text
  have text_eq : tokens.flatMap Token.text = text := covers.text_eq
  rw [written, ← text_eq]
  exact rendered_eq encodes covers.kinds (text_eq.symm ▸ free)

/-- The number of characters that a text with codes stands for. -/
def width (text : Bytes) : Int :=
  text.length - 2 * text.count percent

theorem width_append (left right : Bytes) : width (left ++ right) = width left + width right := by
  simp only [width, length_append, count_append]
  omega

theorem width_of_free {text : Bytes} (free : percent ∉ text) : width text = text.length := by
  rw [width, count_eq_zero.mpr free]
  omega

theorem width_pctencode (text : Bytes) : width (pctencode text) = text.length := by
  have one : ∀ chr, width (pctencodeChar chr) = 1 := forall_byte (by decide +kernel)
  induction text with
  | nil => rfl
  | cons chr rest ih =>
    rw [pctencode, flatMap_cons, width_append, one, ← pctencode, ih, length_cons]
    omega

theorem width_code {high low : UInt8} (hexHigh : high ∈ hexDigit) (hexLow : low ∈ hexDigit) :
    width [percent, high, low] = 1 := by
  have other {chr : UInt8} (hex : chr ∈ hexDigit) : (chr == percent) = false :=
    beq_false_of_ne fun same => absurd (same ▸ hex) (by decide)
  simp [width, count_cons, other hexHigh, other hexLow]

/-- The encoder keeps the width of all but the codes. -/
theorem width_rendered {lenient : Bool} {tokens : List Token} (coded : raw percent = false)
    (kinds : ∀ token ∈ tokens, token.Kind raw lenient) :
    width (rendered tokens) + 2 * tokens.countP (·.type = .pctEncoded) =
      (tokens.flatMap Token.text).length := by
  induction tokens with
  | nil => rfl
  | cons token tokens ih =>
    obtain ⟨kind, kinds⟩ := forall_mem_cons.mp kinds
    have later := ih kinds
    rw [rendered] at later ⊢
    rw [flatMap_cons, flatMap_cons, width_append, length_append, countP_cons, Nat.cast_add,
      Nat.cast_add, ← later]
    cases kind with
    | code hexHigh hexLow =>
      have one := width_code hexHigh hexLow
      simp [one]
      omega
    | plain known stands =>
      simp [known, width_of_free (not_mem_of_raw coded stands)]
      omega
    | unknown =>
      simp [width_pctencode]
      omega

/-- What the parser decodes has the width of what it reads. -/
theorem length_decoded {tokens : List Token} (coded : raw percent = false)
    (kinds : ∀ token ∈ tokens, token.Kind raw false) :
    ((tokens.flatMap Token.decoded).length : Int) = width (tokens.flatMap Token.text) := by
  induction tokens with
  | nil => rfl
  | cons token tokens ih =>
    obtain ⟨kind, kinds⟩ := forall_mem_cons.mp kinds
    have later := ih kinds
    rw [flatMap_cons, flatMap_cons, width_append, length_append, Nat.cast_add, later]
    cases kind with
    | code hexHigh hexLow =>
      rw [width_code hexHigh hexLow]
      simp [Token.decoded, pctdecode, hexHigh, hexLow]
    | plain known stands =>
      simp [Token.decoded, known, width_of_free (not_mem_of_raw coded stands)]
    | unknown allowed => cases allowed

/-- What the encoder writes is not wider than the text, and narrower where it has a code. -/
theorem width_encodeWith (encodes : Encodes rules groups) (text : Bytes) :
    width (encodeWith rules text) ≤ text.length ∧
      (text.length < width (encodeWith rules text) + 2 → containsPctCode text = false) := by
  obtain ⟨tokens, written, covers⟩ := encodeWith_covers encodes text
  have wide := width_rendered encodes.percent covers.kinds
  rw [covers.text_eq, nil_append] at wide
  rw [written]
  refine ⟨by omega, fun short => Bool.eq_false_iff.mpr fun found => ?_⟩
  obtain ⟨code, member, type⟩ := covers.codes found
  have counted : 0 < tokens.countP (·.type = .pctEncoded) :=
    countP_pos_iff.mpr ⟨code, member, by simp [type]⟩
  omega

/-- The encoder writes raw characters and codes. -/
theorem not_mem_encodeWith (encodes : Encodes rules groups)
    (reserved : isRaw rules.simple groups chr = false) (notPercent : chr ≠ percent)
    (text : Bytes) : chr ∉ encodeWith rules text := by
  obtain ⟨tokens, written, covers⟩ := encodeWith_covers encodes text
  have other : chr ∉ unreserved := fun member =>
    Bool.false_ne_true (reserved.symm.trans (encodes.unreserved chr member))
  rw [written]
  intro member
  obtain ⟨token, inside, member⟩ := mem_flatMap.mp member
  cases covers.kinds token inside with
  | code hexHigh hexLow =>
    simp only [reduceCtorEq, if_false, mem_cons, not_mem_nil, or_false] at member
    obtain rfl | rfl | rfl := member
    · exact notPercent rfl
    · exact other (hexDigit_subset hexHigh)
    · exact other (hexDigit_subset hexLow)
  | plain known stands =>
    rw [if_neg known.1] at member
    exact not_mem_of_raw reserved stands member
  | unknown =>
    have coded : ∀ chr, ∀ other ∈ pctencodeChar chr, other = percent ∨ other ∈ unreserved :=
      forall_byte (by decide +kernel)
    obtain ⟨origin, -, code⟩ := mem_flatMap.mp member
    exact (coded origin chr code).elim notPercent other

/-- The tokens of a chunk of the input. -/
theorem process_chunk (rules : Rules) (front chunk rest : Bytes) :
    process rules (front ++ (chunk ++ rest)) front.length (front.length + chunk.length) =
      getTokens rules 0 chunk.length front.length [] (chunk ++ rest) := by
  rw [process, drop_left, Nat.add_sub_cancel_left]

end MariadbShell.Uri
