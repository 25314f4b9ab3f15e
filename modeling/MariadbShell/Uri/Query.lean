import MariadbShell.Uri.PercentCode

/-!
# The query

How the parser reads back the attributes of the query. Parentheses stand for themselves in the
values that the encoder writes, but a value that begins with one is taken for an unencoded
value as soon as there is a closing one behind it, be it in the value of another attribute.
-/

namespace MariadbShell.Uri

open List
open ImportTable (Bytes ascii)
open Lib.Search
open Sql List.Subset Chr

set_option maxRecDepth 2000

/-! ## Rules -/

def valueGroups : List (TokenType × Bytes) :=
  [(.unreserved, unreserved), (.delims, valueDelimiters)]

def valueRaw : UInt8 → Bool :=
  isRaw [] valueGroups

theorem valueRaw_eq (chr : UInt8) :
    valueRaw chr = decide (isAlnum chr = true ∨ chr ∈ marks ++ valueDelimiters) :=
  isRaw_eq _ (fun chr => by simp [valueGroups]) chr

theorem encodes_value : Encodes encodeValueRules valueGroups :=
  .of_raw rfl ⟨rfl, rfl, rfl⟩ valueRaw_eq (by decide) (by decide)

def encodedGroups : List (TokenType × Bytes) :=
  [(.unreserved, unreserved),
    (.delims, (valueDelimiters ++ [colon, comma]).filter fun chr => chr ∉ [38] ++ [])]

theorem readsBack_value :
    ReadsBack (parseEncodedRules false [38] []) encodedGroups (fun _ => .pctEncoded) valueRaw :=
  .of_groups rfl (refl _) (by
      simp only [valueGroups, encodedGroups, forall_mem_cons]
      refine ⟨⟨_, .head _, refl _⟩, ⟨_, .tail _ (.head _), by decide⟩, nofun⟩)
    (by decide) valueRaw_eq (by decide) (by decide) (by
      simp only [encodedGroups, forall_mem_cons, mem_unreserved]
      decide)

theorem encodedGroups_free : ∀ group ∈ encodedGroups, 38 ∉ group.2 := by
  simp only [encodedGroups, forall_mem_cons, mem_unreserved]
  decide

def unencodedGroups : List (TokenType × Bytes) :=
  [(.unreserved, unreserved ++ [backslash]), (.delims, delimiters)]

def unencodedRaw : UInt8 → Bool :=
  isRaw [] [(.unreserved, unreserved)]

theorem unencodedRaw_eq (chr : UInt8) :
    unencodedRaw chr = decide (isAlnum chr = true ∨ chr ∈ marks ++ []) :=
  isRaw_eq _ (fun chr => by simp) chr

theorem readsBack_unencoded :
    ReadsBack (parseUnencodedRules false) unencodedGroups (fun _ => .pctEncoded) unencodedRaw :=
  .of_groups rfl (refl _) (by
      simp only [unencodedGroups, forall_mem_cons]
      refine ⟨⟨_, .head _, subset_append_left _ _⟩, nofun⟩)
    (by decide) unencodedRaw_eq (by decide) (by decide) (by
      simp only [unencodedGroups, forall_mem_cons, mem_append, mem_unreserved]
      decide)

theorem unencodedGroups_free : ∀ chr ∈ [closeParenthesis, 38], ∀ group ∈ unencodedGroups,
    chr ∉ group.2 := by
  simp only [unencodedGroups, forall_mem_cons, mem_append, mem_unreserved]
  decide

theorem unencodedRaw_refused (chr : UInt8) (stands : valueRaw chr = true)
    (unknown : unencodedRaw chr = false) :
    chr ∉ (parseUnencodedRules false).simple ∧ (∀ group ∈ unencodedGroups, chr ∉ group.2) ∧
      chr ∉ (parseUnencodedRules false).finalGroup ∧ chr ≠ percent := by
  have delimiter : chr ∈ valueDelimiters := by
    simp [valueRaw, unencodedRaw, isRaw, valueGroups] at stands unknown
    exact stands.resolve_left unknown
  have all : ∀ chr ∈ valueDelimiters, chr ∉ (parseUnencodedRules false).simple ∧
      (∀ group ∈ unencodedGroups, chr ∉ group.2) ∧
        chr ∉ (parseUnencodedRules false).finalGroup ∧ chr ≠ percent := by
    simp only [unencodedGroups, forall_mem_cons, mem_append, mem_unreserved]
    decide
  exact all chr delimiter

def attributeGroups : List (TokenType × Bytes) :=
  [(.unreserved, unreserved), (.subDelims, attributeDelimiters)]

def attributeRaw : UInt8 → Bool :=
  isRaw [] attributeGroups

theorem attributeRaw_eq (chr : UInt8) :
    attributeRaw chr = decide (isAlnum chr = true ∨ chr ∈ marks ++ attributeDelimiters) :=
  isRaw_eq _ (fun chr => by simp [attributeGroups]) chr

theorem encodes_attribute : Encodes encodeAttributeRules attributeGroups :=
  .of_raw rfl ⟨rfl, rfl, rfl⟩ attributeRaw_eq (by decide) (by decide)

theorem readsBack_attribute :
    ReadsBack parseAttributeRules attributeGroups (fun _ => .pctEncoded) attributeRaw :=
  .of_groups rfl (refl _) (fun group member => ⟨group, member, refl _⟩)
    (by decide) attributeRaw_eq (by decide) (by decide) (by
      simp only [attributeGroups, forall_mem_cons, mem_unreserved]
      decide)

/-! ## Values -/

/-- What is left of the query behind a value. -/
def BehindValue (rest : Bytes) : Prop :=
  ∀ chr ∈ rest.head?, chr = 38

/-- A character of the final group ends the reading. -/
theorem getTokens_final {rules : Rules} {chr : UInt8} (final : chr ∈ rules.finalGroup)
    (calm : isSpace chr = false) (complex : chr ∉ rules.simple)
    (noRule : ∀ rest, readComplex rules.complex (chr :: rest) = none) (left position : Nat)
    (rest : Bytes) :
    getTokens rules 0 (left + 1) position [] (chr :: rest) = .ok [⟨.final, chr :: rest⟩] := by
  rw [getTokens, if_neg (by simp [calm]), if_neg complex, noRule]
  simp [final, flush]

variable {rest : Bytes}

/-- An encoded value is read up to the next attribute. -/
theorem parseEncodedValue_value (front value : Bytes) (behind : BehindValue rest) :
    parseEncodedValue false (front ++ (encoded valueRaw value ++ rest))
        (front.length, (front ++ (encoded valueRaw value ++ rest)).length) [38] [] =
      .ok (value, (encoded valueRaw value).length) := by
  have stops : ∀ chr ∈ rest.head?, ∀ group ∈ encodedGroups, chr ∉ group.2 := by
    intro chr head
    rw [behind chr head]
    exact encodedGroups_free
  obtain ⟨last, tail, finals⟩ : ∃ last : List Token,
      getTokens (parseEncodedRules false [38] []) 0 rest.length
        (front.length + (encoded valueRaw value).length) [] rest = .ok last ∧
      ∀ token ∈ last, token.type = .final := by
    cases rest with
    | nil => exact ⟨[], rfl, by simp⟩
    | cons chr rest =>
      obtain rfl := behind chr rfl
      refine ⟨_, getTokens_final (by decide) (by decide) (by decide)
        (readsBack_value.readComplex_none (by decide) encodedGroups_free) _ _ _, by simp⟩
  have size : (front ++ (encoded valueRaw value ++ rest)).length - front.length =
      rest.length + (encoded valueRaw value).length := by
    simp
    omega
  have inner : (codedTokens (parseEncodedRules false [38] []).simple encodedGroups
      (fun _ => .pctEncoded) valueRaw 0 value ++ last).takeWhile (·.type ≠ .final) =
        codedTokens (parseEncodedRules false [38] []).simple encodedGroups
          (fun _ => .pctEncoded) valueRaw 0 value := by
    rw [takeWhile_append_of_pos fun token member =>
      decide_eq_true (codedTokens_type readsBack_value value token member).1]
    cases last with
    | nil => simp
    | cons token last => simp [finals token mem_cons_self]
  rw [parseEncodedValue, process, drop_left, size,
    getTokens_encoded readsBack_value value stops, tail]
  simp only [Except.map, Functor.map, ok_bind, inner]
  rw [codedTokens_decoded readsBack_value, codedTokens_text readsBack_value]
  rfl

/-- Whether a value is taken for one in parentheses. -/
def Parenthesised (value rest : Bytes) : Prop :=
  value.head? = some openParenthesis ∧ closeParenthesis ∈ value ++ rest

theorem parenthesis_mem_encoded {value : Bytes}
    (member : closeParenthesis ∈ encoded valueRaw value) : closeParenthesis ∈ value := by
  obtain ⟨-, inside⟩ | percent | hex := mem_encoded member
  · exact inside
  · cases percent
  · exact absurd hex (by decide)

/-- What stands at the first place of a value. -/
theorem getElem?_value (front value rest : Bytes) :
    (front ++ (encoded valueRaw value ++ rest))[front.length]? =
      (encoded valueRaw value ++ rest).head? := by
  rw [getElem?_append_right (Nat.le_refl _), Nat.sub_self, head?_eq_getElem?]

variable {value rest : Bytes}

theorem head?_value (behind : BehindValue rest)
    (opened : (encoded valueRaw value ++ rest).head? = some openParenthesis) :
    value.head? = some openParenthesis := by
  cases value with
  | nil => exact absurd (behind _ opened) (by decide)
  | cons chr value =>
    rw [encoded_cons, encodeChar] at opened
    split at opened
    · simpa using opened
    · exact absurd opened (by simp [pctCode]; decide)

variable (front : Bytes)

/-- Other values are read back. -/
theorem parseValue_value (behind : BehindValue rest) (plain : ¬ Parenthesised value rest) :
    parseValue false (front ++ (encoded valueRaw value ++ rest))
        (front.length, (front ++ (encoded valueRaw value ++ rest)).length) [38] [] =
      .ok (value, front.length + (encoded valueRaw value).length) := by
  rw [parseValue, parseEncodedValue_value front value behind]
  split
  · next opened =>
    rw [getElem?_value] at opened
    have absent : closeParenthesis ∉ encoded valueRaw value ++ rest := by
      intro member
      refine plain ⟨head?_value behind opened, ?_⟩
      obtain inside | later := mem_append.mp member
      · exact mem_append_left _ (parenthesis_mem_encoded inside)
      · exact mem_append_right _ later
    rw [find_symbol_none absent front]
    rfl
  · rfl

/-- A part of a value that stands in parentheses is refused, or none of its characters is a
delimiter. -/
theorem unencoded_cases (text : Bytes) :
    (∀ left position post, ∃ error, getTokens (parseUnencodedRules false) 0
      (left + (encoded valueRaw text).length) position [] (encoded valueRaw text ++ post) =
        .error error) ∨
    encoded valueRaw text = encoded unencodedRaw text := by
  have inner : ∀ chr, unencodedRaw chr = true → valueRaw chr = true :=
    fun chr => isRaw_mono (refl _) (by decide)
  by_cases found : ∃ chr ∈ text, valueRaw chr = true ∧ unencodedRaw chr = false
  · exact .inl (getTokens_refused readsBack_unencoded inner unencodedRaw_refused rfl found)
  · refine .inr (encoded_congr fun chr member => ?_)
    cases taken : unencodedRaw chr with
    | true => exact inner chr taken
    | false =>
      by_contra stands
      exact found ⟨chr, member, by simpa using stands, taken⟩

/-- The reading of a value in parentheses. -/
theorem parseValue_opened {text : Bytes} (absent : closeParenthesis ∉ text)
    (rest finalizers forbidden : Bytes) :
    parseValue false (front ++ openParenthesis :: (text ++ closeParenthesis :: rest))
        (front.length, (front ++ openParenthesis :: (text ++ closeParenthesis :: rest)).length)
        finalizers forbidden =
      (fun tokens => (tokens.flatMap Token.decoded,
        front.length + 1 + (tokens.flatMap Token.text).length + 1)) <$>
          getTokens (parseUnencodedRules false) 0 text.length (front.length + 1) []
            (text ++ closeParenthesis :: rest) := by
  have absent' : closeParenthesis ∉ openParenthesis :: text := by
    rw [mem_cons, not_or]
    exact ⟨by decide, absent⟩
  have closing := find_symbol absent' front rest
  have chunk := process_chunk (parseUnencodedRules false) (front ++ [openParenthesis]) text
    (closeParenthesis :: rest)
  rw [append_assoc, singleton_append, length_append, length_singleton] at chunk
  rw [cons_append, length_cons] at closing
  rw [parseValue, if_pos (by simp), closing]
  simp only
  rw [if_pos (by simp), parseUnencodedValue]
  rw [Nat.add_comm text.length 1, ← Nat.add_assoc, chunk]
  cases getTokens (parseUnencodedRules false) 0 text.length (front.length + 1) []
    (text ++ closeParenthesis :: rest) <;> rfl

/-- A value in parentheses is what stands between them. -/
theorem parseValue_between {text : Bytes} (absent : closeParenthesis ∉ text)
    (rest : Bytes) {value : Bytes} {offset : Nat}
    (read : parseValue false
      (front ++ openParenthesis :: (encoded valueRaw text ++ closeParenthesis :: rest))
      (front.length, (front ++ openParenthesis ::
        (encoded valueRaw text ++ closeParenthesis :: rest)).length) [38] [] =
          .ok (value, offset)) : value = text := by
  rw [parseValue_opened front (mt parenthesis_mem_encoded absent)] at read
  obtain refused | same := unencoded_cases text
  · obtain ⟨error, failed⟩ := refused 0 (front.length + 1) (closeParenthesis :: rest)
    rw [Nat.zero_add] at failed
    rw [failed] at read
    cases read
  · rw [same, getTokens_encoded_end readsBack_unencoded text
      (stops_cons (unencodedGroups_free _ (by simp)) rest)] at read
    cases read
    exact codedTokens_decoded readsBack_unencoded text

/-- The next attribute does not stand in parentheses. -/
theorem parseValue_beyond (front text : Bytes) (absent : closeParenthesis ∉ text) {more : Bytes}
    (open' : closeParenthesis ∉ more) (rest : Bytes) :
    ∃ error, parseValue false (front ++ openParenthesis ::
        (encoded valueRaw text ++ 38 :: more ++ closeParenthesis :: rest))
      (front.length, (front ++ openParenthesis ::
        (encoded valueRaw text ++ 38 :: more ++ closeParenthesis :: rest)).length) [38] [] =
          .error error := by
  have absent' : closeParenthesis ∉ encoded valueRaw text ++ 38 :: more := by
    rw [mem_append, mem_cons, not_or, not_or]
    exact ⟨mt parenthesis_mem_encoded absent, by decide, open'⟩
  rw [parseValue_opened front absent']
  have size : (encoded valueRaw text ++ 38 :: more).length =
      more.length + 1 + (encoded valueRaw text).length := by
    simp
    omega
  rw [size, append_assoc, cons_append]
  obtain refused | same := unencoded_cases text
  · obtain ⟨error, failed⟩ := refused (more.length + 1) (front.length + 1)
      (38 :: (more ++ closeParenthesis :: rest))
    exact ⟨error, by rw [failed]; rfl⟩
  · have noGroup := unencodedGroups_free 38 (by simp)
    obtain ⟨error, failed⟩ := getTokens_illegal
      (by simp [parseUnencodedRules] : 38 ∉ (parseUnencodedRules false).simple)
      (readsBack_unencoded.readComplex_none (by decide) noGroup) (by simp [parseUnencodedRules]) rfl
      more.length (front.length + 1 + (encoded unencodedRaw text).length)
      (more ++ closeParenthesis :: rest)
    refine ⟨error, ?_⟩
    rw [same, getTokens_encoded readsBack_unencoded text (stops_cons noGroup _), failed]
    rfl

/-- A value that is taken for one in parentheses does not come back. -/
theorem parseValue_parenthesised (behind : BehindValue rest)
    (taken : Parenthesised value rest) {value' : Bytes} {offset : Nat}
    (read : parseValue false (front ++ (encoded valueRaw value ++ rest))
      (front.length, (front ++ (encoded valueRaw value ++ rest)).length) [38] [] =
      .ok (value', offset)) :
    value' ≠ value := by
  obtain ⟨opened, closed⟩ := taken
  obtain ⟨mid, rfl⟩ : ∃ mid, value = openParenthesis :: mid := head?_eq_some_iff.mp opened
  have stands : valueRaw openParenthesis = true ∧ valueRaw closeParenthesis = true := by
    rw [valueRaw_eq, valueRaw_eq]
    decide
  by_cases inside : closeParenthesis ∈ mid
  · obtain ⟨before, after, rfl, absent⟩ := eq_append_cons_of_mem inside
    have written : encoded valueRaw (openParenthesis :: (before ++ closeParenthesis ::
        after)) ++ rest = openParenthesis :: (encoded valueRaw before ++ closeParenthesis ::
          (encoded valueRaw after ++ rest)) := by
      simp [encodeChar, stands]
    rw [written] at read
    obtain rfl := parseValue_between front absent _ read
    intro same
    have length := congrArg List.length same
    simp at length
    omega
  · have later : closeParenthesis ∈ rest := by
      simp only [cons_append, mem_cons, mem_append, inside, false_or] at closed
      exact closed.resolve_left (by decide)
    obtain ⟨more, rfl⟩ : ∃ more, rest = 38 :: more := by
      obtain ⟨chr, more, rfl⟩ := exists_cons_of_ne_nil (ne_nil_of_mem later)
      exact ⟨more, by rw [behind chr rfl]⟩
    have later : closeParenthesis ∈ more := by
      refine (mem_cons.mp later).resolve_left (by decide)
    obtain ⟨before, after, rfl, absent⟩ := eq_append_cons_of_mem later
    obtain ⟨error, failed⟩ := parseValue_beyond front mid inside absent after
    have written : encoded valueRaw (openParenthesis :: mid) ++
        38 :: (before ++ closeParenthesis :: after) = openParenthesis ::
          (encoded valueRaw mid ++ 38 :: before ++ closeParenthesis :: after) := by
      simp [encodeChar, stands]
    rw [written, failed] at read
    cases read

/-! ## Attributes -/

/-- The names of fields, which `set` does not add to the attributes. -/
def fieldNames : List Bytes :=
  [Key.scheme, Key.user, Key.password, Key.host, Key.socket, Key.pipe, Key.schema]

theorem set_attribute {name : Bytes} (other : ∀ field ∈ fieldNames, caseEq name field = false)
    (data : ConnectionData) (value : Bytes) :
    data.set name value = data.addAttribute name value := by
  simp only [fieldNames, forall_mem_cons] at other
  simp [ConnectionData.set, other]

/-- Attributes are only added. -/
theorem set_attributes (data : ConnectionData) (name value : Bytes) :
    data.attributes <+: (data.set name value).attributes := by
  unfold ConnectionData.set
  split_ifs
  all_goals first | exact prefix_rfl | exact prefix_append _ _

theorem setConnectionAttribute_attributes {data data' : ConnectionData} {key value : Bytes}
    (done : data.setConnectionAttribute key value = .ok data') :
    data'.attributes = data.attributes := by
  unfold ConnectionData.setConnectionAttribute at done
  split_ifs at done
  cases done
  rfl

theorem setConnectionAttributes_attributes {data data' : ConnectionData} {pairs : List Bytes}
    (done : data.setConnectionAttributes pairs = .ok data') :
    data'.attributes = data.attributes := by
  unfold ConnectionData.setConnectionAttributes at done
  induction pairs generalizing data with
  | nil =>
    cases done
    rfl
  | cons pair pairs ih =>
    rw [foldlM_cons] at done
    obtain ⟨next, first, later⟩ := bind_ok done
    refine (ih later).trans ?_
    unfold ConnectionData.setConnectionPair at first
    split at first
    · cases first
      rfl
    · split at first
      · exact setConnectionAttribute_attributes first
      · exact setConnectionAttribute_attributes first
      · cases first

theorem setValues_attributes {data data' : ConnectionData} {name : Bytes} {values : List Bytes}
    (done : data.setValues name values = .ok data') : data.attributes <+: data'.attributes := by
  unfold ConnectionData.setValues at done
  split_ifs at done
  · rw [setConnectionAttributes_attributes done]
  · cases done
    exact prefix_append _ _
  · cases done
    exact prefix_append _ _

/-- An attribute of the query with a value. -/
structure Attribute where
  name : Bytes
  value : Bytes
  /-- names consist of unreserved characters, as those of `query_attributes` do -/
  plain : ∀ chr ∈ name, chr ∈ unreserved
  other : ∀ field ∈ fieldNames, caseEq name field = false

namespace Attribute

def pair (entry : Attribute) : Bytes × Option Bytes :=
  (entry.name, some entry.value)

def text (entry : Attribute) : Bytes :=
  entry.name ++ equal :: encoded valueRaw entry.value

end Attribute

def moreAttributes (attributes : List Attribute) : Bytes :=
  attributes.flatMap fun entry => 38 :: entry.text

theorem behindValue_more (attributes : List Attribute) :
    BehindValue (moreAttributes attributes) := by
  cases attributes <;> simp [BehindValue, moreAttributes, eq_comm]

theorem length_le_more (entries : List Attribute) :
    entries.length ≤ (moreAttributes entries).length := by
  induction entries with
  | nil => exact Nat.le_refl _
  | cons entry others ih =>
    rw [moreAttributes, flatMap_cons, length_append, ← moreAttributes]
    simp
    omega

theorem Attribute.parenthesis_mem_text (entry : Attribute) :
    closeParenthesis ∈ entry.text ↔ closeParenthesis ∈ entry.value := by
  have reserved : closeParenthesis ∉ unreserved := by
    rw [mem_unreserved]
    decide
  have stands : valueRaw closeParenthesis = true := (valueRaw_eq _).trans (by decide)
  rw [Attribute.text, mem_append, mem_cons]
  constructor
  · rintro (inside | same | inside)
    · exact absurd (entry.plain _ inside) reserved
    · cases same
    · exact parenthesis_mem_encoded inside
  · intro inside
    refine .inr (.inr (mem_flatMap.mpr ⟨_, inside, ?_⟩))
    simp [encodeChar, stands]

theorem parenthesis_mem_more {entries : List Attribute} :
    closeParenthesis ∈ moreAttributes entries ↔
      ∃ entry ∈ entries, closeParenthesis ∈ entry.value := by
  have other : closeParenthesis ≠ 38 := by decide
  simp [moreAttributes, Attribute.parenthesis_mem_text, other]

theorem attributeRaw_of_unreserved {chr : UInt8} (member : chr ∈ unreserved) :
    attributeRaw chr = true :=
  encodes_attribute.unreserved chr member

/-- The tokens of a name, and what stands behind it. -/
theorem process_name {name : Bytes} (plain : ∀ chr ∈ name, chr ∈ unreserved) (rest : Bytes) :
    process parseAttributeRules (front ++ (name ++ equal :: rest)) front.length
        (front ++ (name ++ equal :: rest)).length =
      .ok (codedTokens parseAttributeRules.simple attributeGroups (fun _ => .pctEncoded)
        attributeRaw 0 name ++ [⟨.final, equal :: rest⟩]) := by
  have written : encoded attributeRaw name = name :=
    encoded_of_raw fun chr member => attributeRaw_of_unreserved (plain chr member)
  have noGroup : ∀ group ∈ attributeGroups, equal ∉ group.2 := by
    decide
  have tokens := getTokens_encoded readsBack_attribute name (stops_cons noGroup rest)
    (rest.length + 1) front.length
  rw [getTokens_final (by decide) (by decide) (by decide)
    (readsBack_attribute.readComplex_none (by decide) noGroup), written] at tokens
  have size : (front ++ (name ++ equal :: rest)).length - front.length =
      rest.length + 1 + name.length := by
    simp
    omega
  rw [process, drop_left, size, tokens]
  rfl

/-- Values are not written as arrays. -/
theorem isValueArray_value (front value : Bytes) (behind : BehindValue rest) (stop : Nat) :
    isValueArray (front ++ (encoded valueRaw value ++ rest)) (front.length, stop) = false := by
  have other : (encoded valueRaw value ++ rest).head? ≠ some 91 := by
    intro bracket
    cases value with
    | nil => exact absurd (behind _ bracket) (by decide)
    | cons chr value =>
      have filled : encoded valueRaw (chr :: value) ≠ [] := mt encoded_eq_nil.mp (by simp)
      rw [head?_append_of_ne_nil _ filled] at bracket
      exact @not_mem_encoded 91 valueRaw (chr :: value) ((valueRaw_eq _).trans (by decide))
        (by decide)
        (mem_of_mem_head? bracket)
  rw [isValueArray, getElem?_value, decide_eq_false other, Bool.false_and]

section

variable {input front : Bytes} {separator : UInt8} {entry : Attribute}
  (input_eq : input = front ++ separator :: (entry.text ++ rest))

include input_eq

/-- Where the value of an attribute begins. -/
theorem text_value :
    front ++ separator :: entry.name ++ [equal] ++ (encoded valueRaw entry.value ++ rest) = input ∧
      (front ++ separator :: entry.name ++ [equal]).length =
        front.length + 1 + entry.name.length + 1 := by
  constructor
  · simp [input_eq, Attribute.text]
  · simp
    omega

/-- The name of an attribute is read; what remains is to read its value. -/
theorem parseAttribute_eq (behind : BehindValue rest) (data : ConnectionData) :
    parseAttribute input input.length front.length data =
      (fun read => (data.set entry.name read.1, read.2)) <$>
        parseValue false input (front.length + 1 + entry.name.length + 1, input.length) [38]
          [] := by
  have named := process_name (front ++ [separator]) entry.plain
    (encoded valueRaw entry.value ++ rest)
  have noArray := isValueArray_value (front ++ separator :: entry.name ++ [equal]) entry.value
    behind input.length
  obtain ⟨whole, position⟩ := text_value input_eq
  have start : (front ++ [separator]).length = front.length + 1 := by simp
  have same : front ++ [separator] ++ (entry.name ++ equal ::
      (encoded valueRaw entry.value ++ rest)) = input := by
    simp [← whole]
  rw [same, start] at named
  rw [whole, position] at noArray
  have taken : ∀ token ∈ codedTokens parseAttributeRules.simple attributeGroups
      (fun _ => .pctEncoded) attributeRaw 0 entry.name, decide (token.type ≠ .final) = true :=
    fun token member => decide_eq_true (codedTokens_type readsBack_attribute _ token member).1
  have decoded := codedTokens_decoded readsBack_attribute entry.name
  rw [parseAttribute, named]
  simp only [ok_bind, takeWhile_append_of_pos taken, dropWhile_append_of_pos taken]
  simp [decoded, noArray]

end

/-! ## The loop -/

def ValuesReadable : List Attribute → Prop
  | [] => True
  | entry :: others =>
    (entry.value.head? = some openParenthesis → closeParenthesis ∉ entry.value ∧
      ∀ other ∈ others, closeParenthesis ∉ other.value) ∧
    ValuesReadable others

instance decidableValuesReadable : (entries : List Attribute) → Decidable (ValuesReadable entries)
  | [] => inferInstanceAs (Decidable True)
  | _ :: others =>
    haveI := decidableValuesReadable others
    inferInstanceAs (Decidable (_ ∧ _))

theorem valuesReadable_cons (entry : Attribute) (others : List Attribute) :
    ValuesReadable (entry :: others) ↔
      ¬ Parenthesised entry.value (moreAttributes others) ∧ ValuesReadable others := by
  rw [ValuesReadable, Parenthesised, mem_append, parenthesis_mem_more]
  simp only [not_and, not_or, not_exists]

/-- One round of the loop. -/
theorem parseQuery_round {input : Bytes} {stop offset : Nat} (inside : offset + 1 < stop)
    (rounds : Nat) (data : ConnectionData) :
    parseQuery input stop (rounds + 1) offset data =
      (parseAttribute input stop offset data >>= fun read =>
        parseQuery input stop rounds read.2 read.1) := by
  rw [parseQuery, if_pos inside]

theorem inside_of_eq {input front : Bytes} {separator : UInt8} {entry : Attribute}
    (input_eq : input = front ++ separator :: (entry.text ++ rest)) :
    front.length + 1 < input.length := by
  simp [input_eq, Attribute.text]

variable {input front : Bytes} {separator : UInt8} {entry : Attribute} {others : List Attribute}

/-- A round that reads an attribute back. -/
theorem parseQuery_entry
    (input_eq : input = front ++ separator :: (entry.text ++ moreAttributes others))
    (plain : ¬ Parenthesised entry.value (moreAttributes others)) (rounds : Nat)
    (data : ConnectionData) :
    parseQuery input input.length (rounds + 1) front.length data =
      parseQuery input input.length rounds (front ++ separator :: entry.text).length
        { data with attributes := data.attributes ++ [entry.pair] } := by
  have behind := behindValue_more others
  have value := parseValue_value (front ++ separator :: entry.name ++ [equal]) behind plain
  obtain ⟨whole, start⟩ := text_value input_eq
  have stop : front.length + 1 + entry.name.length + 1 + (encoded valueRaw entry.value).length =
      (front ++ separator :: entry.text).length := by
    simp [Attribute.text]
    omega
  rw [whole, start, stop] at value
  rw [parseQuery_round (inside_of_eq input_eq), parseAttribute_eq input_eq behind, value]
  simp only [Except.map, Functor.map, ok_bind, set_attribute entry.other]
  rfl

theorem more_whole {next : Attribute}
    (input_eq : input = front ++ separator :: (entry.text ++ moreAttributes (next :: others))) :
    input = front ++ separator :: entry.text ++ 38 :: (next.text ++ moreAttributes others) := by
  simp [input_eq, moreAttributes]

/-- Readable attributes are read back. -/
theorem parseQuery_readable
    (input_eq : input = front ++ separator :: (entry.text ++ moreAttributes others))
    (readable : ValuesReadable (entry :: others)) {rounds : Nat} (enough : others.length < rounds)
    (data : ConnectionData) :
    parseQuery input input.length rounds front.length data =
      .ok { data with attributes := data.attributes ++ (entry :: others).map Attribute.pair } := by
  obtain _ | rounds := rounds
  · omega
  obtain ⟨plain, later⟩ := (valuesReadable_cons entry others).mp readable
  rw [parseQuery_entry input_eq plain]
  induction others generalizing front separator entry rounds data with
  | nil =>
    cases rounds with
    | zero => rfl
    | succ rounds =>
      rw [parseQuery, if_neg (by simp [input_eq, moreAttributes])]
      rfl
  | cons next others ih =>
    obtain ⟨rounds, rfl⟩ : ∃ left, rounds = left + 1 :=
      ⟨rounds - 1, by rw [length_cons] at enough; omega⟩
    obtain ⟨plainNext, laterNext⟩ := (valuesReadable_cons next others).mp later
    rw [parseQuery_entry (more_whole input_eq) plainNext,
      ih (more_whole input_eq) later _ rounds (by simpa using enough) plainNext laterNext]
    simp

/-- Attributes that have been read stay. -/
theorem parseAttribute_attributes {input : Bytes} {stop offset offset' : Nat}
    {data data' : ConnectionData}
    (read : parseAttribute input stop offset data = .ok (data', offset')) :
    data.attributes <+: data'.attributes := by
  obtain ⟨tokens, -, read⟩ := bind_ok read
  dsimp only at read
  split_ifs at read
  · obtain ⟨values, -, read⟩ := bind_ok read
    obtain ⟨next, done, read⟩ := bind_ok read
    cases read
    exact setValues_attributes done
  · obtain ⟨value, -, read⟩ := bind_ok read
    cases read
    exact set_attributes _ _ _
  · cases read
    exact set_attributes _ _ _

theorem parseQuery_attributes {input : Bytes} {stop rounds offset : Nat}
    {data data' : ConnectionData} (read : parseQuery input stop rounds offset data = .ok data') :
    data.attributes <+: data'.attributes := by
  induction rounds generalizing offset data with
  | zero =>
    cases read
    exact prefix_rfl
  | succ rounds ih =>
    rw [parseQuery] at read
    split_ifs at read
    · obtain ⟨result, round, later⟩ := bind_ok read
      exact (parseAttribute_attributes round).trans (ih later)
    · cases read
      exact prefix_rfl

/-- An attribute whose value is taken for one in parentheses does not come back. -/
theorem parseQuery_parenthesised
    (input_eq : input = front ++ separator :: (entry.text ++ rest)) (behind : BehindValue rest)
    (taken : Parenthesised entry.value rest) {rounds : Nat} {data data' : ConnectionData}
    (read : parseQuery input input.length (rounds + 1) front.length data = .ok data')
    (later : List (Bytes × Option Bytes)) :
    data'.attributes ≠ data.attributes ++ entry.pair :: later := by
  rw [parseQuery_round (inside_of_eq input_eq), parseAttribute_eq input_eq behind] at read
  obtain ⟨⟨next, offset⟩, round, read⟩ := bind_ok read
  obtain ⟨⟨value, offset'⟩, valueRead, same⟩ := bind_ok round
  cases same
  have differs : value ≠ entry.value := by
    obtain ⟨whole, start⟩ := text_value input_eq
    rw [← whole, ← start] at valueRead
    exact parseValue_parenthesised _ behind taken valueRead
  have kept := parseQuery_attributes read
  rw [set_attribute entry.other] at kept
  intro all
  rw [all] at kept
  obtain ⟨more, same⟩ := kept
  have firsts := append_cancel_left ((append_assoc _ _ _).symm.trans same)
  simp [Attribute.pair] at firsts
  exact differs firsts.1

/-- Other attributes do not come back. -/
theorem parseQuery_misread
    (input_eq : input = front ++ separator :: (entry.text ++ moreAttributes others))
    (unreadable : ¬ ValuesReadable (entry :: others)) {rounds : Nat}
    (enough : others.length < rounds) {data data' : ConnectionData}
    (read : parseQuery input input.length rounds front.length data = .ok data') :
    data'.attributes ≠ data.attributes ++ (entry :: others).map Attribute.pair := by
  induction others generalizing front separator entry rounds data with
  | nil =>
    obtain _ | rounds := rounds
    · omega
    by_cases taken : Parenthesised entry.value (moreAttributes [])
    · exact parseQuery_parenthesised input_eq (behindValue_more []) taken read _
    · exact absurd ((valuesReadable_cons entry []).mpr ⟨taken, trivial⟩) unreadable
  | cons next others ih =>
    obtain _ | rounds := rounds
    · omega
    by_cases taken : Parenthesised entry.value (moreAttributes (next :: others))
    · exact parseQuery_parenthesised input_eq (behindValue_more _) taken read _
    · have later : ¬ ValuesReadable (next :: others) := fun readable =>
        unreadable ((valuesReadable_cons entry _).mpr ⟨taken, readable⟩)
      rw [parseQuery_entry input_eq taken] at read
      have lost := ih (more_whole input_eq) later (by simpa using enough) read
      simpa using lost

end MariadbShell.Uri
