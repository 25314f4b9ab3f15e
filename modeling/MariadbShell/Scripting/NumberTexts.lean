import MariadbShell.Lib.Decimal
import MariadbShell.Sql.Spans

/-!
# Number texts

`Value::parse` recognises a number with an automaton and converts an integer with `atoll`,
which gives the nearest 64-bit integer for a number that does not fit. Maps, arrays and
strings are read by a function that is given.
-/

namespace MariadbShell.Scripting

open List Lib.Decimal Sql Chr
open ImportTable (Bytes ascii)

/-- The exception `Exception::parser_error`. -/
structure ParserError where
  message : Bytes
deriving DecidableEq, Repr

inductive Value where
  | undefined
  | null
  | bool (value : Bool)
  | integer (value : Int)
  /-- The number for which `std::stod` is given the text. -/
  | double (text : Bytes)
  | string (text : Bytes)
  | array (values : List Value)
  | map (entries : List (Bytes × Value))

abbrev Parsed := Except ParserError (Value × Bytes)

def skipWhitespace (text : Bytes) : Bytes :=
  text.dropWhile isSpace

/-! ## Numbers -/

inductive NumberState where
  | frontSign
  | intDigits
  | dot
  | floatDigits
  | exp
  | expSign
  | expDigits
deriving DecidableEq, Repr

/-- `STATE_VALIDITY`. -/
def NumberState.valid : NumberState → Bool
  | .intDigits | .floatDigits | .expDigits => true
  | .frontSign | .dot | .exp | .expSign => false

def isSign (chr : Option UInt8) : Bool :=
  chr = some minus ∨ chr = some plus

def consumeDigits (target state : NumberState) (pc : Bytes) : NumberState × Bytes :=
  if pc.head?.any isDigit then (target, pc.dropWhile isDigit) else (state, pc)

/-- `std::atoll` of a text without leading blanks. -/
def atoll (text : Bytes) : Int :=
  let digits := if isSign text.head? then text.tail else text
  let number : Int := value (digits.takeWhile isDigit)
  max (-2 ^ 63) (min (2 ^ 63 - 1) (if text.head? = some minus then -number else number))

def consumeFraction (state : NumberState) (pc : Bytes) : NumberState × Bytes :=
  if state.valid ∧ pc.head? = some dot then consumeDigits .floatDigits .dot pc.tail
  else (state, pc)

/-- The digits of an exponent lead to the state of the digits behind the dot. -/
def consumeExponent (state : NumberState) (pc : Bytes) : NumberState × Bytes :=
  if state.valid ∧ pc.head?.map toLower = some 101 then
    if isSign pc.tail.head? then consumeDigits .floatDigits .expSign pc.tail.tail
    else consumeDigits .floatDigits .exp pc.tail
  else (state, pc)

def parseNumber (pcc : Bytes) : Parsed :=
  let (state, pc) :=
    if isSign pcc.head? then consumeDigits .intDigits .frontSign pcc.tail
    else consumeDigits .intDigits .intDigits pcc
  let (state, pc) := consumeFraction state pc
  let (state, pc) := consumeExponent state pc
  let number := pcc.take (pcc.length - pc.length)
  if state.valid = false then
    .error ⟨ascii "Error parsing number from: '".toList ++ number ++ [quote]⟩
  else if state = .intDigits then .ok (.integer (atoll number), pc)
  else .ok (.double number, pc)

/-! ## Values -/

/-- The characters that maps, arrays and strings begin with. -/
def opening : List (Option UInt8) :=
  [some 123, some 91, some doubleQuote, some quote]

section

variable (structured : Bytes → Parsed)

def parseMain (pc : Bytes) : Parsed :=
  if pc.head? ∈ opening then structured pc
  else if pc.head?.any isDigit ∨ isSign pc.head? then parseNumber pc
  else
    let token := pc.takeWhile isAlpha
    let pc := pc.dropWhile isAlpha
    if caseEq token (ascii "undefined".toList) then .ok (.undefined, pc)
    else if caseEq token (ascii "true".toList) then .ok (.bool true, pc)
    else if caseEq token (ascii "null".toList) then .ok (.null, pc)
    else if caseEq token (ascii "false".toList) then .ok (.bool false, pc)
    else .error ⟨ascii "Can't parse '".toList ++ token ++ [quote]⟩

def Value.parse (text : Bytes) : Except ParserError Value :=
  let pc := skipWhitespace text
  if pc = [] then .error ⟨ascii "Unable to parse empty string.".toList⟩
  else
    match parseMain structured pc with
    | .error error => .error error
    | .ok (value, pc) =>
      let left := skipWhitespace pc
      if left = [] then .ok value
      else
        .error ⟨ascii "Unexpected characters left at the end of document: ...".toList ++ left⟩

end

/-! ## Integers -/

inductive Sign where
  | absent
  | plus
  | minus
deriving DecidableEq, Repr

def Sign.text : Sign → Bytes
  | .absent => []
  | .plus => [Chr.plus]
  | .minus => [Chr.minus]

def Sign.number (sign : Sign) (digits : Bytes) : Int :=
  if sign = .minus then -(value digits : Int) else value digits

variable {sign : Sign} {digits : Bytes}

theorem isDigit_plain : ∀ chr : UInt8, isDigit chr = true →
    isSpace chr = false ∧ isSign (some chr) = false ∧ chr ≠ minus ∧ some chr ∉ opening :=
  forall_byte (by decide +kernel)

/-- What ends the digits of an integer. -/
def EndsInteger (rest : Bytes) : Prop :=
  ∀ chr ∈ rest.head?, isDigit chr = false ∧ chr ≠ dot ∧ toLower chr ≠ 101

theorem atoll_text (nonempty : digits ≠ []) (all : ∀ chr ∈ digits, isDigit chr = true) :
    atoll (sign.text ++ digits) = max (-2 ^ 63) (min (2 ^ 63 - 1) (sign.number digits)) := by
  obtain ⟨chr, more, rfl⟩ := exists_cons_of_ne_nil nonempty
  obtain ⟨-, unsigned, positive, -⟩ := isDigit_plain chr (all chr mem_cons_self)
  have taken : (chr :: more).takeWhile isDigit = chr :: more := takeWhile_eq_self_iff.mpr all
  cases sign with
  | absent => simp [Sign.text, unsigned, atoll, taken, Sign.number, positive]
  | plus | minus => simp [Sign.text, isSign, atoll, taken, Sign.number, Chr.plus, Chr.minus]

/-- A sign and digits are read as far as they go, and converted as a whole. -/
theorem parseNumber_text (nonempty : digits ≠ []) (all : ∀ chr ∈ digits, isDigit chr = true)
    {rest : Bytes} (ends : EndsInteger rest) :
    parseNumber (sign.text ++ digits ++ rest) =
      .ok (.integer (max (-2 ^ 63) (min (2 ^ 63 - 1) (sign.number digits))), rest) := by
  have read (state : NumberState) :
      consumeDigits .intDigits state (digits ++ rest) = (.intDigits, rest) := by
    obtain ⟨chr, more, rfl⟩ := exists_cons_of_ne_nil nonempty
    have left : rest.dropWhile isDigit = rest := by
      cases rest with
      | nil => rfl
      | cons next later => exact dropWhile_cons_of_neg (by simp [(ends next rfl).1])
    rw [consumeDigits, dropWhile_append_of_pos all, left]
    exact if_pos (all chr mem_cons_self)
  have whole : (if isSign (sign.text ++ digits ++ rest).head? then
      consumeDigits .intDigits .frontSign (sign.text ++ digits ++ rest).tail
      else consumeDigits .intDigits .intDigits (sign.text ++ digits ++ rest)) =
        (.intDigits, rest) := by
    cases sign with
    | absent =>
      obtain ⟨chr, more, rfl⟩ := exists_cons_of_ne_nil nonempty
      obtain ⟨-, unsigned, -, -⟩ := isDigit_plain chr (all chr mem_cons_self)
      exact (if_neg (by simp [Sign.text, unsigned])).trans (read _)
    | plus | minus => exact read _
  have noFraction : rest.head? ≠ some dot := fun same => (ends dot same).2.1 rfl
  have noExponent : rest.head?.map toLower ≠ some 101 := by
    intro same
    obtain ⟨chr, head, lower⟩ := Option.map_eq_some_iff.mp same
    exact (ends chr head).2.2 lower
  have number : (sign.text ++ digits ++ rest).take
      ((sign.text ++ digits ++ rest).length - rest.length) = sign.text ++ digits := by
    rw [length_append, Nat.add_sub_cancel, take_left]
  rw [parseNumber, whole, ← atoll_text nonempty all]
  simp only [consumeFraction, consumeExponent, noFraction, noExponent, and_false, if_false, number]
  rfl

/-- The first character tells that a number follows. -/
theorem exists_first (sign : Sign) (nonempty : digits ≠ [])
    (all : ∀ chr ∈ digits, isDigit chr = true) : ∃ first others,
      sign.text ++ digits = first :: others ∧ isSpace first = false ∧ some first ∉ opening ∧
        (isDigit first = true ∨ isSign (some first) = true) := by
  cases sign with
  | absent =>
    obtain ⟨chr, rest, rfl⟩ := exists_cons_of_ne_nil nonempty
    have digit := all chr mem_cons_self
    obtain ⟨solid, -, -, other⟩ := isDigit_plain chr digit
    exact ⟨chr, rest, rfl, solid, other, .inl digit⟩
  | plus | minus => exact ⟨_, digits, rfl, by decide, by decide, .inr (by decide)⟩

theorem parseMain_number (structured : Bytes → Parsed) {first : UInt8}
    (other : some first ∉ opening) (number : isDigit first = true ∨ isSign (some first) = true)
    (rest : Bytes) : parseMain structured (first :: rest) = parseNumber (first :: rest) := by
  rw [parseMain, head?_cons, if_neg other, Option.any_some, if_pos number]

/-- A sign and digits are a number text, whatever reads the other values. -/
theorem parse_text (structured : Bytes → Parsed) (nonempty : digits ≠ [])
    (all : ∀ chr ∈ digits, isDigit chr = true) :
    Value.parse structured (sign.text ++ digits) =
      .ok (.integer (max (-2 ^ 63) (min (2 ^ 63 - 1) (sign.number digits)))) := by
  have read := @parseNumber_text sign digits nonempty all [] nofun
  obtain ⟨first, others, shape, solid, other, number⟩ := exists_first sign nonempty all
  rw [append_nil, shape] at read
  rw [shape]
  simp [Value.parse, skipWhitespace, solid, parseMain_number structured other number, read]

/--
A sign and digits give the number written exactly if it fits into a signed 64-bit integer;
nothing is thrown for any other.
-/
theorem parse_written_iff (structured : Bytes → Parsed) (sign : Sign) (digits : Bytes)
    (nonempty : digits ≠ []) (all : ∀ chr ∈ digits, isDigit chr = true) :
    (∀ result, Value.parse structured (sign.text ++ digits) = .ok result →
      result = .integer (sign.number digits)) ↔
      -2 ^ 63 ≤ sign.number digits ∧ sign.number digits < 2 ^ 63 := by
  rw [parse_text structured nonempty all]
  constructor
  · intro same
    have equal := Value.integer.inj (same _ rfl)
    omega
  · rintro ⟨above, below⟩ result same
    cases same
    rw [min_eq_right (by omega), max_eq_right above]

/-- The least integer, with zeros in front. -/
theorem parse_written_iff_least :
    Value.parse (fun _ => .error ⟨[]⟩) (ascii "-009223372036854775808".toList) =
      .ok (.integer (Sign.number .minus (ascii "009223372036854775808".toList))) := by
  have read := @parse_text .minus (ascii "009223372036854775808".toList)
    (fun _ => .error ⟨[]⟩) (by decide) (by decide)
  exact read.trans (congrArg Except.ok ((parse_written_iff _ .minus _ (by decide)
    (by decide)).mpr (by decide +kernel) _ read))

/-- Twenty digits that are read as another number. -/
theorem parse_twenty_digits :
    Value.parse (fun _ => .error ⟨[]⟩) (ascii "99999999999999999999".toList) =
        .ok (.integer 9223372036854775807) ∧
      Sign.number .absent (ascii "99999999999999999999".toList) = 99999999999999999999 := by
  have number : Sign.number .absent (ascii "99999999999999999999".toList) =
      99999999999999999999 := by
    decide +kernel
  have read := @parse_text .absent (ascii "99999999999999999999".toList)
    (fun _ => .error ⟨[]⟩) (by decide) (by decide)
  rw [number] at read
  exact ⟨read, number⟩

end MariadbShell.Scripting
