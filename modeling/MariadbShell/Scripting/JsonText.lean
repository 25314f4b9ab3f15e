import MariadbShell.Lib.Keyed
import MariadbShell.Scripting.NumberTexts

/-!
# JSON texts

The readers of strings, maps and arrays behind `Value::parse`, and the strings and objects that
`JSON_dumper` writes. What was written is read back, with integers as far as they fit into 64
bits.
-/

namespace MariadbShell.Scripting

open List Lib.Decimal Lib.Keyed Sql Chr
open ImportTable (Bytes ascii)

/-! ## Strings -/

def unicodeCodepointToUtf8 (uni : Nat) : Except ParserError Bytes :=
  if uni ≤ 0x7f then .ok [uni.toUInt8]
  else if uni ≤ 0x7ff then .ok [(uni / 2 ^ 6).toUInt8 ||| 0xc0, (uni % 2 ^ 6).toUInt8 ||| 0x80]
  else if uni ≤ 0xffff then
    .ok [(uni / 2 ^ 12).toUInt8 ||| 0xe0, (uni / 2 ^ 6 % 2 ^ 6).toUInt8 ||| 0x80,
      (uni % 2 ^ 6).toUInt8 ||| 0x80]
  else if 0x10ffff ≤ uni then .error ⟨ascii "Invalid unicode codepoint".toList⟩
  else
    .ok [(uni / 2 ^ 18).toUInt8 ||| 0xf0, (uni / 2 ^ 12 % 2 ^ 6).toUInt8 ||| 0x80,
      (uni / 2 ^ 6 % 2 ^ 6).toUInt8 ||| 0x80, (uni % 2 ^ 6).toUInt8 ||| 0x80]

/-- The first loop of `parse_string`: the text up to the closing quote, and what is behind it. -/
def closeString (quote : UInt8) : Bytes → Option (Bytes × Bytes)
  | [] => none
  | [chr] => if chr = quote then some ([], []) else none
  | chr :: next :: text =>
    if chr = quote then some ([], next :: text)
    else if chr = backslash then
      (closeString quote text).map fun (inner, rest) => (chr :: next :: inner, rest)
    else (closeString quote (next :: text)).map fun (inner, rest) => (chr :: inner, rest)

/-- The letters behind a backslash that stand for one character. -/
def escapedChars : List (UInt8 × UInt8) :=
  [(110, 10), (34, 34), (39, 39), (97, 7), (98, 8), (102, 12), (114, 13), (116, 9), (118, 11),
    (92, 92), (0, 0)]

/-- The second loop of `parse_string`. -/
def unescape : Bytes → Except ParserError Bytes
  | [] => .ok []
  | chr :: text =>
    if chr ≠ backslash then (unescape text).map (chr :: ·)
    else
      match text with
      | [] => .error ⟨ascii "incorrect use of escape char '\\'".toList⟩
      | code :: text =>
        match escapedChars.lookup code with
        | some escaped => (unescape text).map (escaped :: ·)
        | none =>
          if code = 120 then
            match text with
            | first :: second :: text =>
              if isXdigit first ∧ isXdigit second then
                (unescape text).map ((hexValue first <<< 4 ||| hexValue second) :: ·)
              else .error ⟨ascii "Invalid \\xXX hex escape".toList⟩
            | _ => .error ⟨ascii "Invalid \\xXX hex escape".toList⟩
          else if code = 117 then
            match text with
            | first :: second :: third :: fourth :: text =>
              if [first, second, third, fourth].all isXdigit then
                (unicodeCodepointToUtf8 ([first, second, third, fourth].foldl
                  (fun number digit => number * 16 + (hexValue digit).toNat) 0)).bind fun chars =>
                    (unescape text).map (chars ++ ·)
              else .error ⟨ascii "Invalid \\uXXXX unicode escape".toList⟩
            | _ => .error ⟨ascii "Invalid \\uXXXX unicode escape".toList⟩
          else .error ⟨ascii "Unknown escape sequence \\".toList ++ [code]⟩

def parseString (pc : Bytes) (quote : UInt8) : Except ParserError (Bytes × Bytes) :=
  match closeString quote pc.tail with
  | none => .error ⟨ascii "missing closing ".toList ++ [quote]⟩
  | some (inner, rest) => (unescape inner).map fun text => (text, rest)

/-! ## Maps and arrays -/

section

variable (parseMain : Bytes → Parsed)

def endOfMap : ParserError :=
  ⟨ascii "Error parsing map, unexpected end of stream.".toList⟩

/-- What is behind a value of a map: the end of the map, or the next key. -/
def parseItemEnd (next : Bytes → Parsed) (map : List (Bytes × Value)) (pc : Bytes) : Parsed :=
  match skipWhitespace pc with
  | [] => .error endOfMap
  | chr :: pc =>
    if chr = 125 then .ok (.map map, skipWhitespace pc)
    else if chr = comma then next (skipWhitespace pc)
    else .error ⟨ascii "Error parsing map, unexpected item separator.".toList⟩

/-- The loop of `parse_map`; every round takes at least one character. -/
def parseItems : Nat → List (Bytes × Value) → Bytes → Parsed
  | 0, _, _ => .error endOfMap
  | fuel + 1, map, pc =>
    match skipWhitespace pc with
    | [] => .error endOfMap
    | chr :: pc =>
      if chr = 125 then .ok (.map map, pc)
      else if chr ≠ doubleQuote ∧ chr ≠ quote then
        .error ⟨ascii "Error parsing map, unexpected character reading key.".toList⟩
      else
        (parseString (chr :: pc) chr).bind fun (key, pc) =>
          match skipWhitespace pc with
          | [] => .error ⟨ascii "Error parsing map, unexpected item value separator.".toList⟩
          | chr :: pc =>
            if chr = colon then
              (parseMain (skipWhitespace pc)).bind fun (value, pc) =>
                parseItemEnd (parseItems fuel (put key value map)) (put key value map) pc
            else .error ⟨ascii "Error parsing map, unexpected item value separator.".toList⟩

def endOfArray : ParserError :=
  ⟨ascii "Error parsing array, unexpected end of stream.".toList⟩

/-- The loop of `parse_array`. -/
def parseElements : Nat → List Value → Bytes → Parsed
  | 0, _, _ => .error endOfArray
  | fuel + 1, array, pc =>
    let pc := skipWhitespace pc
    if pc = [] then .error endOfArray
    else
      (if pc.head? ≠ some 93 then (parseMain pc).map fun (value, pc) => (array ++ [value], pc)
        else .ok (array, pc)).bind fun (array, pc) =>
          match skipWhitespace pc with
          | [] => .error endOfArray
          | chr :: pc =>
            if chr = 93 then .ok (.array array, skipWhitespace pc)
            else if chr = comma then parseElements fuel array (skipWhitespace pc)
            else .error ⟨ascii "Error parsing array, unexpected value separator.".toList⟩

end

/-- The readers of maps, arrays and strings, up to a depth of nested values. -/
def parseStructured : Nat → Bytes → Parsed
  | 0, _ => .error endOfMap
  | _, [] => .error endOfMap
  | depth + 1, chr :: pc =>
    if chr = 123 then parseItems (parseMain (parseStructured depth)) (pc.length + 1) [] pc
    else if chr = 91 then
      parseElements (parseMain (parseStructured depth)) (pc.length + 1) [] (skipWhitespace pc)
    else (parseString (chr :: pc) chr).map fun (text, pc) => (.string text, pc)

/-- `Value::parse`; values are not nested deeper than the text is long. -/
def Value.parseText (text : Bytes) : Except ParserError Value :=
  Value.parse (parseStructured text.length) text

/-! ## The writer -/

/-- What `rapidjson::Writer` puts for a character of a string. -/
def escapeChar (chr : UInt8) : Bytes :=
  if chr = doubleQuote ∨ chr = backslash then [backslash, chr]
  else if chr = 8 then [backslash, 98]
  else if chr = tab then [backslash, 116]
  else if chr = newline then [backslash, 110]
  else if chr = 12 then [backslash, 102]
  else if chr = carriageReturn then [backslash, 114]
  else if chr < 32 then [backslash, 117, 48, 48, hexChar (chr >>> 4), hexChar (chr &&& 15)]
  else [chr]

def appendString (text : Bytes) : Bytes :=
  doubleQuote :: (text.flatMap escapeChar ++ [doubleQuote])

/-- The keys of an object with the texts of their values; a comma separates them. -/
def appendItems (items : List (Bytes × Bytes)) : Bytes :=
  items.flatMap fun (key, value) => comma :: (appendString key ++ colon :: value)

def appendObject (items : List (Bytes × Bytes)) : Bytes :=
  123 :: ((appendItems items).tail ++ [125])

theorem newline_not_mem_appendString (text : Bytes) : newline ∉ appendString text := by
  have escaped : ∀ chr : UInt8, newline ∉ escapeChar chr := forall_byte (by decide +kernel)
  simp [appendString, escaped, (by decide : newline ≠ doubleQuote)]

/-- An object stands on one line. -/
theorem newline_not_mem_appendObject {items : List (Bytes × Bytes)}
    (free : ∀ item ∈ items, newline ∉ item.2) : newline ∉ appendObject items := by
  have inside : newline ∉ appendItems items := by
    intro member
    obtain ⟨item, listed, within⟩ := mem_flatMap.mp member
    rcases mem_cons.mp within with same | within
    · exact absurd same (by decide)
    · rcases mem_append.mp within with key | rest
      · exact newline_not_mem_appendString _ key
      · exact (mem_cons.mp rest).elim (by decide) (free item listed)
  rw [appendObject, mem_cons, mem_append]
  rintro (same | member | last)
  · exact absurd same (by decide)
  · exact inside (mem_of_mem_tail member)
  · exact absurd last (by decide)

/-! ## Reading what was written -/

/-- The forms of a written character: itself, behind a backslash, or as its code. -/
inductive Written (chr : UInt8) : Bytes → Prop
  | plain (notQuote : chr ≠ doubleQuote) (notEscape : chr ≠ backslash) : Written chr [chr]
  | escaped {code : UInt8} (stands : escapedChars.lookup code = some chr) :
      Written chr [backslash, code]
  | coded {high low : UInt8} (digits : isXdigit high = true ∧ isXdigit low = true)
      (value : unicodeCodepointToUtf8 ((hexValue high).toNat * 16 + (hexValue low).toNat) =
        .ok [chr]) : Written chr [backslash, 117, 48, 48, high, low]

theorem written_escapeChar (chr : UInt8) : Written chr (escapeChar chr) := by
  have coded : ∀ chr : UInt8, chr < 32 →
      (isXdigit (hexChar (chr >>> 4)) = true ∧ isXdigit (hexChar (chr &&& 15)) = true) ∧
        (hexValue (hexChar (chr >>> 4))).toNat * 16 + (hexValue (hexChar (chr &&& 15))).toNat =
          chr.toNat :=
    forall_byte (by decide +kernel)
  unfold escapeChar
  split
  · next same => rcases same with rfl | rfl <;> exact .escaped rfl
  · next other =>
    obtain ⟨notQuote, notEscape⟩ := not_or.mp other
    repeat' split
    · next same => exact .escaped (same ▸ rfl)
    · next same => exact .escaped (same ▸ rfl)
    · next same => exact .escaped (same ▸ rfl)
    · next same => exact .escaped (same ▸ rfl)
    · next same => exact .escaped (same ▸ rfl)
    · next control =>
      obtain ⟨digits, number⟩ := coded chr control
      refine .coded digits ?_
      have small : chr.toNat < 32 := UInt8.lt_iff_toNat_lt.mp control
      rw [number, unicodeCodepointToUtf8, if_pos (by omega)]
      simp
    · exact .plain notQuote notEscape

theorem closeString_cons {chr : UInt8} (notQuote : chr ≠ doubleQuote) (notEscape : chr ≠ backslash)
    (text : Bytes) : closeString doubleQuote (chr :: text) =
      (closeString doubleQuote text).map fun found => (chr :: found.1, found.2) := by
  cases text with
  | nil => exact if_neg notQuote
  | cons next text => rw [closeString, if_neg notQuote, if_neg notEscape]

/-- A written character does not end the string. -/
theorem Written.closeString_append {chr : UInt8} {form : Bytes} (written : Written chr form)
    (text : Bytes) : closeString doubleQuote (form ++ text) =
      (closeString doubleQuote text).map fun found => (form ++ found.1, found.2) := by
  have digit : ∀ chr : UInt8, isXdigit chr = true → chr ≠ doubleQuote ∧ chr ≠ backslash :=
    forall_byte (by decide +kernel)
  cases written with
  | plain notQuote notEscape => exact closeString_cons notQuote notEscape text
  | escaped => rfl
  | @coded high low digits =>
    obtain ⟨highDigit, lowDigit⟩ := digits
    have highPlain := closeString_cons (digit high highDigit).1 (digit high highDigit).2
    have lowPlain := closeString_cons (digit low lowDigit).1 (digit low lowDigit).2
    have zero := @closeString_cons 48 (by decide) (by decide)
    change (closeString doubleQuote (48 :: 48 :: high :: low :: text)).map _ = _
    simp only [zero, highPlain, lowPlain, Option.map_map]
    rfl

theorem Written.unescape_append {chr : UInt8} {form : Bytes} (written : Written chr form)
    (text : Bytes) : unescape (form ++ text) = (unescape text).map (chr :: ·) := by
  rw [unescape.eq_def]
  cases written with
  | plain notQuote notEscape => exact if_pos notEscape
  | escaped stands => simp [stands]
  | coded digits value =>
    have zero : hexValue 48 = 0 ∧ isXdigit 48 = true ∧ escapedChars.lookup 117 = none := by decide
    simp [zero, digits, value, Except.bind]

theorem parseString_appendString (text rest : Bytes) :
    parseString (appendString text ++ rest) doubleQuote = .ok (text, rest) := by
  have read : unescape (text.flatMap escapeChar) = .ok text := by
    induction text with
    | nil => rfl
    | cons chr text ih =>
      rw [flatMap_cons, (written_escapeChar chr).unescape_append, ih]
      rfl
  have closed : closeString doubleQuote (text.flatMap escapeChar ++ doubleQuote :: rest) =
      some (text.flatMap escapeChar, rest) := by
    clear read
    induction text with
    | nil => cases rest <;> rfl
    | cons chr text ih =>
      rw [flatMap_cons, append_assoc, (written_escapeChar chr).closeString_append, ih,
        Option.map_some]
  rw [parseString, appendString, cons_append, tail_cons, append_assoc, singleton_append, closed]
  simp only [read]
  rfl

/-- The text of a value that is read back inside of an object. -/
structure Reads (parseMain : Bytes → Parsed) (text : Bytes) (value : Value) : Prop where
  solid : ∀ rest, skipWhitespace (text ++ rest) = text ++ rest
  read : ∀ chr rest, chr = comma ∨ chr = 125 →
    parseMain (text ++ chr :: rest) = .ok (value, chr :: rest)

theorem skipWhitespace_cons {chr : UInt8} (solid : isSpace chr = false) (rest : Bytes) :
    skipWhitespace (chr :: rest) = chr :: rest :=
  dropWhile_cons_of_neg (by simp [solid])

theorem reads_appendString (depth : Nat) (text : Bytes) :
    Reads (parseMain (parseStructured (depth + 1))) (appendString text) (.string text) where
  solid rest := skipWhitespace_cons rfl _
  read chr rest _ := by
    have read := parseString_appendString text (chr :: rest)
    rw [appendString, cons_append] at read ⊢
    rw [parseMain, head?_cons, if_pos (by decide), parseStructured, if_neg (by decide),
      if_neg (by decide), read]
    rfl

variable (structured : Bytes → Parsed)

theorem reads_decimalInt {number : Int} (above : -2 ^ 63 ≤ number) (below : number < 2 ^ 63) :
    Reads (parseMain structured) (decimalInt number) (.integer number) := by
  have ends (chr : UInt8) (rest : Bytes) (end_ : chr = comma ∨ chr = 125) :
      EndsInteger (chr :: rest) := by
    rintro other ⟨⟩
    rcases end_ with rfl | rfl <;> decide
  have same : max (-2 ^ 63) (min (2 ^ 63 - 1) number) = number := by omega
  obtain ⟨sign, digits, shape, nonempty, all, value⟩ : ∃ (sign : Sign) (digits : Bytes),
      decimalInt number = sign.text ++ digits ∧ digits ≠ [] ∧
        (∀ chr ∈ digits, isDigit chr = true) ∧ sign.number digits = number := by
    have isDigits (count : Nat) : ∀ chr ∈ decimal count, isDigit chr = true := by
      intro chr member
      have bounds := decimal_digits member
      simp only [isDigit, UInt8.le_iff_toNat_le, decide_eq_true_eq]
      exact bounds
    cases number with
    | ofNat count =>
      refine ⟨.absent, decimal count, rfl, decimal_ne_nil _, isDigits _, ?_⟩
      simp [Sign.number, value_decimal]
    | negSucc count =>
      refine ⟨.minus, decimal (count + 1), rfl, decimal_ne_nil _, isDigits _, ?_⟩
      simp [Sign.number, value_decimal]
      omega
  obtain ⟨first, others, start, solid, other, numeric⟩ := exists_first sign nonempty all
  rw [shape, start]
  refine ⟨fun rest => skipWhitespace_cons solid _, fun chr rest end_ => ?_⟩
  have read := @parseNumber_text sign digits nonempty all _ (ends chr rest end_)
  rw [start, value, same, cons_append] at read
  rw [cons_append, parseMain_number structured other numeric, read]

theorem reads_bool (value : Bool) :
    Reads (parseMain structured) (ascii (if value then "true" else "false").toList)
      (.bool value) := by
  cases value with
  | false | true =>
    refine ⟨fun rest => skipWhitespace_cons rfl _, ?_⟩
    rintro chr rest (rfl | rfl) <;> rfl

section

variable {parseMain : Bytes → Parsed}

theorem parseItems_item {key text : Bytes} {value : Value} (reads : Reads parseMain text value)
    (fuel : Nat) (map : List (Bytes × Value)) {chr : UInt8} (rest : Bytes)
    (ends : chr = comma ∨ chr = 125) :
    parseItems parseMain (fuel + 1) map (appendString key ++ colon :: (text ++ chr :: rest)) =
      parseItemEnd (parseItems parseMain fuel (put key value map)) (put key value map)
        (chr :: rest) := by
  have key := parseString_appendString key (colon :: (text ++ chr :: rest))
  rw [appendString, cons_append] at key ⊢
  rw [parseItems, skipWhitespace_cons rfl]
  dsimp only
  rw [if_neg (by decide), if_neg (by decide), key]
  simp only [Except.bind, skipWhitespace_cons (rfl : isSpace colon = false), if_true,
    reads.solid, reads.read chr rest ends]

/-- The values of an object, with those that were written last on top. -/
def putItems (items : List (Bytes × Bytes × Value)) (map : List (Bytes × Value)) :
    List (Bytes × Value) :=
  items.foldl (fun map item => put item.1 item.2.2 map) map

theorem parseItems_object {item : Bytes × Bytes × Value} {items : List (Bytes × Bytes × Value)}
    (reads : ∀ other ∈ item :: items, Reads parseMain other.2.1 other.2.2) {text : Bytes}
    (written : text = appendString item.1 ++ colon :: (item.2.1 ++
      (appendItems (items.map fun item => (item.1, item.2.1)) ++ [125])))
    {fuel : Nat} (enough : text.length ≤ fuel + 1) (map : List (Bytes × Value)) :
    parseItems parseMain (fuel + 1) map text = .ok (.map (putItems (item :: items) map), []) := by
  obtain ⟨first, others⟩ := forall_mem_cons.mp reads
  induction items generalizing item text fuel map with
  | nil =>
    rw [written]
    exact parseItems_item first _ _ [] (.inr rfl)
  | cons next items ih =>
    obtain ⟨later, laterEq⟩ : ∃ later, later = appendString next.1 ++ colon :: (next.2.1 ++
        (appendItems (items.map fun item => (item.1, item.2.1)) ++ [125])) := ⟨_, rfl⟩
    have split : text = appendString item.1 ++ colon :: (item.2.1 ++ comma :: later) := by
      simp [written, laterEq, appendItems]
    have shorter : later.length ≤ fuel := by
      rw [split] at enough
      simp only [length_append, length_cons] at enough
      omega
    obtain ⟨fuel, rfl⟩ : ∃ less, fuel = less + 1 := by
      refine Nat.exists_eq_add_of_le' (Nat.le_trans ?_ shorter)
      exact laterEq ▸ Nat.succ_pos _
    have solid : skipWhitespace later = later := by
      rw [laterEq]
      exact skipWhitespace_cons rfl _
    rw [split, parseItems_item first _ _ _ (.inl rfl)]
    change parseItems parseMain _ _ (skipWhitespace later) = _
    rw [solid]
    exact ih others laterEq shorter _ (forall_mem_cons.mp others).1 (forall_mem_cons.mp others).2

end

/-- What was written for an object is read back. -/
theorem parseText_appendObject {item : Bytes × Bytes × Value}
    {items : List (Bytes × Bytes × Value)} (reads : ∀ depth, ∀ other ∈ item :: items,
      Reads (parseMain (parseStructured (depth + 1))) other.2.1 other.2.2) :
    Value.parseText (appendObject ((item :: items).map fun item => (item.1, item.2.1))) =
      .ok (.map (putItems (item :: items) [])) := by
  obtain ⟨text, written⟩ : ∃ text, text = appendString item.1 ++ colon :: (item.2.1 ++
      (appendItems (items.map fun item => (item.1, item.2.1)) ++ [125])) := ⟨_, rfl⟩
  have whole : appendObject ((item :: items).map fun item => (item.1, item.2.1)) = 123 :: text := by
    simp [appendObject, appendItems, written]
  obtain ⟨depth, size⟩ : ∃ depth, text.length = depth + 1 :=
    Nat.exists_eq_add_of_le' (written ▸ Nat.succ_pos _)
  have read := parseItems_object (reads depth) written (Nat.le_succ _) []
  rw [size] at read
  rw [whole, Value.parseText, Value.parse, skipWhitespace_cons rfl, if_neg (cons_ne_nil _ _),
    parseMain, head?_cons, if_pos (by decide), length_cons, parseStructured, if_pos rfl, size, read]
  rfl

end MariadbShell.Scripting
