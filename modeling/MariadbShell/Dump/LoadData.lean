import MariadbShell.Lib.Delimited
import MariadbShell.Dump.WriterAgreement
import MariadbShell.ImportTable.Transactions

/-!
# Reading a dump file back

The rules of `LOAD DATA` for field and line terminators, enclosed fields, escape
sequences and `NULL`, and the proof that they return the rows that the writers of the
escaping dialects were given.
-/

namespace MariadbShell.Dump

open List ImportTable DialectDumpWriter Byte EscapingDialect RawData Lib.Delimited SubChunking

namespace LoadData

/-! ## Fields -/

/-- A byte of a field, and whether the escape character stood before it. -/
inductive Item where
  | plain (chr : UInt8)
  | escaped (chr : UInt8)
deriving DecidableEq, Repr

/-- Meaning of the byte after the escape character. -/
def unescape (chr : UInt8) : UInt8 :=
  if chr = 48 then nul
  else if chr = 98 then backspace
  else if chr = 110 then newline
  else if chr = 114 then carriageReturn
  else if chr = 116 then tab
  else if chr = 90 then controlZ
  else chr

def Item.value : Item → UInt8
  | .plain chr => chr
  | .escaped chr => unescape chr

/-- Put an item before those that were read after it. -/
def push (item : Item) (read : List Item × FieldEnd × Bytes) : List Item × FieldEnd × Bytes :=
  (item :: read.1, read.2)

section Reading

variable (dialect : Dialect)

/-- The terminator at the start of the input and what follows it. -/
def terminator (input : Bytes) : Option (FieldEnd × Bytes) :=
  if dialect.linesTerminatedBy ≠ [] ∧ dialect.linesTerminatedBy <+: input then
    some (.line, input.drop dialect.linesTerminatedBy.length)
  else if dialect.fieldsTerminatedBy ≠ [] ∧ dialect.fieldsTerminatedBy <+: input then
    some (.field, input.drop dialect.fieldsTerminatedBy.length)
  else none

def readPlain : Bytes → List Item × FieldEnd × Bytes
  | [] => ([], .file, [])
  | chr :: rest =>
    if dialect.fieldsEscapedBy.head? = some chr then
      match rest with
      | [] => ([.plain chr], .file, [])
      | escaped :: rest => push (.escaped escaped) (readPlain rest)
    else
      match terminator dialect (chr :: rest) with
      | some ended => ([], ended)
      | none => push (.plain chr) (readPlain rest)

/--
The rest of an enclosed field. The enclosing character ends it before a terminator
only, and stands for itself when it is doubled.
-/
def readEnclosed (enclosing : UInt8) : Bytes → List Item × FieldEnd × Bytes
  | [] => ([], .file, [])
  | chr :: rest =>
    if dialect.fieldsEscapedBy.head? = some chr then
      match rest with
      | [] => ([.plain chr], .file, [])
      | escaped :: rest => push (.escaped escaped) (readEnclosed enclosing rest)
    else if chr = enclosing then
      match terminator dialect rest, rest with
      | some ended, _ => ([], ended)
      | none, [] => ([], .file, [])
      | none, second :: tail =>
        if second = enclosing then push (.plain chr) (readEnclosed enclosing tail)
        else push (.plain chr) (readEnclosed enclosing (second :: tail))
    else push (.plain chr) (readEnclosed enclosing rest)

/-- The value of a field: `\N`, and the word `NULL` without enclosure, are SQL `NULL`. -/
def fieldValue (enclosed : Bool) (items : List Item) : Option Bytes :=
  if items = [.escaped 78] then none
  else if ¬ enclosed ∧ dialect.fieldsEnclosedBy ≠ [] ∧
      items.map Item.value = ascii ['N', 'U', 'L', 'L'] then none
  else some (items.map Item.value)

def readField (input : Bytes) : Option Bytes × FieldEnd × Bytes :=
  match dialect.fieldsEnclosedBy.head?, input with
  | some enclosing, chr :: rest =>
    if chr = enclosing then
      let (items, ended) := readEnclosed dialect enclosing rest
      (fieldValue dialect true items, ended)
    else
      let (items, ended) := readPlain dialect input
      (fieldValue dialect false items, ended)
  | _, _ =>
    let (items, ended) := readPlain dialect input
    (fieldValue dialect false items, ended)

def decode (columns : Nat) (file : Bytes) : Option (List (List (Option Bytes))) :=
  Lib.Delimited.decode (fun input => some (readField dialect input)) dialect.linesTerminatedBy
    columns file

end Reading

variable {dialect : Dialect}

theorem readPlain_escape {chr escaped : UInt8} (rest : Bytes)
    (escape : dialect.fieldsEscapedBy.head? = some chr) :
    readPlain dialect (chr :: escaped :: rest) =
      push (.escaped escaped) (readPlain dialect rest) := by
  rw [readPlain.eq_def]
  simp only [if_pos escape]

theorem readEnclosed_escape {enclosing chr escaped : UInt8} (rest : Bytes)
    (escape : dialect.fieldsEscapedBy.head? = some chr) :
    readEnclosed dialect enclosing (chr :: escaped :: rest) =
      push (.escaped escaped) (readEnclosed dialect enclosing rest) := by
  rw [readEnclosed.eq_def]
  simp only [if_pos escape]

variable {chr : UInt8}

theorem readPlain_plain (rest : Bytes) (notEscape : ¬ dialect.fieldsEscapedBy.head? = some chr)
    (notEnded : terminator dialect (chr :: rest) = none) :
    readPlain dialect (chr :: rest) = push (.plain chr) (readPlain dialect rest) := by
  rw [readPlain.eq_def]
  simp only [if_neg notEscape, notEnded]

theorem readEnclosed_plain {enclosing chr : UInt8} (rest : Bytes)
    (notEscape : ¬ dialect.fieldsEscapedBy.head? = some chr) (inside : chr ≠ enclosing) :
    readEnclosed dialect enclosing (chr :: rest) =
      push (.plain chr) (readEnclosed dialect enclosing rest) := by
  rw [readEnclosed.eq_def]
  simp only [if_neg notEscape, if_neg inside]

/-! ## Reading what was written -/

/-- The characters of a dialect with one-byte escape and field terminator are different. -/
structure Characters (dialect : Dialect) where
  escape : UInt8
  field : UInt8
  line : UInt8
  lineRest : Bytes
  escaped_eq : dialect.fieldsEscapedBy = [escape]
  fields_eq : dialect.fieldsTerminatedBy = [field]
  lines_eq : dialect.linesTerminatedBy = line :: lineRest
  escape_ne_field : escape ≠ field
  escape_ne_line : escape ≠ line
  field_ne_line : field ≠ line
  enclosing_ne : ∀ enclosing, dialect.fieldsEnclosedBy.head? = some enclosing →
    enclosing ≠ escape ∧ enclosing ≠ field ∧ enclosing ≠ line

/-- The input is a terminator and what follows it. -/
inductive Ends (dialect : Dialect) : Bytes → FieldEnd × Bytes → Prop
  | field (rest : Bytes) : Ends dialect (dialect.fieldsTerminatedBy ++ rest) (.field, rest)
  | line (rest : Bytes) : Ends dialect (dialect.linesTerminatedBy ++ rest) (.line, rest)

/-- How a byte of a value was written, and the item that is read for it. -/
inductive Written (escape : UInt8) (special : UInt8 → Prop) (chr : UInt8) : Bytes → Item → Prop
  | plain (other : chr ≠ escape) (ordinary : ¬ special chr) :
      Written escape special chr [chr] (.plain chr)
  | escaped (written : UInt8) (meaning : unescape written = chr) (notNull : written ≠ 78) :
      Written escape special chr [escape, written] (.escaped written)

section Written

variable {dialect : Dialect} (characters : Characters dialect)

include characters

theorem terminator_field (rest : Bytes) :
    terminator dialect (dialect.fieldsTerminatedBy ++ rest) = some (.field, rest) := by
  unfold terminator
  rw [characters.fields_eq, characters.lines_eq]
  have absent : ¬ (characters.line :: characters.lineRest ≠ [] ∧
      characters.line :: characters.lineRest <+: [characters.field] ++ rest) := by
    rintro ⟨-, starts⟩
    exact characters.field_ne_line (cons_prefix_cons.mp starts).1.symm
  rw [if_neg absent, if_pos ⟨cons_ne_nil _ _, prefix_append _ _⟩]
  rfl

theorem terminator_line (rest : Bytes) :
    terminator dialect (dialect.linesTerminatedBy ++ rest) = some (.line, rest) := by
  unfold terminator
  have used : dialect.linesTerminatedBy ≠ [] := by
    rw [characters.lines_eq]
    exact cons_ne_nil _ _
  rw [if_pos ⟨used, prefix_append _ _⟩, drop_left]

theorem terminator_other {rest : Bytes} (notField : chr ≠ characters.field)
    (notLine : chr ≠ characters.line) : terminator dialect (chr :: rest) = none := by
  unfold terminator
  rw [characters.fields_eq, characters.lines_eq]
  rw [if_neg fun found => notLine (cons_prefix_cons.mp found.2).1.symm,
    if_neg fun found => notField (cons_prefix_cons.mp found.2).1.symm]

variable {ended : FieldEnd × Bytes} {input data tail : Bytes} {encode : UInt8 → Bytes}
  {item : UInt8 → Item}

theorem Ends.terminator (ends : Ends dialect input ended) :
    terminator dialect input = some ended := by
  cases ends with
  | field rest => exact terminator_field characters rest
  | line rest => exact terminator_line characters rest

theorem Ends.first (ends : Ends dialect input ended) :
    ∃ chr rest, input = chr :: rest ∧ (chr = characters.field ∨ chr = characters.line) := by
  cases ends with
  | field rest =>
    rw [characters.fields_eq]
    exact ⟨_, _, rfl, .inl rfl⟩
  | line rest =>
    rw [characters.lines_eq]
    exact ⟨_, _, rfl, .inr rfl⟩

theorem not_escape (other : characters.escape ≠ chr) :
    ¬ dialect.fieldsEscapedBy.head? = some chr := by
  rw [characters.escaped_eq, head?_cons, Option.some.injEq]
  exact other

theorem readPlain_ends (ends : Ends dialect input ended) :
    readPlain dialect input = ([], ended) := by
  obtain ⟨chr, rest, shape, choice⟩ := ends.first characters
  have found := ends.terminator characters
  have notEscape : ¬ dialect.fieldsEscapedBy.head? = some chr := by
    rcases choice with rfl | rfl
    · exact not_escape characters characters.escape_ne_field
    · exact not_escape characters characters.escape_ne_line
  rw [shape] at found ⊢
  unfold readPlain
  rw [if_neg notEscape, found]

variable {enclosing : UInt8}

theorem readEnclosed_ends (encloses : dialect.fieldsEnclosedBy.head? = some enclosing)
    (ends : Ends dialect input ended) :
    readEnclosed dialect enclosing (enclosing :: input) = ([], ended) := by
  have notEscape := not_escape characters (characters.enclosing_ne enclosing encloses).1.symm
  unfold readEnclosed
  rw [if_neg notEscape, if_pos rfl, ends.terminator characters]

/-- A reader that takes ordinary characters and escape sequences one by one. -/
theorem read_written {read : Bytes → List Item × FieldEnd × Bytes} {special : UInt8 → Prop}
    (plain : ∀ chr rest, chr ≠ characters.escape → ¬ special chr →
      read (chr :: rest) = push (.plain chr) (read rest))
    (escaped : ∀ chr rest, read (characters.escape :: chr :: rest) =
      push (.escaped chr) (read rest))
    (written : ∀ chr ∈ data, Written characters.escape special chr (encode chr) (item chr)) :
    read (data.flatMap encode ++ tail) = (data.map item ++ (read tail).1, (read tail).2) := by
  induction data with
  | nil => rfl
  | cons chr data ih =>
    have rest := ih fun other member => written other (mem_cons_of_mem _ member)
    have first := written chr mem_cons_self
    rw [flatMap_cons, append_assoc, map_cons]
    generalize encode chr = bytes at first ⊢
    generalize item chr = read at first ⊢
    cases first with
    | plain other ordinary =>
      rw [singleton_append, plain _ _ other ordinary, rest]
      rfl
    | escaped =>
      rw [cons_append, singleton_append, escaped, rest]
      rfl

/-- Values outside of an enclosure: terminators do not start in them. -/
theorem readPlain_written (written : ∀ chr ∈ data, Written characters.escape
      (fun chr => chr = characters.field ∨ chr = characters.line) chr (encode chr) (item chr)) :
    readPlain dialect (data.flatMap encode ++ tail) =
      (data.map item ++ (readPlain dialect tail).1, (readPlain dialect tail).2) :=
  read_written characters (fun _ _ other ordinary =>
      readPlain_plain _ (not_escape characters other.symm) (terminator_other characters
        (fun same => ordinary (.inl same)) (fun same => ordinary (.inr same))))
    (fun _ _ => readPlain_escape _ (by rw [characters.escaped_eq]; rfl)) written

/-- Values inside an enclosure: the enclosing character is not in them. -/
theorem readEnclosed_written
    (written : ∀ chr ∈ data,
      Written characters.escape (fun chr => chr = enclosing) chr (encode chr) (item chr)) :
    readEnclosed dialect enclosing (data.flatMap encode ++ tail) =
      (data.map item ++ (readEnclosed dialect enclosing tail).1,
        (readEnclosed dialect enclosing tail).2) :=
  read_written characters
    (fun _ _ other ordinary => readEnclosed_plain _ (not_escape characters other.symm) ordinary)
    (fun _ _ => readEnclosed_escape _ (by rw [characters.escaped_eq]; rfl)) written

omit characters in
/-- The items of a written value stand for the value, which is not `NULL`. -/
theorem fieldValue_written {escape : UInt8} {special : UInt8 → Prop} {enclosed : Bool}
    (written : ∀ chr ∈ data, Written escape special chr (encode chr) (item chr))
    (notWord : enclosed = true ∨ dialect.fieldsEnclosedBy = [] ∨
      data ≠ ascii ['N', 'U', 'L', 'L']) :
    fieldValue dialect enclosed (data.map item) = some data := by
  have values : (data.map item).map Item.value = data := by
    rw [map_map]
    have same : ∀ chr ∈ data, (Item.value ∘ item) chr = id chr := by
      intro chr member
      have first := written chr member
      rw [Function.comp_apply]
      generalize encode chr = bytes at first
      generalize item chr = read at first ⊢
      cases first with
      | plain other ordinary => rfl
      | escaped written' meaning notNull => exact meaning
    rw [map_congr_left same, map_id]
  have notNull : data.map item ≠ [.escaped 78] := by
    intro null
    obtain ⟨chr, rest, rfl⟩ : ∃ chr rest, data = chr :: rest := by
      cases data with
      | nil => cases null
      | cons chr rest => exact ⟨chr, rest, rfl⟩
    have first := written chr mem_cons_self
    rw [(List.cons.inj null).1] at first
    generalize encode chr = bytes at first
    cases first with
    | escaped written' meaning notNull => exact notNull rfl
  unfold fieldValue
  rw [if_neg notNull, values, if_neg]
  rintro ⟨outside, used, word⟩
  rcases notWord with inside | unused | other
  · exact outside inside
  · exact used unused
  · exact other word

/-- A value between enclosing characters. -/
theorem readField_enclosed (encloses : dialect.fieldsEnclosedBy = [enclosing])
    (written : ∀ chr ∈ data,
      Written characters.escape (fun chr => chr = enclosing) chr (encode chr) (item chr))
    (ends : Ends dialect tail ended) :
    readField dialect ([enclosing] ++ data.flatMap encode ++ [enclosing] ++ tail) =
      (some data, ended) := by
  have first : dialect.fieldsEnclosedBy.head? = some enclosing := by
    rw [encloses]
    rfl
  have shape : [enclosing] ++ data.flatMap encode ++ [enclosing] ++ tail =
      enclosing :: (data.flatMap encode ++ enclosing :: tail) := by
    rw [append_assoc, append_assoc, singleton_append, singleton_append]
  rw [shape]
  unfold readField
  rw [first]
  simp only [if_true]
  rw [readEnclosed_written characters written, readEnclosed_ends characters first ends,
    append_nil, fieldValue_written written (.inl rfl)]

omit characters in
/-- A field that does not begin with the enclosing character. -/
theorem readField_plain {items : List Item} (plain : readPlain dialect input = (items, ended))
    (first : ∀ enclosing, dialect.fieldsEnclosedBy.head? = some enclosing →
      input.head? ≠ some enclosing) :
    readField dialect input = (fieldValue dialect false items, ended) := by
  unfold readField
  split
  · next enclosing chr rest encloses =>
    have other : chr ≠ enclosing := by
      rintro rfl
      exact first chr encloses rfl
    rw [if_neg other, plain]
  · rw [plain]

/-- A value that is not enclosed. -/
theorem readField_unenclosed (written : ∀ chr ∈ data, Written characters.escape
      (fun chr => chr = characters.field ∨ chr = characters.line) chr (encode chr) (item chr))
    (first : ∀ enclosing, dialect.fieldsEnclosedBy.head? = some enclosing →
      (data.flatMap encode ++ tail).head? ≠ some enclosing)
    (notWord : dialect.fieldsEnclosedBy = [] ∨ data ≠ ascii ['N', 'U', 'L', 'L'])
    (ends : Ends dialect tail ended) :
    readField dialect (data.flatMap encode ++ tail) = (some data, ended) := by
  have plain : readPlain dialect (data.flatMap encode ++ tail) = (data.map item, ended) := by
    rw [readPlain_written characters written, readPlain_ends characters ends, append_nil]
  rw [readField_plain plain first, fieldValue_written written (.inr notWord)]

theorem readField_null (ends : Ends dialect tail ended) :
    readField dialect (dialect.fieldsEscapedBy ++ ascii ['N'] ++ tail) = (none, ended) := by
  have shape : dialect.fieldsEscapedBy ++ ascii ['N'] ++ tail =
      characters.escape :: 78 :: tail := by
    rw [characters.escaped_eq]
    rfl
  have escape : dialect.fieldsEscapedBy.head? = some characters.escape := by
    rw [characters.escaped_eq]
    rfl
  have plain : readPlain dialect (characters.escape :: 78 :: tail) = ([.escaped 78], ended) := by
    rw [readPlain_escape _ escape, readPlain_ends characters ends]
    rfl
  rw [shape, readField_plain plain fun enclosing encloses same =>
    (characters.enclosing_ne enclosing encloses).1 (Option.some.inj same).symm]
  rfl

end Written

/-! ## The built-in dialects -/

/-- The characters of the escaping dialects are different. -/
def characters : (name : EscapingDialect) → Characters name.dialect
  | .default_ =>
    ⟨backslash, tab, newline, [], rfl, rfl, rfl, by decide, by decide, by decide,
      by rintro enclosing ⟨⟩⟩
  | .csv =>
    ⟨backslash, comma, carriageReturn, [newline], rfl, rfl, rfl, by decide,
      by decide, by decide, by rintro enclosing ⟨⟩; decide⟩
  | .tsv =>
    ⟨backslash, tab, carriageReturn, [newline], rfl, rfl, rfl, by decide,
      by decide, by decide, by rintro enclosing ⟨⟩; decide⟩
  | .csvUnix =>
    ⟨backslash, comma, newline, [], rfl, rfl, rfl, by decide, by decide, by decide,
      by rintro enclosing ⟨⟩; decide⟩

section BuiltIn

variable (name : EscapingDialect)

/-- The item that is read for a byte of a string. -/
def itemOf (chr : UInt8) : Item :=
  match toWrite name.traits chr with
  | some written => .escaped written
  | none => .plain chr

theorem controlSequence_some {chr written : UInt8} (control : controlSequence chr = some written) :
    unescape written = chr ∧ written ≠ 78 := by
  have table : controlSequences.all (fun sequence =>
      unescape sequence.2 = sequence.1 ∧ sequence.2 ≠ 78) = true := by decide
  obtain ⟨before, after, split, -⟩ := lookup_eq_some_iff.mp control
  have member : (chr, written) ∈ controlSequences := by
    rw [split]
    exact mem_append_right _ mem_cons_self
  exact of_decide_eq_true (all_eq_true.mp table (chr, written) member)

/-- The characters that are written after the escape character as they are. -/
theorem unescape_itself
    (escapes : (name.traits.fieldsEscapedBy.head? == some chr ||
      name.traits.linesTerminatedBy.head? == some chr || shouldEscape name.traits chr) = true)
    (control : controlSequence chr = none) : unescape chr = chr ∧ chr ≠ 78 := by
  have special : chr ∈ [backslash, newline, tab, carriageReturn, doubleQuote] := by
    cases name <;>
      simp [shouldEscape, traits, Traits.default_, Traits.csv,
        Traits.tsv, Traits.csvUnix] at escapes ⊢ <;> grind
  have table : ∀ chr ∈ [backslash, newline, tab, carriageReturn,
      doubleQuote], controlSequence chr = none → unescape chr = chr ∧ chr ≠ 78 := by
    decide +kernel
  exact table chr special control

theorem toWrite_some {chr written : UInt8} (escapes : toWrite name.traits chr = some written) :
    unescape written = chr ∧ written ≠ 78 := by
  unfold toWrite at escapes
  cases control : controlSequence chr with
  | some sequence =>
    rw [control] at escapes
    cases escapes
    exact controlSequence_some control
  | none =>
    rw [control] at escapes
    simp only at escapes
    split at escapes
    · next itself =>
      cases escapes
      exact unescape_itself name itself control
    · cases escapes

theorem toWrite_none (plain : toWrite name.traits chr = none) :
    chr ≠ (characters name).escape ∧ chr ≠ (characters name).line ∧
      (name.dialect.fieldsEnclosedBy = [] → chr ≠ (characters name).field) ∧
      ∀ enclosing, name.dialect.fieldsEnclosedBy = [enclosing] → chr ≠ enclosing := by
  unfold toWrite at plain
  split at plain
  · cases plain
  · split at plain
    · cases plain
    · next ordinary =>
      cases name <;>
        simp [shouldEscape, traits, dialect,
          Traits.default_, Traits.csv, Traits.tsv, Traits.csvUnix, characters, Dialect.default_,
          Dialect.csv, Dialect.tsv, Dialect.csvUnix] at ordinary ⊢ <;> grind

/-- Strings are written so that no special character is left plain. -/
theorem written_string {special : UInt8 → Prop}
    (escaped : ∀ chr, toWrite name.traits chr = none → ¬ special chr)
    (chr : UInt8) :
    Written (characters name).escape special chr (escapeByte name.traits chr)
      (itemOf name chr) := by
  unfold escapeByte itemOf
  cases choice : toWrite name.traits chr with
  | none => exact .plain (toWrite_none name choice).1 (escaped chr choice)
  | some written =>
    obtain ⟨meaning, notNull⟩ := toWrite_some name choice
    have prefixed : name.traits.fieldsEscapedBy ++ [written] =
        [(characters name).escape, written] := by
      cases name <;> rfl
    simp only [prefixed]
    exact .escaped written meaning notNull

/-- Numbers have no special characters. -/
theorem number_ordinary {data : Bytes} (number : NumberText data) (member : chr ∈ data) :
    chr ≠ (characters name).escape ∧ chr ≠ (characters name).field ∧
      chr ≠ (characters name).line ∧ name.dialect.fieldsEnclosedBy.head? ≠ some chr := by
  have table : ∀ chr ∈ TextDumpWriter.numericTypesAlphabet,
      chr ≠ (characters name).escape ∧ chr ≠ (characters name).field ∧
        chr ≠ (characters name).line ∧ name.dialect.fieldsEnclosedBy.head? ≠ some chr := by
    cases name <;> decide +kernel
  exact table chr (number.1 chr member)

theorem enclosedBy_cases :
    name.dialect.fieldsEnclosedBy = [] ∨
      ∃ enclosing, name.dialect.fieldsEnclosedBy = [enclosing] := by
  cases name with
  | default_ => exact .inl rfl
  | csv | tsv | csvUnix => exact .inr ⟨_, rfl⟩

theorem readField_string (data tail : Bytes) (ended : FieldEnd × Bytes)
    (ends : Ends name.dialect tail ended) :
    readField name.dialect (name.dialect.fieldsEnclosedBy ++
        data.flatMap (escapeByte name.traits) ++
        name.dialect.fieldsEnclosedBy ++ tail) = (some data, ended) := by
  rcases enclosedBy_cases name with unused | ⟨enclosing, encloses⟩
  · rw [unused, nil_append, append_nil]
    refine readField_unenclosed (characters name)
      (fun chr _ => written_string name ?_ chr) ?_ (.inl unused) ends
    · intro chr plain
      obtain ⟨-, notLine, notField, -⟩ := toWrite_none name plain
      rintro (same | same)
      · exact notField unused same
      · exact notLine same
    · intro enclosing used
      rw [unused] at used
      cases used
  · rw [encloses]
    refine readField_enclosed (characters name) encloses
      (fun chr _ => written_string name ?_ chr) ends
    intro chr plain
    exact (toWrite_none name plain).2.2.2 enclosing encloses

theorem readField_number {data tail : Bytes} {ended : FieldEnd × Bytes} (number : NumberText data)
    (ends : Ends name.dialect tail ended) {quote : Bytes}
    (quoted : quote = [] ∨ quote = name.dialect.fieldsEnclosedBy) :
    readField name.dialect (quote ++ data ++ quote ++ tail) = (some data, ended) := by
  have unquoted : readField name.dialect (data ++ tail) = (some data, ended) := by
    have written : ∀ chr ∈ data, Written (characters name).escape
        (fun chr => chr = (characters name).field ∨ chr = (characters name).line) chr [chr]
        (.plain chr) := by
      intro chr member
      obtain ⟨notEscape, notField, notLine, -⟩ := number_ordinary name number member
      exact .plain notEscape (not_or.mpr ⟨notField, notLine⟩)
    have first : ∀ enclosing, name.dialect.fieldsEnclosedBy.head? = some enclosing →
        (data ++ tail).head? ≠ some enclosing := by
      intro enclosing encloses starts
      cases data with
      | nil =>
        obtain ⟨chr, rest, rfl, choice⟩ := ends.first (characters name)
        obtain ⟨-, notField, notLine⟩ := (characters name).enclosing_ne enclosing encloses
        cases starts
        exact choice.elim notField notLine
      | cons chr data =>
        cases starts
        exact (number_ordinary name number mem_cons_self).2.2.2 encloses
    have notWord : data ≠ ascii ['N', 'U', 'L', 'L'] := by
      rintro rfl
      exact absurd (number.1 78 (by decide)) (by decide)
    have read : readField name.dialect (data.flatMap (fun chr => [chr]) ++ tail) =
        (some data, ended) := by
      refine readField_unenclosed (characters name) written ?_ (.inr notWord) ends
      rw [flatMap_singleton']
      exact first
    rw [flatMap_singleton'] at read
    exact read
  rcases quoted with rfl | rfl
  · rw [nil_append, append_nil]
    exact unquoted
  · rcases enclosedBy_cases name with unused | ⟨enclosing, encloses⟩
    · rw [unused, nil_append, append_nil]
      exact unquoted
    · have written : ∀ chr ∈ data, Written (characters name).escape (fun chr => chr = enclosing)
          chr [chr] (.plain chr) := by
        intro chr member
        obtain ⟨notEscape, -, -, notEnclosing⟩ := number_ordinary name number member
        refine .plain notEscape ?_
        rintro rfl
        exact notEnclosing (by rw [encloses]; rfl)
      have read := readField_enclosed (characters name) encloses written ends
      rw [flatMap_singleton'] at read
      rw [encloses]
      exact read

/-- Values of number columns are numbers. -/
def ValidField (type : ColumnType) (field : Option RawData) : Prop :=
  type.isNumberType = true → ∀ raw, field = some raw → NumberText raw.data

/-- A field that was written is read back. -/
theorem readField_fieldBytes {type : ColumnType} (known : type ≠ .bit) {field : Option RawData}
    (valid : ValidField type field) {tail : Bytes} {ended : FieldEnd × Bytes}
    (ends : Ends name.dialect tail ended) :
    readField name.dialect
        (fieldBytes name.traits type.isStringType type.isNumberType
          (if type.isNumberType then .none else .full) field ++ tail) =
      (field.map data, ended) := by
  have quote : ∀ isString, quoteBytes name.traits isString = [] ∨
      quoteBytes name.traits isString = name.dialect.fieldsEnclosedBy := by
    intro isString
    cases name <;> cases isString <;> decide
  have strings : quoteBytes name.traits true = name.dialect.fieldsEnclosedBy := by
    cases name <;> decide
  have used : name.traits.fieldsEscapedBy ≠ [] := by cases name <;> decide
  have null : nullBytes name.traits = name.dialect.fieldsEscapedBy ++ ascii ['N'] := by
    cases name <;> decide
  cases field with
  | none =>
    simp only [fieldBytes]
    rw [null]
    exact readField_null (characters name) ends
  | some raw =>
    cases number : type.isNumberType with
    | true =>
      have text := valid number raw rfl
      simp only [fieldBytes, text.2, Bool.and_false, Bool.false_eq_true,
        if_false, if_true, storedBytes]
      exact readField_number name text ends (quote _)
    | false =>
      have string : type.isStringType = true := by
        cases type <;> first | rfl | exact absurd rfl known | cases number
      simp only [fieldBytes, string, Bool.false_and, Bool.false_eq_true,
        if_false, storedBytes, valueBytes, if_neg used,
        strings]
      exact readField_string name raw.data tail ended ends

/-! ## Rows -/

/-- Columns of strings and numbers that the server does not encode. -/
structure PlainColumns (metadata : List ColumnType) (encodings : List EncodingType) : Prop where
  known : ∀ type ∈ metadata, type ≠ .bit
  plain : ∀ encoding ∈ encodings, encoding = .none

/-- A row of the columns: as many fields, and numbers where the columns are of numbers. -/
structure ValidRow (metadata : List ColumnType) (row : Row) : Prop where
  length_eq : row.length = metadata.length
  valid : ∀ index type, metadata[index]? = some type → ValidField type (row.getRawData index)

variable {encodings : List EncodingType}

theorem columns_at {metadata : List ColumnType} (columns : PlainColumns metadata encodings)
    {index : Nat} {type : ColumnType} (column : metadata[index]? = some type) :
    let read := Columns.read escapeOf metadata encodings
    read.isStringType.getD index false = type.isStringType ∧
      read.isNumberType.getD index false = type.isNumberType ∧
      read.needsEscape.getD index .none = if type.isNumberType then .none else .full := by
  obtain ⟨inside, -⟩ := List.getElem?_eq_some_iff.mp column
  refine ⟨?_, ?_, ?_⟩
  · simp only [Columns.read, getD_eq_getElem?_getD, getElem?_map, column,
      Option.map_some, Option.getD_some]
  · simp only [Columns.read, getD_eq_getElem?_getD, getElem?_map, column,
      Option.map_some, Option.getD_some]
  · simp only [Columns.read, getD_eq_getElem?_getD, getElem?_map,
      getElem?_range inside, Option.map_some, Option.getD_some, column]
    unfold escapeOf encodingOf
    cases type.isNumberType with
    | true => rfl
    | false =>
      have unencoded : ∀ encoding, (if encodings.length = metadata.length then encodings[index]?
          else none) = some encoding → encoding = .none := by
        intro encoding found
        split at found
        · exact columns.plain encoding (mem_of_getElem? found)
        · cases found
      generalize (if encodings.length = metadata.length then encodings[index]? else none) =
        encoding at unencoded
      cases encoding with
      | none => rfl
      | some encoding =>
        obtain rfl := unencoded encoding rfl
        rfl

theorem rowBytes_ne_nil (columns : Columns) (row : Row) :
    rowBytes name.traits columns row ≠ [] := by
  intro empty
  have terminator := (append_eq_nil_iff.mp empty).2
  cases name <;> cases terminator

/-- A row that was written is read back, whatever follows it. -/
theorem readLine_rowBytes {metadata : List ColumnType} (columns : PlainColumns metadata encodings)
    {row : Row} (valid : ValidRow metadata row) (rest : Bytes) :
    readLine (fun input => some (readField name.dialect input))
        name.dialect.linesTerminatedBy metadata.length
        (rowBytes name.traits (.read escapeOf metadata encodings) row ++ rest) =
      some (row.map (Option.map data), rest) := by
  let columns' := Columns.read escapeOf metadata encodings
  have separator : name.traits.fieldsTerminatedBy = name.dialect.fieldsTerminatedBy := by
    cases name <;> rfl
  have terminator : name.traits.linesTerminatedBy = name.dialect.linesTerminatedBy := by
    cases name <;> rfl
  have reads : ∀ index, index < metadata.length →
      Reads (fun input => some (readField name.dialect input)) name.dialect.fieldsTerminatedBy
        name.dialect.linesTerminatedBy
        (fieldBytes name.traits (columns'.isStringType.getD index false)
          (columns'.isNumberType.getD index false) (columns'.needsEscape.getD index .none)
          (row.getRawData index))
        ((row.getRawData index).map data) := by
    intro index inside
    obtain ⟨type, column⟩ : ∃ type, metadata[index]? = some type := ⟨_, getElem?_eq_getElem inside⟩
    obtain ⟨string, number, escape⟩ := columns_at columns column
    have known := columns.known type (mem_of_getElem? column)
    have field := valid.valid index type column
    rw [string, number, escape]
    constructor
    · intro rest
      exact congrArg some (readField_fieldBytes name known field (.field rest))
    · intro rest
      exact congrArg some (readField_fieldBytes name known field (.line rest))
  have whole := readLine_line reads rest
  rw [Row.map_getRawData valid.length_eq, ← separator, ← terminator] at whole
  rw [← terminator]
  exact whole

/--
What either writer of an escaping dialect writes for rows of strings and numbers is
read back as these rows.
-/
theorem decode_output (metadata : List ColumnType) (encodings : List EncodingType)
    (columns : PlainColumns metadata encodings) (rows : List Row)
    (valid : ∀ row ∈ rows, ValidRow metadata row) :
    decode name.dialect metadata.length
        ((name.dialectOutput metadata encodings rows).1 ++
          (name.dialectOutput metadata encodings rows).2.flatten) =
      some (rows.map fun row => row.map (Option.map data)) ∧
    decode name.dialect metadata.length
        ((name.textOutput metadata encodings rows).1 ++
          (name.textOutput metadata encodings rows).2.flatten) =
      some (rows.map fun row => row.map (Option.map data)) := by
  have same : name.textOutput metadata encodings rows =
      name.dialectOutput metadata encodings rows := by
    rw [textOutput_eq, dialectOutput_eq]
    congr 1
    refine map_congr_left fun row _ => text_rowBytes name _ row ?_
    intro index stored
    have encoded := encoding_of_needsEscape metadata encodings stored
    exact absurd (columns.plain _ (mem_of_getElem? encoded)) (by decide)
  have decoded : decode name.dialect metadata.length
      ((name.dialectOutput metadata encodings rows).1 ++
        (name.dialectOutput metadata encodings rows).2.flatten) =
      some (rows.map fun row => row.map (Option.map data)) := by
    rw [dialectOutput_eq, nil_append]
    exact decode_lines rows (fun row _ => rowBytes_ne_nil name _ row)
      fun row member => readLine_rowBytes name columns (valid row member)
  exact ⟨decoded, same ▸ decoded⟩

end BuiltIn

/-- Values that end in an escape character or look like `NULL`, and a negative number. -/
def ambiguousRows : List Row :=
  [[some ⟨ascii ['\\'], 0⟩, none],
    [some ⟨ascii ['N', 'U', 'L', 'L'], 0⟩, some ⟨ascii ['-', '1'], 0⟩]]

theorem decode_output_ambiguous : (∀ row ∈ ambiguousRows, ValidRow [.string, .integer] row) ∧
    decode Dialect.csv 2 ((csv.dialectOutput [.string, .integer] [] ambiguousRows).1 ++
        (csv.dialectOutput [.string, .integer] [] ambiguousRows).2.flatten) =
      some [[some (ascii ['\\']), none], [some (ascii ['N', 'U', 'L', 'L']),
        some (ascii ['-', '1'])]] := by
  have valid : ∀ row ∈ ambiguousRows, ValidRow [.string, .integer] row := by
    intro row member
    have number : NumberText (ascii ['-', '1']) := ⟨by decide +kernel, by decide⟩
    rcases mem_cons.mp member with rfl | member
    · refine ⟨rfl, fun index type column isNumber raw field => ?_⟩
      match index, column with
      | 0, rfl => cases isNumber
      | 1, rfl => cases field
    · obtain rfl := mem_singleton.mp member
      refine ⟨rfl, fun index type column isNumber raw field => ?_⟩
      match index, column with
      | 0, rfl => cases isNumber
      | 1, rfl =>
        cases field
        exact number
  exact ⟨valid, (decode_output .csv [.string, .integer] [] ⟨by decide, by decide⟩ _ valid).1⟩

/-! ## Transactions -/

variable {metadata : List ColumnType} {encodings : List EncodingType} {row : Row}

theorem newline_not_mem_escapeByte (chr : UInt8) : newline ∉ escapeByte .default_ chr := by
  unfold escapeByte
  cases choice : toWrite .default_ chr with
  | none => exact fun member => (toWrite_none .default_ choice).2.1 (mem_singleton.mp member).symm
  | some written =>
    have meaning := (toWrite_some .default_ choice).1
    rintro (_ | ⟨_, _ | ⟨_, ⟨⟩⟩⟩)
    cases (meaning : newline = chr)
    cases choice

theorem newline_not_mem_fieldBytes {type : ColumnType} {field : Option RawData}
    (valid : ValidField type field) (isString : Bool) :
    newline ∉ fieldBytes .default_ isString type.isNumberType
      (if type.isNumberType then .none else .full) field := by
  have null : newline ∉ nullBytes .default_ := by decide
  have quote : quoteBytes .default_ isString = [] := by cases isString <;> rfl
  unfold fieldBytes
  split
  · exact null
  · next raw =>
    split
    · exact null
    · rw [quote, nil_append, append_nil]
      cases number : type.isNumberType with
      | true =>
        exact fun member => (number_ordinary .default_ (valid number raw rfl) member).2.2.1 rfl
      | false =>
        intro member
        obtain ⟨chr, -, inside⟩ := mem_flatMap.mp member
        exact newline_not_mem_escapeByte chr inside

/-- The end of a row of the default dialect is its only line terminator. -/
theorem rows_rowBytes (columns : PlainColumns metadata encodings) (valid : ValidRow metadata row) :
    rows (rowBytes .default_ (.read escapeOf metadata encodings) row) =
      [rowBytes .default_ (.read escapeOf metadata encodings) row] := by
  refine rows_singleRow (rowBytes_ne_nil .default_ _ row) fun inside => ?_
  rw [rowBytes, show Traits.default_.linesTerminatedBy = [newline] from rfl, dropLast_concat]
    at inside
  obtain ⟨_, member, inside⟩ := mem_flatten.mp inside
  obtain ⟨index, within, rfl⟩ := mem_map.mp member
  have column := getElem?_eq_getElem (mem_range.mp within : index < metadata.length)
  obtain ⟨string, number, escape⟩ := columns_at columns column
  rw [separatedBytes, string, number, escape] at inside
  rcases mem_append.mp inside with separator | inside
  · split at separator <;> cases separator
    contradiction
  · exact newline_not_mem_fieldBytes (valid.valid index _ column) _ inside

theorem rows_dumped (columns : PlainColumns metadata encodings) {dumped : List Row}
    (valid : ∀ row ∈ dumped, ValidRow metadata row) :
    rows (dumped.map (rowBytes .default_ (.read escapeOf metadata encodings))).flatten =
      dumped.map (rowBytes .default_ (.read escapeOf metadata encodings)) := by
  rw [rows_flatten, flatMap_map, flatMap_congr fun row member =>
    rows_rowBytes columns (valid row member), map_eq_flatMap]
  intro line member
  obtain ⟨row, -, rfl⟩ := mem_map.mp (mem_of_mem_dropLast member)
  exact getLast?_concat

/-- Transactions that consist of the rows are groups of them. -/
theorem exists_groups {write : Row → Bytes} {dumped : List Row} {transactions : List Bytes}
    (same : dumped.map write = transactions.flatMap rows) :
    ∃ groups : List (List Row), groups.flatten = dumped ∧
      transactions = groups.map fun group => (group.map write).flatten := by
  induction transactions generalizing dumped with
  | nil => exact ⟨[], (map_eq_nil_iff.mp same).symm, rfl⟩
  | cons transaction transactions ih =>
    obtain ⟨group, later, rfl, first, rest⟩ := map_eq_append_iff.mp same
    obtain ⟨groups, rfl, others⟩ := ih rest
    exact ⟨group :: groups, rfl, by rw [map_cons, first, flatten_rows, ← others]⟩

/--
The rows of a dump in the default dialect are loaded in transactions of whole rows: each
transaction is read as some of the rows, and together these are the rows in their order.
-/
theorem loaded_rows (columns : PlainColumns metadata encodings) {dumped : List Row}
    (valid : ∀ row ∈ dumped, ValidRow metadata row) {file : SourceFile}
    (written : file.bytes = (default_.dialectOutput metadata encodings dumped).2.flatten)
    (fresh : file.offset = 0) (healthy : file.Healthy) {limit : UInt64} (positive : limit ≠ 0)
    (narrow : limit.toNat ≤ 2 ^ 32 ∨ file.bytes.length < 2 ^ 32) {sizes : Nat → UInt32}
    (sizesOk : ReadSizes sizes) :
    ∃ transactions, (∀ fuel, file.bytes.length + 1 < fuel →
        loadTransactions sizes fuel (.create .default_ file limit 0) 0 = some transactions) ∧
      ∃ groups : List (List Row), groups.flatten = dumped ∧
        transactions.map (decode .default_ metadata.length) =
          groups.map fun group => some (group.map fun row => row.map (Option.map data)) := by
  have rest_eq : file.rest = file.bytes := by rw [SourceFile.rest, fresh, drop_zero]
  rw [← rest_eq] at narrow written ⊢
  obtain ⟨core, phase⟩ := create_spec positive healthy
  obtain ⟨transactions, -, runs, good⟩ := loadTransactions_spec sizesOk core phase
    (smooth_of_small positive healthy sizesOk narrow)
  rw [dialectOutput_eq] at written
  have flat := good.flatten_eq.trans written
  obtain ⟨groups, rfl, rfl⟩ := exists_groups
    ((rows_dumped columns valid).symm.trans (flat ▸ rows_flatten good.endsRow))
  refine ⟨_, runs, groups, rfl, ?_⟩
  rw [map_map]
  refine map_congr_left fun group member => ?_
  exact decode_lines group (fun row _ => rowBytes_ne_nil .default_ _ row) fun row inside =>
    readLine_rowBytes .default_ columns (valid row (mem_flatten_of_mem member inside))

/-- A value with a line end and `NULL`. -/
def lineEndFile : SourceFile :=
  ⟨[97, 92, 110, 10, 92, 78, 10], 0, 0, true, fun _ => some 9, by decide⟩

theorem loaded_rows_line_end :
    ∃ transactions, (∀ fuel, 8 < fuel → loadTransactions (fun _ => 2) fuel
        (.create .default_ lineEndFile 4 0) 0 = some transactions) ∧
      ∃ groups : List (List Row), groups.flatten = [[some ⟨[97, 10], 0⟩], [none]] ∧
        transactions.map (decode .default_ 1) =
          groups.map fun group => some (group.map fun row => row.map (Option.map data)) := by
  refine @loaded_rows [.string] [] ⟨by decide, by decide⟩ [[some ⟨[97, 10], 0⟩], [none]] ?_
    lineEndFile (by decide +kernel) rfl (fun _ => Option.some_ne_none _) 4 (by decide)
    (.inl (by decide)) (fun _ => 2) (readSizes_const (by decide) (by decide))
  have strings {row : Row} : ∀ index type, [ColumnType.string][index]? = some type →
      ValidField type (row.getRawData index) := by
    intro index type column number
    cases mem_singleton.mp (mem_of_getElem? column)
    cases number
  simp only [forall_mem_cons]
  exact ⟨⟨rfl, strings⟩, ⟨rfl, strings⟩, nofun⟩

end LoadData

end MariadbShell.Dump
