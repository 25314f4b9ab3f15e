import MariadbShell.Dump.Buffer

/-!
# The writer that doubles the enclosing character

`Fast_dialect_dump_writer` is for dialects without an escape character. A value is enclosed
only if it has to be, with the enclosing character doubled inside of it. It is searched for the
characters that need attention and copied in spans.
-/

namespace MariadbShell.Dump

open List ImportTable Buffer

/-- Traits without escape character, the other ones being single characters. -/
structure FastTraits where
  linesTerminatedBy : UInt8
  fieldsTerminatedBy : UInt8
  fieldsEnclosedBy : UInt8
  fieldsOptionallyEnclosed : Bool

namespace FastTraits

def csvRfcUnix : FastTraits where
  linesTerminatedBy := Byte.newline
  fieldsTerminatedBy := Byte.comma
  fieldsEnclosedBy := Byte.doubleQuote
  fieldsOptionallyEnclosed := true

end FastTraits

namespace FastDumpWriter

/-- The word that stands for SQL `NULL`. -/
def nullWord : Bytes := ascii ['N', 'U', 'L', 'L']

/-- Number of bytes before the first one of the needles. -/
def findAnyOf (needles : Bytes) : Bytes → Nat
  | [] => 0
  | chr :: rest => if needles.contains chr then 0 else findAnyOf needles rest + 1

section Template

variable (traits : FastTraits)

def escapeOf (type : ColumnType) (encoding : Option EncodingType) : EscapeType :=
  match encoding with
  | some .base64 => .base64
  | some .hex => .none
  | some .vector => if traits.fieldsTerminatedBy = Byte.comma then .full else .none
  | some .none | none => if type.isNumeric then .none else .full

/-- What `read_metadata` finds out about the columns. -/
structure FastColumns where
  numFields : Nat
  isNumeric : List Bool
  needsEscape : List EscapeType
deriving DecidableEq, Repr

def readColumns (metadata : List ColumnType) (encodings : List EncodingType) : FastColumns where
  numFields := metadata.length
  isNumeric := metadata.map ColumnType.isNumeric
  needsEscape := (List.range metadata.length).map fun index =>
    escapeOf traits (metadata.getD index .null) (encodingOf metadata encodings index)

def fixedLength (columns : FastColumns) : Nat :=
  1 + (columns.numFields - 1) +
    (columns.needsEscape.map fun escape =>
      if !traits.fieldsOptionallyEnclosed || escape == .full then 2 else 0).sum

def readMetadata (metadata : List ColumnType) (encodings : List EncodingType) (buffer : Buffer) :
    FastColumns × Buffer :=
  (readColumns traits metadata encodings,
    buffer.setFixedLength (fixedLength traits (readColumns traits metadata encodings)))

def storeNull (buffer : Buffer) : Buffer :=
  (buffer.willWrite nullWord.length).append nullWord

def storeFieldsEnclosedBy (buffer : Buffer) : Buffer :=
  buffer.appendFixed [traits.fieldsEnclosedBy]

def quoteField (buffer : Buffer) : Buffer :=
  if traits.fieldsOptionallyEnclosed then buffer else storeFieldsEnclosedBy traits buffer

variable (data : Bytes)

def findEnclosedBy : Nat :=
  findAnyOf [traits.fieldsEnclosedBy] data

/-- Characters that make it necessary to enclose a value. -/
def needles : Bytes :=
  [traits.fieldsEnclosedBy, traits.fieldsTerminatedBy, traits.linesTerminatedBy]

/--
Whether the value is enclosed, and the offset of the first enclosing character in it or its
length.
-/
def inspect : Bool × Nat :=
  if traits.fieldsOptionallyEnclosed then
    let found := findAnyOf (needles traits) data
    if found < data.length then
      if data[found]? ≠ some traits.fieldsEnclosedBy then
        (true, found + 1 + findEnclosedBy traits (data.drop (found + 1)))
      else (true, found)
    else (data == nullWord, found)
  else (false, findEnclosedBy traits data)

/-- Copy the rest of a value, whose first enclosing character is at the offset. -/
def copyDoubling : Nat → Bytes → Nat → Buffer → Buffer
  | 0, _, _, buffer => buffer
  | fuel + 1, data, offset, buffer =>
    if offset < data.length then
      let rest := data.drop (offset + 1)
      copyDoubling fuel rest (findEnclosedBy traits rest)
        ((buffer.append (data.take (offset + 1))).append [traits.fieldsEnclosedBy])
    else buffer.append data

def storeEscapedField (buffer : Buffer) : Buffer :=
  if data = [] then buffer
  else
    let (enclose, offset) := inspect traits data
    let reserved := buffer.willWrite (2 * data.length)
    let opened := if enclose then storeFieldsEnclosedBy traits reserved else reserved
    let copied := copyDoubling traits (data.length + 1) data offset opened
    if enclose then storeFieldsEnclosedBy traits copied else copied

def storeBase64Field (buffer : Buffer) : Buffer :=
  buffer.writeBase64Data data

def storeUnescapedField (buffer : Buffer) : Buffer :=
  (buffer.willWrite data.length).append data

variable (columns : FastColumns)

def storeField (row : Row) (index : Nat) (buffer : Buffer) : Buffer :=
  let separated := if index ≠ 0 then buffer.appendFixed [traits.fieldsTerminatedBy] else buffer
  match row.getRawData index with
  | none => storeNull separated
  | some raw =>
    if columns.isNumeric.getD index false && looksAlphabetic raw.data then storeNull separated
    else
      let quoted := quoteField traits separated
      let stored :=
        match columns.needsEscape.getD index .none with
        | .full => storeEscapedField traits raw.data quoted
        | .base64 => storeBase64Field raw.data quoted
        | .none => storeUnescapedField raw.data quoted
      quoteField traits stored

def finishRow (buffer : Buffer) : Buffer :=
  buffer.appendFixed [traits.linesTerminatedBy]

def storeRow (row : Row) (buffer : Buffer) : Buffer :=
  finishRow traits (storeFields (storeField traits columns row) columns.numFields buffer)

def output (metadata : List ColumnType) (encodings : List EncodingType) (rows : List Row) :
    Bytes × List Bytes :=
  let (columns, buffer) := readMetadata traits metadata encodings .create
  (writePreamble buffer, writeRows (storeRow traits columns) rows buffer)

end Template

/-! ## What is written -/

section Written

variable (traits : FastTraits)

theorem findAnyOf_le (needles data : Bytes) : findAnyOf needles data ≤ data.length := by
  induction data with
  | nil => exact Nat.le_refl 0
  | cons chr rest ih =>
    unfold findAnyOf
    split
    · exact Nat.zero_le _
    · exact Nat.succ_le_succ ih

/-- A search that finds nothing. -/
theorem not_mem_of_findAnyOf {needles data : Bytes}
    (nothing : ¬ findAnyOf needles data < data.length) : ∀ chr ∈ data, chr ∉ needles := by
  induction data with
  | nil =>
    intro chr impossible
    cases impossible
  | cons first rest ih =>
    unfold findAnyOf at nothing
    by_cases special : needles.contains first = true
    · rw [if_pos special] at nothing
      exact absurd (Nat.succ_pos _) nothing
    · rw [if_neg special, length_cons, Nat.succ_lt_succ_iff] at nothing
      intro chr member
      rcases mem_cons.mp member with rfl | later
      · simpa using special
      · exact ih nothing chr later

def doubled (data : Bytes) : Bytes :=
  data.flatMap fun chr =>
    if chr = traits.fieldsEnclosedBy then [traits.fieldsEnclosedBy, traits.fieldsEnclosedBy]
    else [chr]

theorem doubled_cons (chr : UInt8) (rest : Bytes) :
    doubled traits (chr :: rest) =
      (if chr = traits.fieldsEnclosedBy then [traits.fieldsEnclosedBy, traits.fieldsEnclosedBy]
        else [chr]) ++ doubled traits rest :=
  flatMap_cons

theorem doubled_eq_self {data : Bytes} (absent : traits.fieldsEnclosedBy ∉ data) :
    doubled traits data = data := by
  induction data with
  | nil => rfl
  | cons chr rest ih =>
    have other : chr ≠ traits.fieldsEnclosedBy := (ne_of_not_mem_cons absent).symm
    rw [doubled_cons, if_neg other, ih (not_mem_of_not_mem_cons absent)]
    rfl

theorem findEnclosedBy_cons (chr : UInt8) (rest : Bytes) :
    findEnclosedBy traits (chr :: rest) =
      if chr = traits.fieldsEnclosedBy then 0 else findEnclosedBy traits rest + 1 := by
  rw [findEnclosedBy, findAnyOf]
  by_cases encloses : chr = traits.fieldsEnclosedBy
  · rw [if_pos (by simp [encloses]), if_pos encloses]
  · rw [if_neg (by simp [encloses]), if_neg encloses]
    rfl

/-- Bytes before the first enclosing character are copied. -/
theorem doubled_split (data : Bytes) :
    doubled traits data =
      data.take (findEnclosedBy traits data) ++
        doubled traits (data.drop (findEnclosedBy traits data)) := by
  induction data with
  | nil => rfl
  | cons chr rest ih =>
    rw [findEnclosedBy_cons]
    by_cases encloses : chr = traits.fieldsEnclosedBy
    · rw [if_pos encloses]
      rfl
    · rw [if_neg encloses, doubled_cons, if_neg encloses, ih]
      rfl

/-- At the offset that was found stands the enclosing character. -/
theorem drop_findEnclosedBy {data : Bytes} (inside : findEnclosedBy traits data < data.length) :
    data.drop (findEnclosedBy traits data) =
      traits.fieldsEnclosedBy :: data.drop (findEnclosedBy traits data + 1) := by
  induction data with
  | nil => exact absurd inside (Nat.not_lt_zero _)
  | cons chr rest ih =>
    rw [findEnclosedBy_cons] at inside ⊢
    by_cases encloses : chr = traits.fieldsEnclosedBy
    · rw [if_pos encloses, encloses]
      rfl
    · rw [if_neg encloses] at inside ⊢
      exact ih (Nat.lt_of_succ_lt_succ inside)

theorem copyDoubling_data (fuel : Nat) (data : Bytes) (buffer : Buffer)
    (enough : data.length < fuel) :
    (copyDoubling traits fuel data (findEnclosedBy traits data) buffer).data =
      buffer.data ++ doubled traits data := by
  induction fuel generalizing data buffer with
  | zero => exact absurd enough (Nat.not_lt_zero _)
  | succ fuel ih =>
    unfold copyDoubling
    by_cases inside : findEnclosedBy traits data < data.length
    · have shorter : (data.drop (findEnclosedBy traits data + 1)).length < fuel := by
        rw [length_drop]
        omega
      have rest := drop_findEnclosedBy traits inside
      have span : data.take (findEnclosedBy traits data + 1) =
          data.take (findEnclosedBy traits data) ++ [traits.fieldsEnclosedBy] := by
        rw [take_add_one, ← head?_drop, rest]
        rfl
      rw [if_pos inside]
      rw [ih _ _ shorter, append_data, append_data, span, doubled_split traits data,
        rest, doubled_cons, if_pos rfl]
      simp only [append_assoc, cons_append, nil_append]
    · have whole : findEnclosedBy traits data = data.length :=
        Nat.le_antisymm (findAnyOf_le _ _) (Nat.not_lt.mp inside)
      rw [if_neg inside, doubled_split traits data, whole, take_length, drop_length]
      exact congrArg _ (append_nil _).symm

/-- The search for any special character finds the way to the first enclosing character. -/
theorem findEnclosedBy_eq (data : Bytes) :
    findEnclosedBy traits data =
      if findAnyOf (needles traits) data < data.length ∧
          data[findAnyOf (needles traits) data]? ≠ some traits.fieldsEnclosedBy then
        findAnyOf (needles traits) data + 1 +
          findEnclosedBy traits (data.drop (findAnyOf (needles traits) data + 1))
      else findAnyOf (needles traits) data := by
  induction data with
  | nil => rfl
  | cons chr rest ih =>
    rw [findEnclosedBy_cons]
    unfold findAnyOf
    by_cases encloses : chr = traits.fieldsEnclosedBy
    · have special : (needles traits).contains chr = true := by simp [needles, encloses]
      rw [if_pos encloses, if_pos special, if_neg (by simp [encloses])]
    · rw [if_neg encloses]
      by_cases special : (needles traits).contains chr = true
      · rw [if_pos special, if_pos ⟨Nat.succ_pos _, by simpa using encloses⟩]
        rw [drop_succ_cons, drop_zero, Nat.add_comm]
      · rw [if_neg special, ih]
        simp only [length_cons, getElem?_cons_succ, drop_succ_cons, Nat.add_lt_add_iff_right]
        split
        · omega
        · rfl

theorem inspect_offset (data : Bytes) : (inspect traits data).2 = findEnclosedBy traits data := by
  unfold inspect
  split
  · rw [findEnclosedBy_eq]
    by_cases inside : findAnyOf (needles traits) data < data.length
    · by_cases other : data[findAnyOf (needles traits) data]? ≠ some traits.fieldsEnclosedBy
      · simp only [if_pos inside, if_pos other, if_pos (And.intro inside other)]
      · simp only [if_pos inside, if_neg other, if_neg fun both : _ ∧ _ => other both.2]
    · simp only [if_neg inside, if_neg fun both : _ ∧ _ => inside both.1]
  · rfl

def escapedBytes (data : Bytes) : Bytes :=
  let quote := if (inspect traits data).1 then [traits.fieldsEnclosedBy] else []
  quote ++ doubled traits data ++ quote

theorem storeEscapedField_data (data : Bytes) (buffer : Buffer) :
    (storeEscapedField traits data buffer).data = buffer.data ++ escapedBytes traits data := by
  unfold storeEscapedField escapedBytes
  by_cases empty : data = []
  · have plain : (inspect traits ([] : Bytes)).1 = false := by
      unfold inspect
      split <;> rfl
    rw [empty]
    simp [plain, doubled]
  · rw [if_neg empty]
    have copied : ∀ opened : Buffer,
        (copyDoubling traits (data.length + 1) data (inspect traits data).2 opened).data =
          opened.data ++ doubled traits data := by
      intro opened
      rw [inspect_offset]
      exact copyDoubling_data traits _ data opened (Nat.lt_succ_self _)
    simp only []
    cases (inspect traits data).1 with
    | true =>
      simp only [if_true, storeFieldsEnclosedBy, appendFixed_data, copied,
        willWrite_data, append_assoc]
    | false =>
      simp only [Bool.false_eq_true, if_false, copied, willWrite_data, nil_append, append_nil]

def storedBytes (escape : EscapeType) (data : Bytes) : Bytes :=
  match escape with
  | .full => escapedBytes traits data
  | .base64 => base64Bytes data
  | .none => data

/-- The enclosing character, where every value is enclosed. -/
def quoteBytes : Bytes :=
  if traits.fieldsOptionallyEnclosed then [] else [traits.fieldsEnclosedBy]

theorem quoteField_data (buffer : Buffer) :
    (quoteField traits buffer).data = buffer.data ++ quoteBytes traits := by
  unfold quoteField quoteBytes
  split
  · exact (append_nil _).symm
  · exact appendFixed_data _ _

theorem storeNull_data (buffer : Buffer) : (storeNull buffer).data = buffer.data ++ nullWord := by
  rw [storeNull, append_data, willWrite_data]

def fieldBytes (isNumeric : Bool) (escape : EscapeType) (field : Option RawData) : Bytes :=
  match field with
  | none => nullWord
  | some raw =>
    if isNumeric && looksAlphabetic raw.data then nullWord
    else quoteBytes traits ++ storedBytes traits escape raw.data ++ quoteBytes traits

variable (columns : FastColumns)

def separatedBytes (row : Row) (index : Nat) : Bytes :=
  (if index ≠ 0 then [traits.fieldsTerminatedBy] else []) ++
    fieldBytes traits (columns.isNumeric.getD index false) (columns.needsEscape.getD index .none)
      (row.getRawData index)

theorem storeField_data (row : Row) (index : Nat) (buffer : Buffer) :
    (storeField traits columns row index buffer).data =
      buffer.data ++ separatedBytes traits columns row index := by
  have separated := buffer.separated_data index [traits.fieldsTerminatedBy]
  unfold storeField separatedBytes fieldBytes
  cases row.getRawData index with
  | none => rw [storeNull_data, separated, append_assoc]
  | some raw =>
    simp only []
    split
    · rw [storeNull_data, separated, append_assoc]
    · rw [quoteField_data]
      cases columns.needsEscape.getD index .none with
      | full =>
        simp only [storedBytes, storeEscapedField_data, quoteField_data, separated, append_assoc]
      | base64 =>
        simp only [storedBytes, storeBase64Field, writeBase64Data_data, quoteField_data,
          separated, append_assoc]
      | none =>
        simp only [storedBytes, storeUnescapedField, append_data, willWrite_data,
          quoteField_data, separated, append_assoc]

def rowBytes (row : Row) : Bytes :=
  ((List.range columns.numFields).map (separatedBytes traits columns row)).flatten ++
    [traits.linesTerminatedBy]

theorem storeRow_data (row : Row) (buffer : Buffer) :
    (storeRow traits columns row buffer).data = buffer.data ++ rowBytes traits columns row := by
  rw [storeRow, finishRow, appendFixed_data,
    storeFields_data (storeField_data traits columns row), append_assoc]
  rfl

theorem output_eq (metadata : List ColumnType) (encodings : List EncodingType) (rows : List Row) :
    output traits metadata encodings rows =
      ([], rows.map (rowBytes traits (readColumns traits metadata encodings))) := by
  unfold output readMetadata
  simp only []
  rw [writeRows_eq_map (storeRow_data traits _)]
  rfl

end Written

end FastDumpWriter

end MariadbShell.Dump
