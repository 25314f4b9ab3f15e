import MariadbShell.Lib.Separated
import MariadbShell.Dump.FileNames

/-!
# Files of a dump with the same name

The encoded names of objects can be told apart, and so can their base names. A file name
is a base name, the mark of a chunk and some words behind dots. Since dots are not
encoded, such a word can also be the end of the name of another object.
-/

namespace MariadbShell.Dump

open List Lib.Separated Entry

/-! ## Encoded names -/

theorem hexDigit_value {digit other : Nat} (small : digit < 16) (small' : other < 16)
    (same : hexDigit digit = hexDigit other) : digit = other := by
  have all : ∀ left < 16, ∀ right < 16, hexDigit left = hexDigit right → left = right := by
    decide
  exact all digit small other small' same

theorem hexDigit_ne_separator {digit : Nat} (small : digit < 16) : hexDigit digit ≠ separator := by
  have all : ∀ digit < 16, hexDigit digit ≠ separator := by decide
  exact all digit small

theorem isReserved_lt {chr : Char} (reserved : isReserved chr = true) : chr.toNat < 128 := by
  simp only [isReserved, decide_eq_true_eq] at reserved
  exact reserved.1

theorem separator_not_mem_hexencodeChar (chr : Char) : separator ∉ hexencodeChar chr := by
  unfold hexencodeChar
  split
  · next reserved =>
    have low := isReserved_lt reserved
    simp only [mem_cons, not_mem_nil, or_false, not_or]
    exact ⟨by decide, (hexDigit_ne_separator (by omega)).symm,
      (hexDigit_ne_separator (by omega)).symm⟩
  · next plain =>
    rw [mem_singleton]
    rintro rfl
    exact plain (by decide)

theorem separator_not_mem_hexencode (name : Name) : separator ∉ hexencode name := by
  intro member
  obtain ⟨chr, -, inside⟩ := mem_flatMap.mp member
  exact separator_not_mem_hexencodeChar chr inside

/-- The first character of an encoded name can be read off. -/
theorem hexencodeChar_append {left right : Char} {rest rest' : Name}
    (same : hexencodeChar left ++ rest = hexencodeChar right ++ rest') :
    left = right ∧ rest = rest' := by
  have percent : isReserved '%' = true := by decide
  unfold hexencodeChar at same
  split at same <;> split at same
  · next reserved reserved' =>
    have low := isReserved_lt reserved
    have low' := isReserved_lt reserved'
    simp only [cons_append, nil_append, List.cons.injEq, true_and] at same
    obtain ⟨high, second, rests⟩ := same
    have := hexDigit_value (by omega) (by omega) high
    have := hexDigit_value (by omega) (by omega) second
    exact ⟨Char.toNat_inj.mp (by omega), rests⟩
  · next plain =>
    simp only [cons_append, nil_append, List.cons.injEq] at same
    rw [← same.1] at plain
    exact absurd percent plain
  · next plain _ =>
    simp only [cons_append, nil_append, List.cons.injEq] at same
    rw [same.1] at plain
    exact absurd percent plain
  · simp only [cons_append, nil_append, List.cons.injEq] at same
    exact same

theorem hexencode_ne_nil (chr : Char) (name : Name) : hexencode (chr :: name) ≠ [] := by
  rw [hexencode, flatMap_cons]
  unfold hexencodeChar
  split <;> simp

variable {left right : Name}

theorem hexencode_inj (same : hexencode left = hexencode right) : left = right := by
  induction left generalizing right with
  | nil =>
    cases right with
    | nil => rfl
    | cons chr right => exact absurd same.symm (hexencode_ne_nil chr right)
  | cons chr left ih =>
    cases right with
    | nil => exact absurd same (hexencode_ne_nil chr left)
    | cons chr' right =>
      obtain ⟨rfl, rests⟩ := hexencodeChar_append same
      rw [ih rests]

/-! ## Paths of objects -/

/-- The names of an object and of those it belongs to. -/
def Entry.path : Entry → List Name
  | .schema name => [name]
  | .table owner name _ _ => [owner, name]
  | .part owner parent name _ => [owner, parent, name]
  | .view owner name => [owner, name]

def joined : List Name → Name
  | [] => []
  | [name] => hexencode name
  | name :: rest => hexencode name ++ separator :: joined rest

theorem Entry.encoded_eq (entry : Entry) : entry.encoded = joined entry.path := by
  cases entry with
  | schema | table | view => rfl
  | part =>
    simp [encoded, path, joined, encodePartitionBasename, encodeTableBasename, encodeSchemaBasename]

theorem Entry.path_ne_nil (entry : Entry) : entry.path ≠ [] := by
  cases entry <;> simp [path]

theorem joined_cons {rest : List Name} (more : rest ≠ []) (name : Name) :
    joined (name :: rest) = hexencode name ++ ([separator] ++ joined rest) := by
  cases rest with
  | nil => exact absurd rfl more
  | cons => rfl

theorem hexencode_free (name : Name) : Free [separator] (hexencode name) :=
  free_singleton (separator_not_mem_hexencode name)

/-- An encoded path that goes on with a separator is that of an object inside of another. -/
theorem joined_append {path longer : List Name} (some_ : path ≠ []) {rest : Name}
    (same : joined longer = joined path ++ separator :: rest) :
    ∃ inner, inner ≠ [] ∧ longer = path ++ inner := by
  induction path generalizing longer with
  | nil => exact absurd rfl some_
  | cons name path ih =>
    cases longer with
    | nil => simp [joined] at same
    | cons name' longer =>
      have nested : longer ≠ [] := by
        rintro rfl
        refine separator_not_mem_hexencode name' ?_
        change hexencode name' = _ at same
        rw [same]
        simp
      rw [joined_cons nested] at same
      by_cases last : path = []
      · subst last
        obtain ⟨names, -⟩ := split_first (hexencode_free name') (hexencode_free name) same
        exact ⟨longer, nested, by rw [hexencode_inj names]; rfl⟩
      · rw [joined_cons last, append_assoc, append_assoc] at same
        obtain ⟨names, rests⟩ := split_first (hexencode_free name') (hexencode_free name) same
        obtain ⟨inner, some_, rfl⟩ := ih last rests
        exact ⟨inner, some_, by rw [hexencode_inj names]; rfl⟩

theorem separator_joined {path : List Name} (some_ : path ≠ []) :
    separator :: joined path = (path.map hexencode).flatMap (separator :: ·) := by
  induction path with
  | nil => exact absurd rfl some_
  | cons name path ih =>
    by_cases last : path = []
    · subst last
      simp [joined]
    · rw [joined_cons last, map_cons, flatMap_cons, ← ih last]
      rfl

theorem joined_inj {left right : List Name} (some_ : left ≠ []) (some' : right ≠ [])
    (same : joined left = joined right) : left = right := by
  have absent (path : List Name) : ∀ word ∈ path.map hexencode, separator ∉ word := by
    simpa using fun name _ => separator_not_mem_hexencode name
  have words : [] ++ (left.map hexencode).flatMap (separator :: ·) =
      [] ++ (right.map hexencode).flatMap (separator :: ·) := by
    rw [← separator_joined some_, ← separator_joined some', same]
  have injective := map_injective_iff.mpr fun _ _ => hexencode_inj
  rcases marked_words (absent left) (absent right) words with
    ⟨front, all, empty⟩ | ⟨front, all, empty⟩ <;> cases front
  · exact injective all.symm
  · cases empty
  · exact injective all
  · cases empty

/-! ## Base names -/

theorem toDigits_inj {left right : Nat} (same : Nat.toDigits 10 left = Nat.toDigits 10 right) :
    left = right := by
  rw [← Nat.ofDigitChars_ten_toDigits (n := left), same, Nat.ofDigitChars_ten_toDigits]

/-- A base name is the encoded name, or the beginning of it with a number of its own. -/
inductive Shaped (maxLength : Nat) (encoded basename : Name) : Prop where
  | short (fits : encoded.length ≤ maxLength) (same : basename = encoded)
  | cut (long : maxLength < encoded.length) (ordinal : Nat)
      (same : basename = encoded.take maxLength ++ Nat.toDigits 10 ordinal)

/-- The numbers behind a truncated name are not used again. -/
def Later (basenames : Basenames) (encoded basename : Name) : Prop :=
  ∀ ordinal, basename = encoded.take basenames.maxLength ++ Nat.toDigits 10 ordinal →
    basenames.maxLength < encoded.length →
      basenames.truncated (encoded.take basenames.maxLength) ≤ ordinal

variable {basenames : Basenames}

theorem createSchemaTasks_shaped {entries : List Entry} {entry : Entry} {basename : Name}
    (member : (entry, basename) ∈ createSchemaTasks basenames entries) :
    entry ∈ entries ∧ Shaped basenames.maxLength entry.encoded basename ∧
      Later basenames entry.encoded basename := by
  induction entries generalizing basenames with
  | nil => cases member
  | cons first entries ih =>
    rw [createSchemaTasks, mem_cons] at member
    by_cases fits : first.encoded.length ≤ basenames.maxLength
    · simp only [Basenames.get, if_pos fits] at member
      rcases member with here | later
      · obtain ⟨rfl, rfl⟩ := Prod.mk.inj here
        refine ⟨mem_cons_self, .short fits rfl, fun ordinal _ long => ?_⟩
        omega
      · obtain ⟨inside, shaped, bound⟩ := ih later
        exact ⟨mem_cons_of_mem _ inside, shaped, bound⟩
    · simp only [Basenames.get, if_neg fits] at member
      rcases member with here | later
      · obtain ⟨rfl, rfl⟩ := Prod.mk.inj here
        refine ⟨mem_cons_self, .cut (by omega) _ rfl, fun ordinal same _ => ?_⟩
        exact (toDigits_inj (append_cancel_left same)).le
      · obtain ⟨inside, shaped, bound⟩ := ih later
        refine ⟨mem_cons_of_mem _ inside, shaped, fun ordinal same long => ?_⟩
        have least := bound ordinal same long
        simp only at least
        split at least
        · next cut_eq =>
          rw [cut_eq]
          omega
        · exact least

/-- A truncated name is too long for one that is not. -/
theorem length_of_cut {maxLength ordinal : Nat} {encoded basename : Name}
    (long : maxLength < encoded.length)
    (same : basename = encoded.take maxLength ++ Nat.toDigits 10 ordinal) :
    maxLength < basename.length := by
  have digits : 0 < (Nat.toDigits 10 ordinal).length := Nat.length_toDigits_pos
  rw [same, length_append, length_take]
  omega

theorem take_append_eq {left right tail tail' : Name} {count : Nat}
    (long : count ≤ left.length) (long' : count ≤ right.length)
    (same : left.take count ++ tail = right.take count ++ tail') :
    left.take count = right.take count ∧ tail = tail' := by
  refine append_inj same ?_
  rw [length_take, length_take]
  omega

theorem createSchemaTasks_nodup {entries : List Entry} (distinct : (entries.map encoded).Nodup) :
    ((createSchemaTasks basenames entries).map Prod.snd).Nodup := by
  induction entries generalizing basenames with
  | nil => exact nodup_nil
  | cons entry entries ih =>
    rw [map_cons, nodup_cons] at distinct
    obtain ⟨fresh, distinct⟩ := distinct
    rw [createSchemaTasks, map_cons, nodup_cons]
    refine ⟨?_, ih distinct⟩
    intro again
    obtain ⟨⟨other, basename⟩, member, same⟩ := mem_map.mp again
    obtain ⟨inside, shaped, later⟩ := createSchemaTasks_shaped member
    have different : other.encoded ≠ entry.encoded := fun equal =>
      fresh (equal ▸ mem_map_of_mem inside)
    by_cases fits : entry.encoded.length ≤ basenames.maxLength
    · simp only [Basenames.get, if_pos fits] at same shaped
      cases shaped with
      | short _ shape => exact different (shape.symm.trans same)
      | cut long ordinal shape =>
        have := length_of_cut long shape
        rw [same] at this
        omega
    · simp only [Basenames.get, if_neg fits] at same shaped later
      have long : basenames.maxLength < entry.encoded.length := by omega
      cases shaped with
      | short fits' shape =>
        have := length_of_cut long same
        rw [shape] at this
        omega
      | cut long' ordinal shape =>
        have least := later ordinal shape long'
        rw [shape] at same
        obtain ⟨cuts, ordinals⟩ := take_append_eq long'.le long.le same
        simp only [if_pos cuts, toDigits_inj ordinals] at least
        omega

/-! ## File names -/

inductive ExtraScript where
  | events
  | libraries
  | routines
  | triggers
  | pre
deriving DecidableEq, Repr

def ExtraScript.word : ExtraScript → Name
  | .events => "events".toList
  | .libraries => "libraries".toList
  | .routines => "routines".toList
  | .triggers => "triggers".toList
  | .pre => "pre".toList

inductive Ending where
  | script
  | extra (script : ExtraScript)
  | metadata
  | data (format : DataFormat) (compression : Compression) (index : Bool)
deriving DecidableEq, Repr

def Ending.words : Ending → List Name
  | .script => ["sql".toList]
  | .extra other => [other.word, "sql".toList]
  | .metadata => ["json".toList]
  | .data format compression index =>
    (match format with
      | .tsv => "tsv".toList
      | .csv => "csv".toList
      | .txt => "txt".toList) ::
    ((match compression with
      | .none => []
      | .gzip => ["gz".toList]
      | .zstd => ["zst".toList]) ++ if index then ["idx".toList] else [])

def Ending.all : List Ending :=
  [.script, .metadata] ++
    [ExtraScript.events, .libraries, .routines, .triggers, .pre].map .extra ++
      [DataFormat.tsv, .csv, .txt].flatMap fun format =>
        [Compression.none, .gzip, .zstd].flatMap fun compression =>
          [.data format compression false, .data format compression true]

theorem Ending.mem_all (ending : Ending) : ending ∈ all := by
  cases ending with
  | script | metadata => decide
  | extra other => cases other <;> decide
  | data format compression index =>
    cases format <;> cases compression <;> cases index <;> decide

theorem Ending.dot_not_mem (ending : Ending) : ∀ word ∈ ending.words, '.' ∉ word := by
  have check : ∀ ending ∈ all, ∀ word ∈ ending.words, '.' ∉ word := by decide
  exact check ending ending.mem_all

def Ending.isExtra : Ending → Bool
  | .extra _ => true
  | _ => false

/-- The words of a file are no last words of another one, except for the main script. -/
theorem Ending.words_suffix {ending other : Ending} (last : ending.words <:+ other.words) :
    ending = other ∨ ending = .script ∧ other.isExtra = true := by
  have check : ∀ ending ∈ all, ∀ other ∈ all, ending.words <:+ other.words →
      ending = other ∨ ending = .script ∧ other.isExtra = true := by
    decide +kernel
  exact check ending ending.mem_all other other.mem_all last

theorem Ending.front_cases {ending other : Ending} {front : List Name}
    (words : other.words = front ++ ending.words) :
    (ending = other ∧ front = []) ∨
      ∃ extra, ending = .script ∧ other = .extra extra ∧ front = [extra.word] := by
  rcases words_suffix ⟨front, words.symm⟩ with rfl | ⟨rfl, isExtra⟩
  · exact .inl ⟨rfl, by simpa using words⟩
  · cases other with
    | extra extra =>
      have fronts : front ++ ["sql".toList] = [extra.word] ++ ["sql".toList] := words.symm
      exact .inr ⟨extra, rfl, rfl, append_cancel_right fronts⟩
    | script | metadata | data => cases isExtra

structure Tail where
  chunk : Option (Nat × Bool)
  ending : Ending
deriving DecidableEq, Repr

def markText : Option (Nat × Bool) → Name
  | none => []
  | some (index, lastChunk) => chunkMark index lastChunk

def Tail.text (tail : Tail) : Name :=
  markText tail.chunk ++ tail.ending.words.flatMap ('.' :: ·)

theorem digits_of_mem {number : Nat} {chr : Char} (member : chr ∈ Nat.toDigits 10 number) :
    chr.isDigit = true :=
  Nat.isDigit_of_mem_toDigits (by decide) (by decide) member

theorem separator_not_mem_toDigits (number : Nat) : separator ∉ Nat.toDigits 10 number := by
  intro member
  exact absurd (digits_of_mem member) (by decide)

/-- Two base names with marks behind them. -/
theorem marked_eq {chunk chunk' : Option (Nat × Bool)}
    (same : left ++ markText chunk = right ++ markText chunk') :
    left = right ∧ chunk = chunk' ∨ (∃ rest, right = left ++ separator :: rest) ∨
      ∃ rest, left = right ++ separator :: rest := by
  cases chunk with
  | none =>
    cases chunk' with
    | none => exact .inl ⟨by simpa [markText] using same, rfl⟩
    | some other =>
      refine .inr (.inr ⟨(if other.2 then [separator] else []) ++ Nat.toDigits 10 other.1, ?_⟩)
      simpa [markText, chunkMark] using same
  | some one =>
    cases chunk' with
    | none =>
      refine .inr (.inl ⟨(if one.2 then [separator] else []) ++ Nat.toDigits 10 one.1, ?_⟩)
      simpa [markText, chunkMark] using same.symm
    | some other =>
      have moved : (left ++ if one.2 then [separator] else []) ++ separator ::
          Nat.toDigits 10 one.1 =
            (right ++ if other.2 then [separator] else []) ++ separator ::
              Nat.toDigits 10 other.1 := by
        rcases one with ⟨_, _ | _⟩ <;> rcases other with ⟨_, _ | _⟩ <;>
          simpa [markText, chunkMark] using same
      obtain ⟨names, digits⟩ := split_last (separator_not_mem_toDigits _)
        (separator_not_mem_toDigits _) moved
      obtain ⟨index, lastChunk⟩ := one
      obtain ⟨index', lastChunk'⟩ := other
      obtain rfl : index = index' := toDigits_inj digits
      cases lastChunk <;> cases lastChunk'
      · exact .inl ⟨by simpa using names, rfl⟩
      · exact .inr (.inr ⟨[], by simpa using names⟩)
      · exact .inr (.inl ⟨[], by simpa using names.symm⟩)
      · exact .inl ⟨append_cancel_right names, rfl⟩

/-- Two files with the same name. -/
theorem tail_eq {tail tail' : Tail} (same : left ++ tail.text = right ++ tail'.text) :
    (tail.ending = tail'.ending ∧ left ++ markText tail.chunk = right ++ markText tail'.chunk) ∨
    (∃ script, tail.ending = .extra script ∧ tail'.ending = .script ∧
      right ++ markText tail'.chunk = left ++ markText tail.chunk ++ '.' :: script.word) ∨
    (∃ script, tail'.ending = .extra script ∧ tail.ending = .script ∧
      left ++ markText tail.chunk = right ++ markText tail'.chunk ++ '.' :: script.word) := by
  rw [Tail.text, Tail.text, ← append_assoc, ← append_assoc] at same
  rcases marked_words tail.ending.dot_not_mem tail'.ending.dot_not_mem same with
    ⟨front, words, names⟩ | ⟨front, words, names⟩
  · rcases Ending.front_cases words with ⟨endings, rfl⟩ | ⟨script, main, extra, rfl⟩
    · exact .inl ⟨endings, by simpa using names⟩
    · exact .inr (.inr ⟨script, extra, main, by simpa using names⟩)
  · rcases Ending.front_cases words with ⟨endings, rfl⟩ | ⟨script, main, extra, rfl⟩
    · exact .inl ⟨endings.symm, by simpa using names.symm⟩
    · exact .inr (.inl ⟨script, extra, main, by simpa using names⟩)

/-! ## The files of an object -/

namespace DataFiles

variable (data : DataFiles)

/-- The chunks of the data, or the whole of it. -/
def bases : List (Option (Nat × Bool)) :=
  match data.chunks with
  | none => [none]
  | some numbers => numbers.map some

def tails : List Tail :=
  data.bases.map (⟨·, .data data.format data.compression false⟩) ++
    if data.indexFiles then data.bases.map (⟨·, .data data.format data.compression true⟩) else []

theorem text_data (chunk : Option (Nat × Bool)) (format : DataFormat) (compression : Compression)
    (basename : Name) :
    basename ++ (Tail.mk chunk (.data format compression false)).text =
      basename ++ markText chunk ++ '.' :: dataFileExtension format compression := by
  rw [Tail.text, ← append_assoc]
  cases format <;> cases compression <;> rfl

theorem text_index (chunk : Option (Nat × Bool)) (format : DataFormat)
    (compression : Compression) (basename : Name) :
    basename ++ (Tail.mk chunk (.data format compression true)).text =
      basename ++ (Tail.mk chunk (.data format compression false)).text ++ ".idx".toList := by
  have words : (Ending.data format compression true).words =
      (Ending.data format compression false).words ++ ["idx".toList] := by
    cases format <;> cases compression <;> rfl
  rw [Tail.text, Tail.text, words, flatMap_append, ← append_assoc, ← append_assoc, ← append_assoc]
  rfl

theorem dataNames_eq (basename : Name) :
    data.dataNames basename =
      data.bases.map fun chunk =>
        basename ++ (Tail.mk chunk (.data data.format data.compression false)).text := by
  cases chunks_eq : data.chunks with
  | none => simp [dataNames, bases, chunks_eq, text_data, markText, getTableDataFilename]
  | some numbers =>
    simp [dataNames, bases, chunks_eq, text_data, markText, getTableChunkFilename]

theorem names_eq (basename : Name) :
    data.names basename = data.tails.map fun tail => basename ++ tail.text := by
  rw [names, tails, dataNames_eq, map_append, map_map]
  cases data.indexFiles with
  | false => simp [Function.comp_def]
  | true => simp [Function.comp_def, text_index]

theorem bases_nodup : data.bases.Nodup := by
  unfold bases
  split
  · exact nodup_singleton _
  · next numbers chunks_eq =>
    exact (data.distinct numbers chunks_eq).map fun _ _ same => Option.some.inj same

theorem tails_nodup : data.tails.Nodup := by
  have kind (index : Bool) : (data.bases.map fun chunk =>
      Tail.mk chunk (.data data.format data.compression index)).Nodup :=
    data.bases_nodup.map fun _ _ same => (Tail.mk.inj same).1
  unfold tails
  split
  · refine (kind false).append (kind true) ?_
    intro tail plain indexed
    obtain ⟨_, -, rfl⟩ := mem_map.mp plain
    obtain ⟨_, -, same⟩ := mem_map.mp indexed
    cases same
  · simpa using kind false

theorem mem_tails {data : DataFiles} {tail : Tail} (member : tail ∈ data.tails) :
    tail.chunk ∈ data.bases ∧ ∃ index, tail.ending = .data data.format data.compression index := by
  simp only [tails, mem_append, mem_ite_nil_right, mem_map] at member
  rcases member with ⟨_, inside, rfl⟩ | ⟨-, _, inside, rfl⟩
  · exact ⟨inside, false, rfl⟩
  · exact ⟨inside, true, rfl⟩

end DataFiles

namespace Entry

variable (options : FileOptions)

def extras : Entry → List ExtraScript
  | .schema _ =>
    if options.ddl ∧ options.multifile then
      (if options.events then [.events] else []) ++
        (if options.libraries then [.libraries] else []) ++
          if options.routines then [.routines] else []
    else []
  | .table _ _ hasTriggers _ =>
    if options.ddl ∧ options.triggers ∧ hasTriggers then [.triggers] else []
  | .part .. => []
  | .view _ _ => if options.ddl then [.pre] else []

def hasScript : Entry → Bool
  | .part .. => false
  | _ => options.ddl

def hasMetadata : Entry → Bool
  | .schema _ | .table .. => options.metadata
  | .part .. | .view .. => false

def data? : Entry → Option DataFiles
  | .table _ _ _ data | .part _ _ _ data => data
  | .schema _ | .view .. => none

/-- What follows the base name in the names of the files of an object. -/
def tails (options : FileOptions) (entry : Entry) : List Tail :=
  (if entry.hasScript options then [⟨none, .script⟩] else []) ++
    (entry.extras options).map (⟨none, .extra ·⟩) ++
      (if entry.hasMetadata options then [⟨none, .metadata⟩] else []) ++
        (entry.data?.map DataFiles.tails).getD []

theorem files_perm (basename : Name) (entry : Entry) :
    (entry.files options basename).Perm
      ((entry.tails options).map fun tail => basename ++ tail.text) := by
  have data_eq (data : Option DataFiles) :
      (data.map fun data => data.names basename).getD [] =
        ((data.map DataFiles.tails).getD []).map fun tail => basename ++ tail.text := by
    cases data with
    | none => rfl
    | some data => exact data.names_eq basename
  obtain ⟨ddl, metadata, triggers, multifile, events, libraries, routines⟩ := options
  cases entry with
  | schema name =>
    cases ddl <;> cases metadata <;> cases multifile <;> cases events <;> cases libraries <;>
      cases routines <;> rfl
  | table owner name hasTriggers data =>
    simp only [files, tails, data?, map_append, data_eq]
    cases ddl <;> cases metadata <;> cases triggers <;> cases hasTriggers <;> rfl
  | part owner parent name data =>
    simp only [files, tails, data?, map_append, data_eq]
    rfl
  | view owner name =>
    cases ddl with
    | false => exact .refl _
    | true => exact .swap _ _ _

theorem extras_nodup (entry : Entry) : (entry.extras options).Nodup := by
  obtain ⟨ddl, metadata, triggers, multifile, events, libraries, routines⟩ := options
  cases entry with
  | schema name =>
    cases ddl <;> cases multifile <;> cases events <;> cases libraries <;> cases routines <;>
      simp [extras]
  | table owner name hasTriggers data =>
    cases ddl <;> cases triggers <;> cases hasTriggers <;> simp [extras]
  | part owner parent name data => exact nodup_nil
  | view owner name => cases ddl <;> simp [extras]

/-- What the files of an object say about it. -/
theorem tail_facts {options : FileOptions} {entry : Entry} {tail : Tail}
    (member : tail ∈ entry.tails options) :
    match tail.ending with
    | .script => entry.hasScript options = true ∧ tail.chunk = none
    | .extra script => script ∈ entry.extras options ∧ tail.chunk = none
    | .metadata => tail.chunk = none
    | .data .. => ∃ data, entry.data? = some data ∧ tail ∈ data.tails := by
  simp only [tails, mem_append, mem_ite_nil_right, mem_singleton, mem_map] at member
  rcases member with ((⟨has, rfl⟩ | ⟨script, inside, rfl⟩) | ⟨-, rfl⟩) | data
  · exact ⟨has, rfl⟩
  · exact ⟨inside, rfl⟩
  · rfl
  · cases data_eq : entry.data? with
    | none =>
      rw [data_eq] at data
      cases data
    | some files =>
      rw [data_eq] at data
      obtain ⟨-, index, ending⟩ := DataFiles.mem_tails data
      rw [ending]
      exact ⟨files, rfl, data⟩

end Entry

variable {tail : Tail} {basename : Name} {schemas : List SchemaInfo} {entry : Entry}
  {entries : List Entry} {options : FileOptions}

variable {data : DataFiles}

theorem Entry.tails_nodup (options : FileOptions) (entry : Entry) :
    (entry.tails options).Nodup := by
  have one (ending : Ending) (written : Bool) :
      (if written then [Tail.mk none ending] else []).Nodup := by
    cases written <;> simp
  have extras := (entry.extras_nodup options).map (f := fun script => Tail.mk none (.extra script))
    fun _ _ same => by simpa using same
  have data : ((entry.data?.map DataFiles.tails).getD []).Nodup := by
    cases entry.data? with
    | none => exact nodup_nil
    | some data => exact data.tails_nodup
  refine (((one .script _).append extras ?_).append (one .metadata _) ?_).append data ?_
  · intro tail script extra
    obtain ⟨_, -, rfl⟩ := mem_map.mp extra
    simp at script
  · intro tail earlier metadata
    simp only [mem_append, mem_ite_nil_right, mem_singleton, mem_map] at earlier metadata
    rcases earlier with ⟨-, rfl⟩ | ⟨_, -, rfl⟩ <;> cases metadata.2
  · intro tail earlier inside
    cases data_eq : entry.data? with
    | none =>
      rw [data_eq] at inside
      cases inside
    | some files =>
      rw [data_eq] at inside
      obtain ⟨-, index, ending⟩ := DataFiles.mem_tails inside
      simp only [mem_append, mem_ite_nil_right, mem_singleton, mem_map] at earlier
      rcases earlier with (⟨-, rfl⟩ | ⟨_, -, rfl⟩) | ⟨-, rfl⟩ <;> cases ending

/-! ## Base names inside of others -/

/-- A base name that goes on where another one ends. -/
theorem Shaped.append {maxLength : Nat} {encoded encoded' basename' : Name}
    (shaped : Shaped maxLength encoded basename) (shaped' : Shaped maxLength encoded' basename')
    {marker : Char} (notDigit : marker.isDigit = false) {rest : Name}
    (same : basename' = basename ++ marker :: rest) :
    basename = encoded ∧ ∃ rest', encoded' = encoded ++ marker :: rest' := by
  have absent (ordinal : Nat) : marker ∉ Nat.toDigits 10 ordinal := by
    intro member
    rw [digits_of_mem member] at notDigit
    cases notDigit
  cases shaped with
  | short fits shape =>
    refine ⟨shape, ?_⟩
    cases shaped' with
    | short _ shape' => exact ⟨rest, by rw [← shape', same, shape]⟩
    | cut long' ordinal' shape' =>
      rw [shape, shape'] at same
      -- the marker stands in the part that was kept, as the number holds none
      have inside : encoded.length < maxLength := by
        by_contra outside
        have cut : (encoded'.take maxLength).length = encoded.length := by
          rw [length_take]
          omega
        obtain ⟨-, digits⟩ := append_inj same cut
        refine absent ordinal' ?_
        rw [digits]
        exact mem_cons_self
      have kept : encoded'.take (encoded.length + 1) = encoded ++ [marker] := by
        have taken := congrArg (List.take (encoded.length + 1)) same
        rw [take_append_of_le_length (by rw [length_take]; omega), take_take,
          Nat.min_eq_left (by omega)] at taken
        rw [taken, take_append]
        simp
      rw [← take_append_drop (encoded.length + 1) encoded', kept]
      simp
  | cut long ordinal shape =>
    have wide := length_of_cut long shape
    cases shaped' with
    | short fits' shape' =>
      rw [shape'] at same
      have := congrArg List.length same
      rw [length_append] at this
      omega
    | cut long' ordinal' shape' =>
      rw [shape, shape', append_assoc] at same
      obtain ⟨-, digits⟩ := take_append_eq long'.le long.le same
      refine absurd ?_ (absent ordinal')
      rw [digits]
      simp

/-- The table of a partition has no data of its own. -/
theorem table_of_part {owner parent name : Name} {data : Option DataFiles}
    (member : part owner parent name data ∈ schemas.flatMap SchemaInfo.entries) :
    ∃ hasTriggers, table owner parent hasTriggers none ∈
      schemas.flatMap SchemaInfo.entries := by
  obtain ⟨schema, among, inside⟩ := mem_flatMap.mp member
  rw [SchemaInfo.entries, mem_cons, mem_append] at inside
  rcases inside with impossible | ofTable | ofView
  · cases impossible
  · obtain ⟨table, tableAmong, inTable⟩ := mem_flatMap.mp ofTable
    rw [TableInfo.entries, mem_cons] at inTable
    rcases inTable with impossible | partition
    · cases impossible
    · obtain ⟨part, partAmong, same⟩ := mem_map.mp partition
      obtain ⟨rfl, rfl, -, -⟩ := same
      refine ⟨table.hasTriggers, mem_flatMap.mpr ⟨schema, among, ?_⟩⟩
      rw [SchemaInfo.entries, mem_cons, mem_append]
      refine .inr (.inl (mem_flatMap.mpr ⟨table, tableAmong, ?_⟩))
      rw [TableInfo.entries, if_neg (ne_nil_of_mem partAmong)]
      exact mem_cons_self
  · obtain ⟨_, -, impossible⟩ := mem_map.mp ofView
    cases impossible

/-- The objects of a dump have different paths. -/
abbrev PathsDistinct (schemas : List SchemaInfo) : Prop :=
  ((schemas.flatMap SchemaInfo.entries).map path).Nodup

variable {entry' : Entry}

/-- The base name of data does not begin with that of other data and a separator. -/
theorem data_not_nested (distinct : PathsDistinct schemas)
    (member : entry ∈ schemas.flatMap SchemaInfo.entries)
    (member' : entry' ∈ schemas.flatMap SchemaInfo.entries) (hasData : entry.data?.isSome = true)
    (hasData' : entry'.data?.isSome = true) {rest : Name}
    (same : entry'.encoded = entry.encoded ++ separator :: rest) : False := by
  rw [entry.encoded_eq, entry'.encoded_eq] at same
  obtain ⟨inner, some_, paths⟩ := joined_append entry.path_ne_nil same
  have more : 0 < inner.length := length_pos_iff.mpr some_
  have lengths := congrArg List.length paths
  rw [length_append] at lengths
  cases entry with
  | schema | view => cases hasData
  | part owner parent name data =>
    cases entry' <;> simp only [path, length_cons, length_nil] at lengths <;>
      omega
  | table owner name hasTriggers data =>
    cases entry' with
    | schema | table | view =>
      simp only [path, length_cons, length_nil] at lengths
      omega
    | part owner' parent name' data' =>
      obtain ⟨rfl, rfl, -⟩ := paths
      obtain ⟨hasTriggers', plain⟩ := table_of_part member'
      have equal := inj_on_of_nodup_map distinct member plain rfl
      simp only [table.injEq] at equal
      rw [data?, equal.2.2.2] at hasData
      cases hasData

/-! ## Names that clash -/

/--
The name of an object ends with a dot and the word of a script of another object, and it
is not truncated.
-/
def Clash (options : FileOptions) (entries : List Entry) : Prop :=
  ∃ left ∈ entries, ∃ right ∈ entries, ∃ script ∈ left.extras options,
    right.hasScript options = true ∧ right.encoded = left.encoded ++ '.' :: script.word ∧
      right.encoded.length ≤ maxBasenameLength

theorem ExtraScript.word_getLast (script : ExtraScript) :
    ∃ chr, script.word.getLast? = some chr ∧ chr.isDigit = false := by
  cases script <;> exact ⟨_, rfl, rfl⟩

/-- The base name of an object that ends with the word of a script is not truncated. -/
theorem Shaped.not_cut {maxLength : Nat} {encoded front : Name}
    (shaped : Shaped maxLength encoded basename) {script : ExtraScript}
    (same : basename = front ++ '.' :: script.word) :
    basename = encoded ∧ encoded.length ≤ maxLength := by
  cases shaped with
  | short fits shape => exact ⟨shape, fits⟩
  | cut long ordinal shape =>
    obtain ⟨chr, last, notDigit⟩ := script.word_getLast
    have lasts := congrArg List.getLast? (shape.symm.trans same)
    rw [getLast?_append, getLast?_append, getLast?_cons, last,
      getLast?_eq_some_getLast Nat.toDigits_ne_nil] at lasts
    simp only [Option.some_or, Option.getD_some, Option.some.injEq] at lasts
    rw [← lasts, digits_of_mem (getLast_mem _)] at notDigit
    cases notDigit

abbrev tasks (schemas : List SchemaInfo) : List (Entry × Name) :=
  createSchemaTasks { maxLength := maxBasenameLength } (schemas.flatMap SchemaInfo.entries)

variable {tail' : Tail} {basename' : Name}

/-- The script of an object with the same name as another script of an object. -/
theorem clash_of_extra (task : (entry, basename) ∈ tasks schemas)
    (task' : (entry', basename') ∈ tasks schemas) (inside : tail ∈ entry.tails options)
    (inside' : tail' ∈ entry'.tails options) {script : ExtraScript}
    (extra : tail.ending = .extra script) (main : tail'.ending = .script)
    (same : basename' ++ markText tail'.chunk =
      basename ++ markText tail.chunk ++ '.' :: script.word) :
    Clash options (schemas.flatMap SchemaInfo.entries) := by
  obtain ⟨member, shaped, -⟩ := createSchemaTasks_shaped task
  obtain ⟨member', shaped', -⟩ := createSchemaTasks_shaped task'
  have facts := tail_facts inside
  have facts' := tail_facts inside'
  rw [extra] at facts
  rw [main] at facts'
  rw [facts.2, facts'.2, markText, append_nil, append_nil] at same
  obtain ⟨shape', fits⟩ := shaped'.not_cut same
  obtain ⟨shape, -⟩ := shaped.append shaped' (by decide) same
  exact ⟨entry, member, entry', member', script, facts.1, facts'.1, by rw [← shape', same, shape],
    fits⟩

theorem Entry.data_of_ending (inside : tail ∈ entry.tails options) {format : DataFormat}
    {compression : Compression} {index : Bool}
    (ending : tail.ending = .data format compression index) :
    ∃ data, entry.data? = some data ∧ tail ∈ data.tails := by
  have facts := tail_facts inside
  rwa [ending] at facts

/-- Only files of data have marks. -/
theorem Entry.data_of_chunk (inside : tail ∈ entry.tails options) (chunked : tail.chunk ≠ none) :
    ∃ format compression index, tail.ending = .data format compression index := by
  have facts := tail_facts inside
  split at facts
  · exact absurd facts.2 chunked
  · exact absurd facts.2 chunked
  · exact absurd facts chunked
  · next ending => exact ⟨_, _, _, ending⟩

/-- Neither of two base names of data begins with the other one and a separator. -/
theorem basename_not_nested (distinct : PathsDistinct schemas)
    (task : (entry, basename) ∈ tasks schemas) (task' : (entry', basename') ∈ tasks schemas)
    (hasData : ∃ data, entry.data? = some data) (hasData' : ∃ data, entry'.data? = some data) :
    ¬ ((∃ rest, basename' = basename ++ separator :: rest) ∨
      ∃ rest, basename = basename' ++ separator :: rest) := by
  obtain ⟨member, shaped, -⟩ := createSchemaTasks_shaped task
  obtain ⟨member', shaped', -⟩ := createSchemaTasks_shaped task'
  rw [← Option.isSome_iff_exists] at hasData hasData'
  rintro (⟨rest, longer⟩ | ⟨rest, longer⟩)
  · obtain ⟨-, rest', encoded⟩ := shaped.append shaped' (by decide) longer
    exact data_not_nested distinct member member' hasData hasData' encoded
  · obtain ⟨-, rest', encoded⟩ := shaped'.append shaped (by decide) longer
    exact data_not_nested distinct member' member hasData' hasData encoded

/-- Two files with the same name belong to one object, or two objects clash. -/
theorem shared_name (distinct : PathsDistinct schemas)
    (noClash : ¬ Clash options (schemas.flatMap SchemaInfo.entries))
    (task : (entry, basename) ∈ tasks schemas) (task' : (entry', basename') ∈ tasks schemas)
    (inside : tail ∈ entry.tails options) (inside' : tail' ∈ entry'.tails options)
    (same : basename ++ tail.text = basename' ++ tail'.text) :
    basename = basename' ∧ tail = tail' := by
  rcases tail_eq same with ⟨endings, marks⟩ | ⟨script, extra, main, names⟩ |
    ⟨script, extra, main, names⟩
  · rcases marked_eq marks with ⟨names, chunks⟩ | nested
    · refine ⟨names, ?_⟩
      cases tail
      simp only at endings chunks
      rw [endings, chunks]
    · -- a mark stands behind one of the two base names at least, so both are of data
      have isData : ∃ format compression index, tail.ending = .data format compression index := by
        by_cases chunk : tail.chunk = none
        · rw [endings]
          refine data_of_chunk inside' fun chunk' => ?_
          rw [chunk, chunk', markText, append_nil, append_nil] at marks
          rcases nested with ⟨rest, longer⟩ | ⟨rest, longer⟩ <;>
            simpa [marks] using congrArg List.length longer
        · exact data_of_chunk inside chunk
      obtain ⟨format, compression, index, ending⟩ := isData
      obtain ⟨data, own, -⟩ := data_of_ending inside ending
      obtain ⟨data', own', -⟩ := data_of_ending inside' (endings ▸ ending)
      exact absurd nested (basename_not_nested distinct task task' ⟨data, own⟩ ⟨data', own'⟩)
  · exact absurd (clash_of_extra task task' inside inside' extra main names) noClash
  · exact absurd (clash_of_extra task' task inside' inside extra main names) noClash

/-! ## The files of a dump -/

theorem createSchemaTasks_fst (basenames : Basenames) (entries : List Entry) :
    (createSchemaTasks basenames entries).map Prod.fst = entries := by
  induction entries generalizing basenames with
  | nil => rfl
  | cons entry entries ih => rw [createSchemaTasks, map_cons, ih]

theorem encoded_nodup (distinct : (entries.map path).Nodup) : (entries.map encoded).Nodup := by
  have mapped : entries.map encoded = (entries.map path).map joined := by
    rw [map_map]
    exact map_congr_left fun entry _ => entry.encoded_eq
  rw [mapped]
  refine distinct.map_on fun path member path' member' same => ?_
  obtain ⟨entry, -, rfl⟩ := mem_map.mp member
  obtain ⟨entry', -, rfl⟩ := mem_map.mp member'
  exact joined_inj entry.path_ne_nil entry'.path_ne_nil same

theorem Entry.mem_files {name : Name} :
    name ∈ entry.files options basename ↔
      ∃ tail ∈ entry.tails options, basename ++ tail.text = name := by
  rw [(entry.files_perm options basename).mem_iff, mem_map]

theorem tasks_nodup (distinct : PathsDistinct schemas) : ((tasks schemas).map Prod.snd).Nodup :=
  createSchemaTasks_nodup (encoded_nodup distinct)

theorem nodup_of_no_clash (distinct : PathsDistinct schemas)
    (noClash : ¬ Clash options (schemas.flatMap SchemaInfo.entries)) :
    (dumpFiles options schemas).Nodup := by
  rw [dumpFiles, nodup_flatMap]
  refine ⟨?_, ?_⟩
  · rintro ⟨entry, basename⟩ task
    rw [(entry.files_perm options basename).nodup_iff]
    refine (entry.tails_nodup options).map_on fun tail inside tail' inside' same => ?_
    exact (shared_name distinct noClash task task inside inside' same).2
  · have basenames := tasks_nodup distinct
    rw [List.Nodup, pairwise_map] at basenames
    refine basenames.imp_of_mem ?_
    rintro ⟨entry, basename⟩ ⟨entry', basename'⟩ task task' different name inside inside'
    obtain ⟨tail, isTail, rfl⟩ := mem_files.mp inside
    obtain ⟨tail', isTail', same⟩ := mem_files.mp inside'
    exact different (shared_name distinct noClash task task' isTail isTail' same.symm).1

/-- A file with a name that data can have is one of that data. -/
theorem data_name_owned (distinct : PathsDistinct schemas)
    (task : (entry, basename) ∈ tasks schemas) (hasData : entry.data? = some data)
    {chunk : Option (Nat × Bool)}
    (exists_ : basename ++ (Tail.mk chunk (.data data.format data.compression false)).text ∈
      dumpFiles options schemas) :
    chunk ∈ data.bases := by
  obtain ⟨⟨entry', basename'⟩, task', inFiles⟩ := mem_flatMap.mp exists_
  obtain ⟨tail, inside, same⟩ := mem_files.mp inFiles
  rcases tail_eq same with ⟨endings, marks⟩ | ⟨script, -, main, -⟩ | ⟨script, extra, -⟩
  · simp only at endings marks
    obtain ⟨data', hasData', among⟩ := data_of_ending inside endings
    rcases marked_eq marks with ⟨names, chunks⟩ | nested
    · cases inj_on_of_nodup_map (tasks_nodup distinct) task' task names
      cases Option.some.inj (hasData.symm.trans hasData')
      exact chunks ▸ (DataFiles.mem_tails among).1
    · exact absurd nested (basename_not_nested distinct task' task ⟨data', hasData'⟩
        ⟨data, hasData⟩)
  · cases main
  · cases extra

/-- An object whose encoded name is short has it as its base name. -/
theorem mem_tasks_of_short (member : entry ∈ entries)
    (fits : entry.encoded.length ≤ basenames.maxLength) :
    (entry, entry.encoded) ∈ createSchemaTasks basenames entries := by
  rw [← createSchemaTasks_fst basenames entries] at member
  obtain ⟨⟨other, basename⟩, inside, same⟩ := mem_map.mp member
  simp only at same
  subst same
  obtain ⟨-, shaped, -⟩ := createSchemaTasks_shaped inside
  cases shaped with
  | short _ shape =>
    rw [shape] at inside
    exact inside
  | cut long => omega

theorem not_nodup_of_clash (clash : Clash options (schemas.flatMap SchemaInfo.entries)) :
    ¬ (dumpFiles options schemas).Nodup := by
  intro nodup
  obtain ⟨left, member, right, member', script, among, main, same, fits⟩ := clash
  have lengths := congrArg List.length same
  rw [length_append, length_cons] at lengths
  let basenames : Basenames := { maxLength := maxBasenameLength }
  have fitsLeft : left.encoded.length ≤ basenames.maxLength := Nat.le_trans (by omega) fits
  have task := mem_tasks_of_short member fitsLeft
  have task' : (right, right.encoded) ∈ createSchemaTasks basenames _ :=
    mem_tasks_of_short member' fits
  have extra : left.encoded ++ (Tail.mk none (.extra script)).text ∈
      left.files options left.encoded := by
    refine mem_files.mpr ⟨_, ?_, rfl⟩
    rw [Entry.tails, mem_append, mem_append, mem_append]
    exact .inl (.inl (.inr (mem_map_of_mem among)))
  have plain : right.encoded ++ (Tail.mk none .script).text ∈
      right.files options right.encoded := by
    refine mem_files.mpr ⟨_, ?_, rfl⟩
    rw [Entry.tails, mem_append, mem_append, mem_append, if_pos main]
    exact .inl (.inl (.inl mem_cons_self))
  have names : right.encoded ++ (Tail.mk none .script).text =
      left.encoded ++ (Tail.mk none (.extra script)).text := by
    rw [same]
    simp [Tail.text, markText, Ending.words]
  rw [dumpFiles, nodup_flatMap] at nodup
  have different : (left, left.encoded) ≠ (right, right.encoded) := by
    intro equal
    have := congrArg (fun task : Entry × Name => task.2.length) equal
    simp only at this
    omega
  have : Std.Symm (Function.onFun List.Disjoint fun task : Entry × Name =>
      task.1.files options task.2) := ⟨fun _ _ apart _ inside inside' => apart inside' inside⟩
  have apart := nodup.2.forall task task' different
  exact apart extra (names ▸ plain)

/--
The files of a dump have different names unless an object is called like another one with a dot
and the word of one of its scripts behind the name.
-/
theorem dumpFiles_nodup_iff (options : FileOptions) (schemas : List SchemaInfo)
    (distinct : ((schemas.flatMap SchemaInfo.entries).map path).Nodup) :
    (dumpFiles options schemas).Nodup ↔ ¬ Clash options (schemas.flatMap SchemaInfo.entries) :=
  ⟨fun nodup clash => not_nodup_of_clash clash nodup, nodup_of_no_clash distinct⟩

theorem dumpFiles_nodup_iff_shop :
    let schemas : List SchemaInfo :=
      [⟨"shop".toList,
        [⟨"orders".toList, true, some ⟨.tsv, .zstd, true, some [(0, false), (1, true)], by
            rintro _ ⟨⟩
            decide⟩, []⟩,
          ⟨"log".toList, false, none, [("p@0".toList, none), ("p.0".toList, none)]⟩],
        ["orders.v".toList]⟩]
    let options : FileOptions := ⟨true, true, true, true, true, true, true⟩
    ((schemas.flatMap SchemaInfo.entries).map path).Nodup ∧
      ((dumpFiles options schemas).Nodup ↔ ¬ Clash options (schemas.flatMap SchemaInfo.entries)) :=
  ⟨by decide, dumpFiles_nodup_iff _ _ (by decide)⟩

/-- The triggers of `t` and the table `t.triggers` have the same file. -/
theorem dumpFiles_clash :
    let schemas : List SchemaInfo :=
      [⟨"s".toList, [⟨"t".toList, true, none, []⟩, ⟨"t.triggers".toList, false, none, []⟩], []⟩]
    let options : FileOptions := ⟨true, true, true, false, true, true, true⟩
    ((schemas.flatMap SchemaInfo.entries).map path).Nodup ∧
      ¬ (dumpFiles options schemas).Nodup := by
  decide

end MariadbShell.Dump
