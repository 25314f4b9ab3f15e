import MariadbShell.Grants.UserPrivileges
import MariadbShell.Sql.Tokens

/-!
# Rows of SHOW GRANTS

The rows that the server reports about an account at the global level, for a schema and for
a table, and what `parse_grant` reads from them.
-/

namespace MariadbShell.Grants

open List
open ImportTable (Bytes ascii)
open Sql SqlIterator Chr

/-! ## Rows -/

def isWordChar (chr : UInt8) : Bool :=
  isAlnum chr ∨ chr = underscore

structure Word where
  chars : Bytes
  some_ : chars ≠ []
  formed : chars.all isWordChar = true
deriving DecidableEq

/-- The name of a privilege; the words that end it in a row are not part of it. -/
structure PrivilegeName where
  first : Word
  more : List Word
  notAll : caseEq first.chars (ascii "ALL".toList) = false
  notProxy : more = [] → caseEq first.chars (ascii "PROXY".toList) = false
  plain : ∀ word ∈ more, ∀ keyword ∈ ["TO", "FROM", "ON"].map fun name : String =>
    ascii name.toList, caseEq word.chars keyword = false

def PrivilegeName.text (name : PrivilegeName) : Bytes :=
  name.first.chars ++ name.more.flatMap fun word => space :: word.chars

/-- The name of a schema or a table, which does not look like any of them. -/
abbrev ObjectName := { name : Bytes // name ≠ wildcard }

inductive Level where
  | global
  | schema (name : ObjectName)
  | table (schema name : ObjectName)
deriving DecidableEq

/-- What follows the account in a row. -/
inductive RowOption where
  | word (word : Word) (notGrant : caseEq word.chars GrantKind.grant.word = false)
  | text (body : Bytes) (formed : isStringBody quote body = true)

/-- A row; `none` stands for all privileges. -/
structure GrantRow where
  kind : GrantKind
  privileges : Option (PrivilegeName × List PrivilegeName)
  level : Level
  user : Bytes
  host : Option Bytes
  options : List RowOption := []
  withGrantOption : Bool := false
  limits : List RowOption := []

def Level.schemaName : Level → Bytes
  | .global => wildcard
  | .schema name => name
  | .table owner _ => owner

def Level.tableName : Level → Bytes
  | .global | .schema _ => wildcard
  | .table _ name => name

/-! ## Text -/

def spaced (lexeme : Lexeme) : Piece :=
  ⟨[.space space], lexeme⟩

def joined (lexeme : Lexeme) : Piece :=
  ⟨[], lexeme⟩

def keyword (name : String) : Lexeme :=
  .run (ascii name.toList)

def Word.lexeme (word : Word) : Lexeme :=
  .run word.chars

def Level.lexeme : Level → Lexeme
  | .global => .run [Chr.star, dot, Chr.star]
  | .schema name => .everyMember name
  | .table owner name => .member owner name

def RowOption.lexeme : RowOption → Lexeme
  | .word chars _ => chars.lexeme
  | .text body _ => .string quote body

def wordPieces (words : List Word) : List Piece :=
  words.map fun word => spaced word.lexeme

def morePieces (names : List PrivilegeName) : List Piece :=
  names.flatMap fun name =>
    joined (.punctuation comma) :: spaced name.first.lexeme :: wordPieces name.more

def privilegePieces : Option (PrivilegeName × List PrivilegeName) → List Piece
  | none => [spaced (keyword "ALL"), spaced (keyword "PRIVILEGES")]
  | some (first, more) =>
    spaced first.first.lexeme :: (wordPieces first.more ++ morePieces more)

def optionPieces (options : List RowOption) : List Piece :=
  options.map fun option => spaced option.lexeme

variable (row : GrantRow)

def accountPieces : List Piece :=
  spaced (.run row.kind.last) :: spaced (.name row.user) ::
    ((match row.host with
      | none => []
      | some host => [joined (.punctuation atSign), joined (.name host)]) ++
      (optionPieces row.options ++
        ((if row.withGrantOption then
          [spaced (keyword "WITH"), spaced (keyword "GRANT"), spaced (keyword "OPTION")] else []) ++
          optionPieces row.limits)))

def GrantRow.pieces : List Piece :=
  joined (.run row.kind.word) ::
    (privilegePieces row.privileges ++
      (spaced (keyword "ON") :: spaced row.level.lexeme :: accountPieces row))

def GrantRow.text (row : GrantRow) : Bytes :=
  piecesText row.pieces []

/-! ## Rows are well-formed text -/

theorem isRunChar_of_isWordChar : ∀ chr, isWordChar chr = true →
    isRunChar chr = true ∧ isCalm chr = true :=
  forall_byte (by decide +kernel)

theorem isWordChar_of_isSpace : ∀ chr, isSpace chr = true → isWordChar chr = false :=
  forall_byte (by decide +kernel)

/-- Pieces that can stand behind a word or a name. -/
structure Loose (pieces : List Piece) : Prop where
  formed : Formed false pieces []
  blank : (firstGap pieces []).head?.all GapPart.isBlank = true
  follows : firstGap pieces [] ≠ [] ∨ (behindGap pieces []).head?.all isPunctuation = true

namespace Loose

variable {pieces : List Piece}

theorem nil : Loose [] :=
  ⟨trivial, rfl, .inr rfl⟩

section

variable (loose : Loose pieces)

include loose

/-- A piece behind a blank. -/
theorem spaced {lexeme : Lexeme}
    (fits : lexeme.Fits false (firstGap pieces []) (behindGap pieces [])) :
    Loose (Grants.spaced lexeme :: pieces) :=
  ⟨⟨⟨rfl, trivial⟩, fits, loose.formed⟩, rfl, .inl (cons_ne_nil _ _)⟩

theorem fits_word {chars : Bytes} (some_ : chars ≠ []) (formed : chars.all isWordChar = true) :
    (Lexeme.run chars).Fits false (firstGap pieces []) (behindGap pieces []) := by
  refine ⟨?_, ?_, chars.getLast some_, getLast?_eq_some_getLast some_, ?_⟩
  · rw [all_eq_true]
    exact fun chr member => (isRunChar_of_isWordChar chr (all_eq_true.mp formed chr member)).1
  · intro index small
    rw [drop_eq_getElem_cons small]
    exact stops_of_isCalm
      (isRunChar_of_isWordChar _ (all_eq_true.mp formed _ (getElem_mem small))).2 _ _
  · refine loose.follows.imp_right fun follows => ?_
    cases next : (behindGap pieces []).head? with
    | none => rfl
    | some chr =>
      rw [next] at follows
      have punctuation : isPunctuation chr = true := follows
      simp [Lexeme.ends, punctuation]

theorem word {chars : Bytes} (some_ : chars ≠ []) (formed : chars.all isWordChar = true) :
    Loose (Grants.spaced (.run chars) :: pieces) :=
  loose.spaced (loose.fits_word some_ formed)

theorem fits_name (identifier : Bytes) :
    (Lexeme.name identifier).Fits false (firstGap pieces []) (behindGap pieces []) := by
  refine ⟨loose.blank, loose.follows.imp_right fun follows => ?_⟩
  constructor
  · intro backtick
    rw [backtick] at follows
    cases follows
  · intro dot
    rw [dot] at follows
    cases follows

theorem words (words : List Word) : Loose (wordPieces words ++ pieces) := by
  induction words with
  | nil => exact loose
  | cons first words ih => exact ih.word first.some_ first.formed

end

theorem comma {lexeme : Lexeme} (loose : Loose (Grants.spaced lexeme :: pieces)) :
    Loose (joined (.punctuation Chr.comma) :: Grants.spaced lexeme :: pieces) :=
  ⟨⟨trivial, rfl, loose.formed⟩, rfl, .inr rfl⟩

theorem names (loose : Loose pieces) (names : List PrivilegeName) :
    Loose (morePieces names ++ pieces) := by
  induction names with
  | nil => exact loose
  | cons name names ih =>
    have first := (ih.words name.more).word name.first.some_ name.first.formed
    simpa [morePieces, Word.lexeme] using first.comma

theorem atHost (loose : Loose pieces) (host : Bytes) :
    Loose (joined (.punctuation atSign) :: joined (.name host) :: pieces) :=
  ⟨⟨trivial, rfl, trivial, loose.fits_name host, loose.formed⟩, rfl, .inr rfl⟩

theorem options (loose : Loose pieces) (options : List RowOption) :
    Loose (optionPieces options ++ pieces) := by
  induction options with
  | nil => exact loose
  | cons option options ih =>
    cases option with
    | word chars notGrant => exact ih.word chars.some_ chars.formed
    | text body formed => exact ih.spaced ⟨.inl rfl, formed, ih.blank⟩

theorem level {lexeme : Lexeme} (loose : Loose (Grants.spaced lexeme :: pieces)) (level : Level) :
    Loose (Grants.spaced level.lexeme :: Grants.spaced lexeme :: pieces) := by
  refine loose.spaced ?_
  have some_ : firstGap (Grants.spaced lexeme :: pieces) [] ≠ [] := cons_ne_nil _ _
  cases level with
  | global =>
    refine ⟨by decide, ?_, Chr.star, rfl, .inl some_⟩
    intro index small
    match index, small with
    | 0, _ => simp [stops, Chr.star, Chr.hash, dollar, Chr.slash, minus]
    | 1, _ => exact stops_of_isCalm (by decide) _ _
    | 2, _ => simp [stops, Chr.star, Chr.hash, dollar, Chr.slash, minus]
  | schema name =>
    refine ⟨?_, .inl some_⟩
    simp [stops, Chr.star, Chr.hash, dollar, Chr.slash, minus]
  | table owner name => exact ⟨loose.blank, .inl some_⟩

end Loose

variable {pieces : List Piece}

theorem GrantKind.last_loose (kind : GrantKind) (loose : Loose pieces) :
    Loose (spaced (.run kind.last) :: pieces) := by
  cases kind with
  | grant | revoke | deny => exact loose.word (by decide) (by decide)

theorem accountPieces_loose : Loose (accountPieces row) := by
  have limits : Loose (optionPieces row.limits) := by
    simpa using Loose.nil.options row.limits
  have granted : Loose ((if row.withGrantOption then
      [spaced (keyword "WITH"), spaced (keyword "GRANT"), spaced (keyword "OPTION")] else []) ++
        optionPieces row.limits) := by
    split
    · exact ((limits.word (by decide) (by decide)).word (by decide) (by decide)).word
        (by decide) (by decide)
    · exact limits
  have behind := granted.options row.options
  unfold accountPieces
  cases row.host with
  | none =>
    exact row.kind.last_loose (behind.spaced (behind.fits_name row.user))
  | some host =>
    have account := behind.atHost host
    exact row.kind.last_loose (account.spaced (account.fits_name row.user))

theorem levelPieces_loose :
    Loose (spaced (keyword "ON") :: spaced row.level.lexeme :: accountPieces row) := by
  have behind : Loose (spaced row.level.lexeme :: accountPieces row) :=
    (accountPieces_loose row).level row.level
  exact behind.word (by decide) (by decide)

/-- A row is well-formed text. -/
theorem GrantRow.formed : Formed false row.pieces [] := by
  have behind := levelPieces_loose row
  have privileges : Loose (privilegePieces row.privileges ++
      (spaced (keyword "ON") :: spaced row.level.lexeme :: accountPieces row)) := by
    cases row.privileges with
    | none => exact (behind.word (by decide) (by decide)).word (by decide) (by decide)
    | some names =>
      obtain ⟨first, more⟩ := names
      have words := ((behind.names more).words first.more).word first.first.some_
        first.first.formed
      simpa [privilegePieces, Word.lexeme] using words
  refine ⟨trivial, ?_, privileges.formed⟩
  cases row.kind with
  | grant | revoke | deny => exact privileges.fits_word (by decide) (by decide)

/-! ## Reading tokens -/

/-- The iterator is in front of the pieces and outside of comments. -/
def Ahead (it : SqlIterator) (pieces : List Piece) : Prop :=
  ∃ before, Reads it false before pieces []

variable {it : SqlIterator}

theorem Ahead.next {piece : Piece} (ahead : Ahead it (piece :: pieces))
    (quiet : gapState false piece.gap = false) :
    ∃ later, nextToken it = .ok (piece.lexeme.text, later) ∧ Ahead later pieces := by
  obtain ⟨before, reads⟩ := ahead
  obtain ⟨later, next_eq, reached⟩ := reads.nextToken
  refine ⟨later, by rw [nextToken, next_eq]; rfl, ?_⟩
  rw [quiet] at reached
  exact ⟨_, reached⟩

theorem toLower_word : ∀ chr, isWordChar (toLower chr) = isWordChar chr :=
  forall_byte (by decide +kernel)

/-- A word is no punctuation. -/
theorem caseEq_word {chars : Bytes} (formed : chars.all isWordChar = true) {other : UInt8}
    (notWord : isWordChar other = false) : caseEq chars [other] = false := by
  rw [caseEq, decide_eq_false_iff_not]
  intro same
  obtain ⟨chr, rfl, lower⟩ := map_eq_singleton_iff.mp same
  have isWord : isWordChar chr = true := by simpa using formed
  rw [← toLower_word, lower, toLower_word, notWord] at isWord
  cases isWord

theorem columns_eq {token : Bytes} (other : caseEq token [openParenthesis] = false)
    (fuel : Nat) (it : SqlIterator) : columns fuel token it = .ok (false, token, it) := by
  rw [columns, if_neg (by rw [other]; exact Bool.false_ne_true)]

section

variable {last : Bytes} {it : SqlIterator} {pieces : List Piece}

/-- Another word of the name of a privilege. -/
theorem privilegeLoop_word {word : Word} (ahead : Ahead it (spaced word.lexeme :: pieces))
    (notLast : caseEq word.chars last = false)
    (notOn : caseEq word.chars (ascii "ON".toList) = false) :
    ∃ later, Ahead later pieces ∧ ∀ fuel privilege addPrivilege privileges,
      privilegeLoop last (fuel + 1) it privilege addPrivilege privileges =
        privilegeLoop last fuel later (privilege ++ space :: word.chars) addPrivilege
          privileges := by
  obtain ⟨later, next_eq, reached⟩ := ahead.next rfl
  refine ⟨later, reached, ?_⟩
  intro fuel privilege addPrivilege privileges
  have noColumns := columns_eq (caseEq_word word.formed (by decide)) fuel later
  have notComma := caseEq_word word.formed (by decide : isWordChar comma = false)
  rw [privilegeLoop]
  simp only [next_eq, spaced, Word.lexeme, Lexeme.text, notLast, noColumns, notComma, notOn,
    Bool.false_eq_true, if_false, Bool.not_false, Bool.and_true]

theorem privilegeLoop_words {words : List Word} (ahead : Ahead it (wordPieces words ++ pieces))
    (plain : ∀ word ∈ words, caseEq word.chars last = false ∧
      caseEq word.chars (ascii "ON".toList) = false) :
    ∃ later, Ahead later pieces ∧ ∀ fuel privilege addPrivilege privileges,
      privilegeLoop last (words.length + fuel) it privilege addPrivilege privileges =
        privilegeLoop last fuel later
          (privilege ++ words.flatMap fun word => space :: word.chars) addPrivilege
          privileges := by
  induction words generalizing it with
  | nil =>
    refine ⟨it, ahead, ?_⟩
    simp
  | cons word words ih =>
    obtain ⟨notLast, notOn⟩ := plain word mem_cons_self
    obtain ⟨next, reached, stepped⟩ := privilegeLoop_word ahead notLast notOn
    obtain ⟨later, there, looped⟩ := ih reached fun other member =>
      plain other (mem_cons_of_mem _ member)
    refine ⟨later, there, ?_⟩
    intro fuel privilege addPrivilege privileges
    rw [length_cons, Nat.add_right_comm, stepped, looped, flatMap_cons, append_assoc]

/-- The names of the privileges up to the word `ON`. -/
theorem privilegeLoop_names (notLast : ∀ chars ∈ [[comma], ascii "ON".toList],
      caseEq chars last = false)
    {words : List Word} {names : List PrivilegeName}
    (ahead : Ahead it (wordPieces words ++ (morePieces names ++ spaced (keyword "ON") :: pieces)))
    (plain : ∀ word ∈ words ++ names.flatMap PrivilegeName.more, caseEq word.chars last = false ∧
      caseEq word.chars (ascii "ON".toList) = false) (privilege : Bytes)
    (privileges : List Bytes) :
    ∃ later, Ahead later pieces ∧ ∀ fuel, (wordPieces words ++ morePieces names).length < fuel →
      privilegeLoop last fuel it privilege true privileges =
        .ok (some (names.foldl (fun read name => read.insert name.text)
          (privileges.insert (privilege ++ words.flatMap fun word => space :: word.chars)),
            later)) := by
  induction names generalizing it words privilege privileges with
  | nil =>
    obtain ⟨next, reached, looped⟩ := privilegeLoop_words ahead fun word member =>
      plain word (mem_append_left _ member)
    obtain ⟨later, next_eq, there⟩ := reached.next rfl
    refine ⟨later, there, ?_⟩
    intro fuel enough
    obtain ⟨more, rfl⟩ : ∃ more, fuel = words.length + (more + 1) :=
      ⟨fuel - words.length - 1, by
        simp only [wordPieces, morePieces, flatMap_nil, append_nil, length_map]
          at enough
        omega⟩
    have noParenthesis : caseEq (ascii "ON".toList) [openParenthesis] = false := by decide
    have noColumns := columns_eq noParenthesis more later
    have other := notLast (ascii "ON".toList) (by simp)
    rw [looped, privilegeLoop]
    simp only [next_eq, spaced, keyword, Lexeme.text, other, noColumns, Bool.false_eq_true,
      if_false, Bool.not_false, Bool.and_true, if_true, foldl_nil]
    rw [if_neg (by decide), if_pos (by decide)]
  | cons name names ih =>
    obtain ⟨next, reached, looped⟩ := privilegeLoop_words ahead fun word member =>
      plain word (mem_append_left _ member)
    have pieces_eq : morePieces (name :: names) ++ spaced (keyword "ON") :: pieces =
        joined (.punctuation comma) :: spaced name.first.lexeme ::
          (wordPieces name.more ++ (morePieces names ++ spaced (keyword "ON") :: pieces)) := by
      simp [morePieces]
    rw [pieces_eq] at reached
    obtain ⟨behind, comma_eq, afterComma⟩ := reached.next rfl
    obtain ⟨first, first_eq, afterFirst⟩ := afterComma.next rfl
    obtain ⟨later, there, finished⟩ := ih afterFirst (fun word member => plain word (by
      exact mem_append_right _ member)) name.first.chars
        (privileges.insert (privilege ++ words.flatMap fun word => space :: word.chars))
    refine ⟨later, there, ?_⟩
    intro fuel enough
    simp only [wordPieces, morePieces, flatMap_cons, length_append, length_map,
      length_cons] at enough
    obtain ⟨more, rfl⟩ : ∃ more, fuel = words.length + (more + 1) :=
      ⟨fuel - words.length - 1, by omega⟩
    have enough' : (wordPieces name.more ++ morePieces names).length < more := by
      simp only [wordPieces, morePieces, length_append, length_map]
      omega
    have noParenthesis : caseEq [comma] [openParenthesis] = false := by decide
    have noColumns := columns_eq noParenthesis more behind
    have other := notLast [comma] (by simp)
    rw [looped, privilegeLoop]
    simp only [comma_eq, joined, Lexeme.text, other, noColumns, Bool.false_eq_true, if_false,
      Bool.not_false, Bool.and_true, if_true]
    rw [if_pos (by decide)]
    simp only [first_eq, spaced, Word.lexeme, Lexeme.text]
    rw [finished more enough', foldl_cons]
    rfl

end

/-! ## Reading levels -/

theorem splitName_quoted (identifier : Bytes) {rest : Bytes} (ends : rest.head? ≠ some backtick) :
    splitName (quoteIdentifier backtick identifier ++ rest) = .ok (identifier, rest) := by
  have named := (quotedName_eq_iff backtick identifier rest).mpr ends
  have text : quoteIdentifier backtick identifier ++ rest = backtick ::
      (identifier.flatMap (fun chr => if chr = backtick then [backtick, backtick]
        else [chr]) ++ backtick :: rest) := by
    simp [quoteIdentifier]
  rw [text, splitName, if_neg (by rw [head?_cons]; decide), spanQuotableSqlIdentifier]
  simp only [true_or, if_true, named]
  rfl

/-- The level of a row is read as it is. -/
theorem splitPrivLevel_eq (level : Level) :
    splitPrivLevel level.lexeme.text = .ok (level.schemaName, level.tableName) := by
  cases level with
  | global => decide
  | schema name =>
    have first : splitName (quoteIdentifier backtick name ++ [dot, Chr.star]) =
        .ok (name.1, [dot, Chr.star]) :=
      splitName_quoted name (by decide)
    simp only [splitPrivLevel, Level.lexeme, Lexeme.text, first]
    rfl
  | table owner name =>
    have first : splitName (quoteIdentifier backtick owner ++
        dot :: quoteIdentifier backtick name) =
          .ok (owner.1, dot :: quoteIdentifier backtick name) :=
      splitName_quoted owner (by rw [head?_cons]; decide)
    have second : splitName (quoteIdentifier backtick name) = .ok (name.1, []) := by
      have alone := @splitName_quoted name.1 [] (by simp)
      rwa [append_nil] at alone
    simp only [splitPrivLevel, Level.lexeme, Lexeme.text, first]
    rw [if_neg (by simp [quoteIdentifier]), if_neg (by decide),
      if_neg (by simp [quoteIdentifier]), second]
    rfl

theorem quoteName_eq (name : ObjectName) : quoteName name = quoteIdentifier backtick name :=
  if_neg name.2

theorem Level.text_eq (level : Level) :
    level.lexeme.text = privilegeLevel level.schemaName level.tableName := by
  cases level with
  | global => decide
  | schema name =>
    change _ = quoteName name ++ _
    rw [quoteName_eq]
    rfl
  | table owner name =>
    change _ = quoteName owner ++ dot :: quoteName name
    rw [quoteName_eq, quoteName_eq]
    rfl

theorem caseEq_cons {left right : UInt8} (different : toLower left ≠ toLower right)
    (text word : Bytes) : caseEq (left :: text) (right :: word) = false := by
  rw [caseEq, decide_eq_false_iff_not]
  intro same
  exact different (List.cons.inj same).1

theorem readLevel_eq {level : Level} {gap : List GapPart}
    (ahead : Ahead it (⟨gap, level.lexeme⟩ :: pieces)) (quiet : gapState false gap = false) :
    ∃ later, readLevel it = .ok (some (level.lexeme.text, later)) ∧ Ahead later pieces := by
  obtain ⟨later, next_eq, reached⟩ := ahead.next quiet
  refine ⟨later, ?_, reached⟩
  obtain ⟨chr, text, begins, special⟩ : ∃ chr text, level.lexeme.text = chr :: text ∧
      (chr = Chr.star ∨ chr = backtick) := by
    cases level with
    | global => exact ⟨_, _, rfl, .inl rfl⟩
    | schema | table => exact ⟨_, _, rfl, .inr rfl⟩
  have plain : ∀ word ∈ ["FUNCTION", "PROCEDURE", "TABLE"].map fun name : String =>
      ascii name.toList, caseEq level.lexeme.text word = false := by
    intro word member
    obtain rfl | rfl | rfl : word = _ ∨ word = _ ∨ word = _ := by simpa using member
    all_goals
      rw [begins]
      rcases special with rfl | rfl <;> exact caseEq_cons (by decide) _ _
  rw [readLevel]
  simp only [next_eq, plain _ mem_cons_self, plain (ascii "PROCEDURE".toList) (by simp),
    plain (ascii "TABLE".toList) (by simp), Bool.false_eq_true, or_self, if_false]

/-! ## Reading what follows the account -/

/-- A lexeme other than the word `GRANT`. -/
def Quiet (piece : Piece) : Prop :=
  gapState false piece.gap = false ∧ caseEq piece.lexeme.text GrantKind.grant.word = false

theorem grantOption_quiet {quiet pieces : List Piece} (ahead : Ahead it (quiet ++ pieces))
    (allQuiet : ∀ piece ∈ quiet, Quiet piece) :
    ∃ later, Ahead later pieces ∧
      ∀ fuel, grantOption (quiet.length + fuel) it = grantOption fuel later := by
  induction quiet generalizing it with
  | nil =>
    refine ⟨it, ahead, ?_⟩
    simp
  | cons piece quiet ih =>
    obtain ⟨state, notGrant⟩ := allQuiet piece mem_cons_self
    obtain ⟨next, next_eq, reached⟩ := ahead.next state
    obtain ⟨later, there, looped⟩ := ih reached fun other member =>
      allQuiet other (mem_cons_of_mem _ member)
    obtain ⟨_, reads⟩ := ahead
    refine ⟨later, there, ?_⟩
    intro fuel
    have notGrant' : caseEq piece.lexeme.text (ascii "GRANT".toList) = false := notGrant
    rw [length_cons, Nat.add_right_comm, grantOption]
    simp only [reads.valid, if_true, next_eq, notGrant', Bool.false_eq_true, if_false]
    exact looped fuel

theorem grantOption_end (ahead : Ahead it []) (fuel : Nat) :
    grantOption (fuel + 1) it = .ok false := by
  obtain ⟨_, reads⟩ := ahead
  rw [grantOption]
  simp only [reads.not_valid, Bool.false_eq_true, if_false]

theorem optionPieces_quiet (options : List RowOption) :
    ∀ piece ∈ optionPieces options, Quiet piece := by
  intro piece member
  obtain ⟨option, -, rfl⟩ := mem_map.mp member
  refine ⟨rfl, ?_⟩
  cases option with
  | word chars notGrant => exact notGrant
  | text body formed => exact caseEq_cons (by decide) _ _

/-- The account and its options up to `WITH GRANT OPTION`. -/
def quietPieces : List Piece :=
  spaced (.run row.kind.last) :: spaced (.name row.user) ::
    ((match row.host with
      | none => []
      | some host => [joined (.punctuation atSign), joined (.name host)]) ++
      optionPieces row.options)

theorem quietPieces_quiet : ∀ piece ∈ quietPieces row, Quiet piece := by
  intro piece member
  simp only [quietPieces, mem_cons, mem_append] at member
  rcases member with rfl | rfl | inHost | inOptions
  · refine ⟨rfl, ?_⟩
    cases row.kind with
    | grant | revoke | deny => decide
  · exact ⟨rfl, caseEq_cons (by decide) _ _⟩
  · cases host : row.host with
    | none =>
      rw [host] at inHost
      cases inHost
    | some name =>
      simp only [host, mem_cons, not_mem_nil, or_false] at inHost
      rcases inHost with rfl | rfl
      · exact ⟨rfl, by decide⟩
      · exact ⟨rfl, caseEq_cons (by decide) _ _⟩
  · exact optionPieces_quiet _ piece inOptions

theorem grantOption_eq {row : GrantRow} (ahead : Ahead it (accountPieces row)) {fuel : Nat}
    (enough : (accountPieces row).length < fuel) :
    grantOption fuel it = .ok row.withGrantOption := by
  have pieces_eq : accountPieces row = quietPieces row ++
      ((if row.withGrantOption then
        [spaced (keyword "WITH"), spaced (keyword "GRANT"), spaced (keyword "OPTION")] else []) ++
        optionPieces row.limits) := by
    simp [accountPieces, quietPieces]
  rw [pieces_eq] at ahead enough
  obtain ⟨next, reached, looped⟩ := grantOption_quiet ahead (quietPieces_quiet row)
  rw [length_append] at enough
  obtain ⟨more, rfl⟩ : ∃ more, fuel = (quietPieces row).length + more :=
    ⟨fuel - (quietPieces row).length, by omega⟩
  rw [looped]
  cases granted : row.withGrantOption with
  | false =>
    simp only [granted, Bool.false_eq_true, if_false, nil_append] at reached enough
    rw [← append_nil (optionPieces row.limits)] at reached
    obtain ⟨last, ended, finished⟩ := grantOption_quiet reached (optionPieces_quiet _)
    obtain ⟨left, rfl⟩ : ∃ left, more = (optionPieces row.limits).length + (left + 1) :=
      ⟨more - (optionPieces row.limits).length - 1, by omega⟩
    rw [finished]
    exact grantOption_end ended left
  | true =>
    simp only [granted, if_true, cons_append, nil_append, length_cons]
      at reached enough
    have withQuiet : ∀ piece ∈ [spaced (keyword "WITH")], Quiet piece := by
      intro piece member
      rw [mem_singleton.mp member]
      exact ⟨rfl, by decide⟩
    obtain ⟨grant, atGrant, finished⟩ := grantOption_quiet reached withQuiet
    obtain ⟨left, rfl⟩ : ∃ left, more = 1 + (left + 1) := ⟨more - 2, by omega⟩
    obtain ⟨option, grant_eq, atOption⟩ := atGrant.next rfl
    obtain ⟨last, option_eq, -⟩ := atOption.next rfl
    obtain ⟨_, reads⟩ := atGrant
    have isGrant : caseEq (spaced (keyword "GRANT")).lexeme.text (ascii "GRANT".toList) = true := by
      decide
    have isOption : caseEq (spaced (keyword "OPTION")).lexeme.text (ascii "OPTION".toList) =
        true := by
      decide
    refine (finished (left + 1)).trans ?_
    rw [grantOption]
    simp only [reads.valid, grant_eq, isGrant, option_eq, isOption, if_true]

/-! ## Reading rows -/

theorem Loose.head (loose : Loose pieces) :
    (piecesText pieces []).head?.all (fun chr => !isWordChar chr) = true := by
  rw [piecesText_eq]
  cases gap : firstGap pieces [] with
  | cons part more =>
    have blank := loose.blank
    rw [gap] at blank
    cases part with
    | comment | enter | leave => cases blank
    | space chr =>
      have isBlank : isSpace chr = true := by simpa [GapPart.isBlank] using blank
      simp [gapText_cons, GapPart.text, isWordChar_of_isSpace chr isBlank]
  | nil =>
    rw [gapText, flatMap_nil, nil_append]
    have follows := loose.follows.resolve_left (fun some_ => some_ gap)
    cases next : (behindGap pieces []).head? with
    | none => rfl
    | some chr =>
      rw [next] at follows
      have punctuation : isPunctuation chr = true := follows
      simp only [isPunctuation, decide_eq_true_eq] at punctuation
      rcases punctuation with rfl | rfl | rfl | rfl | rfl | rfl <;> decide

theorem takeWhile_word {word rest : Bytes} (formed : word.all isWordChar = true)
    (ends : rest.head?.all (fun chr => !isWordChar chr) = true) (count : Nat) :
    ((word ++ rest).take count).takeWhile isWordChar = word.take count := by
  have all : ∀ chr ∈ word.take count, isWordChar chr = true := fun chr member =>
    all_eq_true.mp formed chr (mem_of_mem_take member)
  rw [take_append, takeWhile_append_of_pos all]
  cases rest with
  | nil => simp
  | cons chr rest =>
    have notWord : isWordChar chr = false := by simpa using ends
    cases count - word.length with
    | zero => simp
    | succ less => simp [notWord]

/-- A row with named privileges does not begin like one with all of them. -/
theorem not_grantAll {word : Word} (notAll : caseEq word.chars (ascii "ALL".toList) = false)
    {rest : Bytes} (ends : rest.head?.all (fun chr => !isWordChar chr) = true) :
    caseEq ((ascii "GRANT ".toList ++ (word.chars ++ rest)).take grantAll.length) grantAll =
      false := by
  rw [caseEq, decide_eq_false_iff_not] at notAll ⊢
  intro same
  refine notAll ?_
  have tail : ((word.chars ++ rest).take 18).map toLower = (ascii "all privileges on ".toList) := by
    have split : (ascii "GRANT ".toList ++ (word.chars ++ rest)).take grantAll.length =
        ascii "GRANT ".toList ++ (word.chars ++ rest).take 18 := by
      rfl
    rw [split, map_append] at same
    exact (append_inj same rfl).2
  have words := congrArg (List.takeWhile isWordChar) tail
  rw [takeWhile_map] at words
  have lower : (isWordChar ∘ toLower) = isWordChar := funext toLower_word
  rw [lower, takeWhile_word word.formed ends] at words
  have all : (word.chars.take 18).map toLower = ascii "all".toList := words.trans (by decide)
  have length := congrArg List.length all
  rw [length_map, length_take] at length
  have short : word.chars.length ≤ 18 := by
    have three : (ascii "all".toList).length = 3 := by decide
    omega
  rw [take_of_length_le short] at all
  rw [all]
  decide

def readNames (first : PrivilegeName) (more : List PrivilegeName) : List Bytes :=
  more.foldl (fun read name => read.insert name.text) [first.text]

theorem mem_foldl_insert {names : List PrivilegeName} {read : List Bytes} {privilege : Bytes} :
    privilege ∈ names.foldl (fun read name => read.insert name.text) read ↔
      privilege ∈ read ∨ ∃ name ∈ names, name.text = privilege := by
  induction names generalizing read with
  | nil => simp
  | cons name names ih =>
    rw [foldl_cons, ih, mem_insert_iff]
    constructor
    · rintro ((rfl | before) | ⟨other, member, same⟩)
      · exact .inr ⟨name, mem_cons_self, rfl⟩
      · exact .inl before
      · exact .inr ⟨other, mem_cons_of_mem _ member, same⟩
    · rintro (before | ⟨other, member, same⟩)
      · exact .inl (.inr before)
      · rcases mem_cons.mp member with rfl | later
        · exact .inl (.inl same.symm)
        · exact .inr ⟨other, later, same⟩

theorem mem_readNames {first : PrivilegeName} {more : List PrivilegeName} {privilege : Bytes} :
    privilege ∈ readNames first more ↔ ∃ name ∈ first :: more, name.text = privilege := by
  rw [readNames, mem_foldl_insert]
  simp [eq_comm]

theorem PrivilegeName.not_proxy (name : PrivilegeName) :
    caseEq name.text (ascii "PROXY".toList) = false := by
  cases more : name.more with
  | nil => simpa [PrivilegeName.text, more] using name.notProxy more
  | cons word words =>
    rw [caseEq, decide_eq_false_iff_not]
    intro same
    have space : toLower Chr.space ∈ name.text.map toLower := by
      simp [PrivilegeName.text, more]
    rw [same] at space
    revert space
    decide

theorem isProxy_readNames (first : PrivilegeName) (more : List PrivilegeName) :
    UserPrivileges.isProxy (some (readNames first more)) = false := by
  unfold UserPrivileges.isProxy
  split
  · rename_i names privilege same
    have member : first.text ∈ readNames first more := mem_readNames.mpr ⟨first, mem_cons_self, rfl⟩
    rw [Option.some.inj same, mem_singleton] at member
    rw [← member]
    exact first.not_proxy
  · rfl

theorem GrantKind.last_other (kind : GrantKind) :
    ∀ chars ∈ [[comma], ascii "ON".toList], caseEq chars kind.last = false := by
  cases kind with
  | grant | revoke | deny => decide

theorem PrivilegeName.plain_last (name : PrivilegeName) (kind : GrantKind) :
    ∀ word ∈ name.more, caseEq word.chars kind.last = false ∧
      caseEq word.chars (ascii "ON".toList) = false := by
  intro word member
  have plain := name.plain word member
  refine ⟨?_, plain _ (by simp)⟩
  cases kind with
  | grant | deny => exact plain _ (by simp [GrantKind.last])
  | revoke => exact plain _ (by simp [GrantKind.last])

namespace UserPrivileges

variable {user : UserPrivileges} {row : GrantRow} {it : SqlIterator}

/-- The privileges are stored unless there are none. -/
def applyAs (user : UserPrivileges) (row : GrantRow) (names : Option (List Bytes)) :
    UserPrivileges :=
  let privileges := user.privilegesOf row.level.schemaName row.level.tableName names
  if privileges = [] then user
  else user.store row.kind row.level.lexeme.text row.level.schemaName row.level.tableName privileges
    row.withGrantOption

theorem parseLevel_eq {gap : List GapPart}
    (ahead : Ahead it (⟨gap, row.level.lexeme⟩ :: accountPieces row))
    (quiet : gapState false gap = false) {fuel : Nat}
    (enough : (accountPieces row).length < fuel) (names : Option (List Bytes)) :
    user.parseLevel row.kind fuel names it = .ok (user.applyAs row names) := by
  obtain ⟨later, level_eq, reached⟩ := readLevel_eq ahead quiet
  simp only [parseLevel, level_eq, splitPrivLevel_eq, grantOption_eq reached enough]
  rfl

/-- Privileges that are named one by one. -/
theorem parseAs_names {word : Word} {words : List Word} {names : List PrivilegeName}
    (ahead : Ahead it (spaced word.lexeme :: (wordPieces words ++ (morePieces names ++
      (spaced (keyword "ON") :: spaced row.level.lexeme :: accountPieces row)))))
    (plain : ∀ word ∈ words ++ names.flatMap PrivilegeName.more,
      caseEq word.chars row.kind.last = false ∧ caseEq word.chars (ascii "ON".toList) = false)
    {statement : Bytes}
    (listed : ¬ (row.kind = .grant ∧ caseEq (statement.take grantAll.length) grantAll = true))
    (enough : (wordPieces words ++ morePieces names).length + (accountPieces row).length <
      statement.length)
    (notProxy : isProxy (some (names.foldl (fun read name => read.insert name.text)
      [word.chars ++ words.flatMap fun word => space :: word.chars])) = false) :
    user.parseAs statement row.kind it =
      .ok (user.applyAs row (some (names.foldl (fun read name => read.insert name.text)
        [word.chars ++ words.flatMap fun word => space :: word.chars]))) := by
  obtain ⟨next, next_eq, reached⟩ := ahead.next rfl
  obtain ⟨later, there, looped⟩ :=
    privilegeLoop_names row.kind.last_other reached plain word.chars []
  have read := looped (statement.length + 1) (by omega)
  have privileges : readPrivileges statement row.kind it =
      .ok (some (some (names.foldl (fun read name => read.insert name.text)
        [word.chars ++ words.flatMap fun word => space :: word.chars]), later)) := by
    simp only [readPrivileges, if_neg listed, next_eq, spaced, Word.lexeme, Lexeme.text, read]
    rfl
  simp only [parseAs, privileges, notProxy, Bool.false_eq_true, if_false]
  exact parseLevel_eq there rfl (by omega) _

end UserPrivileges

/-- The privileges that are read from a row; only `GRANT` knows a word for all of them. -/
def GrantRow.names : Option (List Bytes) :=
  match row.privileges with
  | some (first, more) => some (readNames first more)
  | none => if row.kind = .grant then none else some [ascii "ALL PRIVILEGES".toList]

/-- What a row adds to the privileges of the account. -/
def UserPrivileges.apply (user : UserPrivileges) (row : GrantRow) : UserPrivileges :=
  user.applyAs row row.names

namespace UserPrivileges

variable {user : UserPrivileges} {row : GrantRow} {it : SqlIterator}

theorem text_grantAll (granted : row.kind = .grant) (all : row.privileges = none) :
    row.text = grantAll ++ (row.level.lexeme.text ++ piecesText (accountPieces row) []) := by
  simp only [GrantRow.text, GrantRow.pieces, privilegePieces, all, granted, piecesText, joined,
    spaced, keyword, flatMap_cons, cons_append, nil_append, Lexeme.text, gapText,
    flatMap_nil, GapPart.text, append_nil]
  rfl

/-- The iterator behind the words for all privileges. -/
theorem ahead_grantAll (granted : row.kind = .grant) (all : row.privileges = none)
    (text_eq : it.text = row.text) (hint_eq : it.commentHint = false)
    (skip_eq : it.skipQuoted = false) :
    Ahead (it.setPosition grantAll.length) (joined row.level.lexeme :: accountPieces row) := by
  have formed := (levelPieces_loose row).formed.2.2
  refine ⟨grantAll, ⟨trivial, formed.2.1, formed.2.2⟩, ?_⟩
  have at_ : At (it.setPosition grantAll.length) false grantAll
      (gapText [] ++ (row.level.lexeme.text ++ piecesText (accountPieces row) [])) :=
    ⟨text_eq.trans (text_grantAll granted all), rfl, hint_eq, skip_eq⟩
  exact at_.inGap trivial rfl

/-- `parse_grant` behind the first word of a row. -/
theorem parseAs_eq
    (ahead : Ahead it (privilegePieces row.privileges ++
      (spaced (keyword "ON") :: spaced row.level.lexeme :: accountPieces row)))
    (text_eq : it.text = row.text) (hint_eq : it.commentHint = false)
    (skip_eq : it.skipQuoted = false) :
    user.parseAs row.text row.kind it = .ok (user.apply row) := by
  have length := row.formed.length_le
  rw [← GrantRow.text, GrantRow.pieces] at length
  cases privileges : row.privileges with
  | some names =>
    obtain ⟨first, more⟩ := names
    simp only [privileges, privilegePieces, cons_append, append_assoc, length_cons,
      length_append] at ahead length
    have loose := ((levelPieces_loose row).names more).words first.more
    have listed : ¬ (row.kind = .grant ∧
        caseEq (row.text.take grantAll.length) grantAll = true) := by
      rintro ⟨granted, all⟩
      have whole : row.text = ascii "GRANT ".toList ++ (first.first.chars ++
          piecesText (wordPieces first.more ++ (morePieces more ++ (spaced (keyword "ON") ::
            spaced row.level.lexeme :: accountPieces row))) []) := by
        simp only [GrantRow.text, GrantRow.pieces, privilegePieces, privileges, granted,
          piecesText, joined, spaced, Word.lexeme, flatMap_cons, cons_append,
          append_assoc]
        rfl
      rw [whole, not_grantAll first.notAll loose.head] at all
      cases all
    have plain : ∀ word ∈ first.more ++ more.flatMap PrivilegeName.more,
        caseEq word.chars row.kind.last = false ∧
          caseEq word.chars (ascii "ON".toList) = false := by
      intro word member
      rcases mem_append.mp member with inFirst | inMore
      · exact first.plain_last row.kind word inFirst
      · obtain ⟨name, -, inName⟩ := mem_flatMap.mp inMore
        exact name.plain_last row.kind word inName
    have enough : (wordPieces first.more ++ morePieces more).length +
        (accountPieces row).length < row.text.length := by
      rw [length_append]
      omega
    rw [parseAs_names ahead plain listed enough (isProxy_readNames first more), apply,
      GrantRow.names, privileges]
    rfl
  | none =>
    simp only [privileges, privilegePieces, cons_append, nil_append, length_cons]
      at ahead length
    by_cases granted : row.kind = .grant
    · have begins : caseEq (row.text.take grantAll.length) grantAll = true := by
        rw [text_grantAll granted privileges, take_left]
        decide
      have behind := ahead_grantAll granted privileges text_eq hint_eq skip_eq
      have read : readPrivileges row.text row.kind it =
          .ok (some (none, it.setPosition grantAll.length)) := by
        rw [readPrivileges, if_pos ⟨granted, begins⟩]
      have enough : (accountPieces row).length < row.text.length + 1 := by omega
      simp only [parseAs, read, isProxy, Bool.false_eq_true, if_false]
      rw [parseLevel_eq behind rfl enough, apply, GrantRow.names, privileges]
      simp only [granted, if_true]
    · let privilegesWord : Word := ⟨ascii "PRIVILEGES".toList, by decide, by decide⟩
      have plain : ∀ word ∈ [privilegesWord] ++ [].flatMap PrivilegeName.more,
          caseEq word.chars row.kind.last = false ∧
            caseEq word.chars (ascii "ON".toList) = false := by
        cases row.kind with
        | grant | revoke | deny => simp; decide
      have listed : ¬ (row.kind = .grant ∧
          caseEq (row.text.take grantAll.length) grantAll = true) :=
        fun both => granted both.1
      have enough : (wordPieces [privilegesWord] ++ morePieces []).length +
          (accountPieces row).length < row.text.length := by
        simp only [wordPieces, morePieces, map_cons, map_nil, flatMap_nil,
          append_nil, length_singleton]
        omega
      have read := @parseAs_names user row it ⟨ascii "ALL".toList, by decide, by decide⟩
        [privilegesWord] [] ahead plain _ listed enough (by decide)
      rw [read, apply, GrantRow.names, privileges]
      simp only [granted, if_false]
      rfl

/-- A row is read as what it says. -/
theorem parseGrant_eq (user : UserPrivileges) (row : GrantRow) :
    user.parseGrant row.text = .ok (user.apply row) := by
  obtain ⟨it, created, reads⟩ := create_reads row.formed true
  obtain ⟨next, next_eq, reached⟩ := reads.nextToken
  have text_eq : next.text = row.text := by
    rw [reached.text_eq, GrantRow.text, GrantRow.pieces]
    simp [piecesText]
  have gap_eq : firstGap (privilegePieces row.privileges ++
      (spaced (keyword "ON") :: spaced row.level.lexeme :: accountPieces row)) [] =
        [.space space] := by
    cases row.privileges with
    | none => rfl
    | some names => rfl
  have hint_eq : next.commentHint = false ∧ next.skipQuoted = false := by
    obtain ⟨-, skipped, left, split, -, -, at_⟩ := reached.inGap
    refine ⟨at_.hint_eq.trans ?_, at_.skip_eq⟩
    rw [gap_eq] at split
    cases skipped with
    | nil => rfl
    | cons part skipped =>
      obtain ⟨rfl, nothing⟩ := List.cons.inj split
      rw [(append_eq_nil_iff.mp nothing.symm).1]
      rfl
  have read : user.parseAs row.text row.kind next = .ok (user.apply row) :=
    parseAs_eq ⟨_, reached⟩ text_eq hint_eq.1 hint_eq.2
  have create_eq : (create row.text 0 false true).mapError GrantError.lex = .ok it := by
    rw [GrantRow.text, created]
    rfl
  have type_eq : nextToken it = .ok (row.kind.word, next) := by
    rw [nextToken, next_eq]
    rfl
  simp only [parseGrant, create_eq, type_eq]
  cases kind : row.kind with
  | grant =>
    rw [kind] at read
    rw [if_pos (by decide)]
    exact read
  | revoke =>
    rw [kind] at read
    exact read
  | deny =>
    rw [kind] at read
    exact read

/-- The rows are read one after the other. -/
theorem parseUserGrants_eq (user : UserPrivileges) (rows : List GrantRow) :
    user.parseUserGrants (rows.map GrantRow.text) = .ok (rows.foldl apply user) := by
  induction rows generalizing user with
  | nil => rfl
  | cons row rows ih =>
    simp only [map_cons, parseUserGrants, parseGrant_eq]
    exact ih _

end UserPrivileges

end MariadbShell.Grants
