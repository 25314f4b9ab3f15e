import MariadbShell.Lib.Separated
import MariadbShell.Sql.SqlString

/-!
# Tokens of well-formed text

Text that consists of blanks, comments and lexemes, and the tokens that the iterator
finds in it when quoted text is not skipped: they are the lexemes.
-/

namespace MariadbShell.Sql

open List
open ImportTable (Bytes ascii)
open Lib.Search
open Lib.Separated SqlIterator Option
open Chr hiding slash

/-! ## Where the iterator stops -/

/-- The iterator is behind `before` and in front of `rest`, inside of a hint or not. -/
structure At (it : SqlIterator) (hint : Bool) (before rest : Bytes) : Prop where
  text_eq : it.text = before ++ rest
  offset_eq : it.offset = before.length
  hint_eq : it.commentHint = hint
  skip_eq : it.skipQuoted = false

/-- The iterator does not move on from the beginning of the text. -/
def stops (hint : Bool) : Bytes → Bool
  | [] => true
  | chr :: tail =>
    chr ≠ Chr.hash ∧ chr ≠ dollar ∧ ¬ (chr = Chr.slash ∧ tail.head? = some Chr.star) ∧
      ¬ (chr = Chr.star ∧ hint ∧ tail.head? = some Chr.slash) ∧
        ¬ (chr = minus ∧ tail.head? = some minus ∧ tail[1]?.any isSpace)

/-- Characters at which the iterator stops whatever comes behind them. -/
def isCalm (chr : UInt8) : Bool :=
  chr ≠ Chr.hash ∧ chr ≠ dollar ∧ chr ≠ Chr.slash ∧ chr ≠ Chr.star ∧ chr ≠ minus

variable {chr : UInt8}

theorem stops_of_isCalm (calm : isCalm chr = true) (hint : Bool) (tail : Bytes) :
    stops hint (chr :: tail) = true := by
  rw [isCalm, decide_eq_true_eq] at calm
  obtain ⟨notHash, notDollar, notSlash, notStar, notMinus⟩ := calm
  simp [stops, notHash, notDollar, notSlash, notStar, notMinus]

theorem isCalm_of_isSpace : ∀ chr, isSpace chr = true → isCalm chr = true :=
  forall_byte (by decide +kernel)

theorem isCalm_of_isPunctuation : ∀ chr, isPunctuation chr = true →
    isCalm chr = true ∧ isSpace chr = false :=
  forall_byte (by decide +kernel)

theorem isDigit_of_isSpace : ∀ chr, isSpace chr = true → isDigit chr = false :=
  forall_byte (by decide +kernel)

section

variable {it : SqlIterator} {hint : Bool} {before rest : Bytes}

theorem At.rest_eq (at_ : At it hint before rest) : it.rest = rest := by
  rw [SqlIterator.rest, at_.text_eq, at_.offset_eq, drop_left]

theorem At.valid_iff (at_ : At it hint before rest) : it.valid = true ↔ rest ≠ [] := by
  rw [valid, at_.text_eq, at_.offset_eq, length_append]
  cases rest <;> simp

/-- The iterator behind some more of the text. -/
theorem At.move {text : Bytes} (at_ : At it hint before (text ++ rest)) (later : Bool) :
    At { it with offset := it.offset + text.length, commentHint := later } later
      (before ++ text) rest := by
  refine ⟨?_, ?_, rfl, at_.skip_eq⟩
  · rw [at_.text_eq, append_assoc]
  · rw [at_.offset_eq, length_append]

theorem At.moved {text : Bytes} (at_ : At it hint before (text ++ rest)) {offset : Nat}
    (offset_eq : offset = before.length + text.length) :
    At { it with offset } hint (before ++ text) rest := by
  refine ⟨?_, ?_, at_.hint_eq, at_.skip_eq⟩
  · rw [at_.text_eq, append_assoc]
  · rw [length_append]
    exact offset_eq

theorem At.turn_eq (at_ : At it hint before rest) (stop : stops hint rest = true) :
    it.turn = .ok none := by
  cases rest with
  | nil => simp only [turn, at_.rest_eq]
  | cons chr tail =>
    simp only [stops, decide_eq_true_eq] at stop
    obtain ⟨notHash, notDollar, notComment, notEnd, notLine⟩ := stop
    simp only [turn, at_.rest_eq, at_.skip_eq, at_.hint_eq, Bool.false_eq_true, if_false]
    split_ifs with _ _ _ isSlash isStar ends isMinus line
    · rfl
    · rfl
    · rfl
    · have notStar : tail.head? ≠ some Chr.star := fun star => notComment ⟨isSlash, star⟩
      cases tail with
      | nil => rfl
      | cons second inner =>
        have other : second ≠ Chr.star := by simpa using notStar
        simp [slash, other]
    · exact absurd ⟨isStar, ends⟩ notEnd
    · rfl
    · exact absurd ⟨isMinus, line⟩ notLine
    · rfl
    · rfl

theorem At.settle_eq (at_ : At it hint before rest) (stop : stops hint rest = true)
    (fuel : Nat) : it.settle fuel = .ok it := by
  cases fuel with
  | zero => rfl
  | succ fuel => simp only [settle, at_.turn_eq stop]

end

/-! ## Blanks and comments -/

/-- What stands between two lexemes; a conditional comment is entered and left. -/
inductive GapPart where
  | space (chr : UInt8)
  | comment (body : Bytes)
  | enter (mark : UInt8) (digits : Bytes)
  | leave
deriving DecidableEq, Repr

namespace GapPart

def text : GapPart → Bytes
  | .space chr => [chr]
  | .comment body => [Chr.slash, Chr.star] ++ (body ++ [Chr.star, Chr.slash])
  | .enter mark digits => [Chr.slash, Chr.star, mark] ++ digits
  | .leave => [Chr.star, Chr.slash]

def isBlank : GapPart → Bool
  | .space chr => isSpace chr
  | _ => false

/-- A part can stand in front of other parts, inside of a hint or not. -/
def Fits (hint : Bool) (later : List GapPart) : GapPart → Prop
  | .space chr => isSpace chr = true
  | .comment body =>
    Free [Chr.star, Chr.slash] body ∧ body.head? ≠ some exclamation ∧ body.head? ≠ some plus
  | .enter mark digits =>
    (mark = exclamation ∨ mark = plus) ∧ digits.all isDigit = true ∧ later.head?.any isBlank = true
  | .leave => hint = true

instance (hint : Bool) (later : List GapPart) (part : GapPart) : Decidable (part.Fits hint later) :=
  match part with
  | .space _ => inferInstanceAs (Decidable (_ = _))
  | .comment _ => inferInstanceAs (Decidable (_ ∧ _ ∧ _))
  | .enter .. => inferInstanceAs (Decidable ((_ ∨ _) ∧ _ ∧ _))
  | .leave => inferInstanceAs (Decidable (_ = _))

/-- Whether a hint is open behind a part. -/
def state (hint : Bool) : GapPart → Bool
  | .space _ | .comment _ => hint
  | .enter .. => true
  | .leave => false

end GapPart

def gapText (gap : List GapPart) : Bytes :=
  gap.flatMap GapPart.text

/-- Every part of a gap can stand where it is. -/
def GapFits : Bool → List GapPart → Prop
  | _, [] => True
  | hint, part :: gap => part.Fits hint gap ∧ GapFits (part.state hint) gap

instance GapFits.decidable : (hint : Bool) → (gap : List GapPart) → Decidable (GapFits hint gap)
  | _, [] => isTrue trivial
  | hint, part :: gap =>
    have := GapFits.decidable (part.state hint) gap
    inferInstanceAs (Decidable (part.Fits hint gap ∧ GapFits (part.state hint) gap))

def gapState (hint : Bool) (gap : List GapPart) : Bool :=
  gap.foldl GapPart.state hint

/-- The iterator is in a gap, in front of the first blank or behind the gap. -/
def InGap (it : SqlIterator) (hint : Bool) (before : Bytes) (gap : List GapPart)
    (rest : Bytes) : Prop :=
  GapFits hint gap ∧ ∃ skipped left, gap = skipped ++ left ∧
    (gap.head?.all GapPart.isBlank = true → skipped = []) ∧
      left.head?.all GapPart.isBlank = true ∧
        At it (gapState hint skipped) (before ++ gapText skipped) (gapText left ++ rest)

section

variable {it : SqlIterator} {hint : Bool} {before rest : Bytes}

theorem spanCstyleComment_comment {body : Bytes} (free : Free [Chr.star, Chr.slash] body)
    (rest : Bytes) :
    spanCstyleComment ((GapPart.comment body).text ++ rest) = some (body.length + 4) := by
  have found := find_of_free (by simp) free rest
  simp only [spanCstyleComment, GapPart.text, append_assoc, cons_append,
    nil_append, drop_succ_cons, drop_zero] at found ⊢
  rw [found]
  rfl

theorem takeWhile_digits {digits : Bytes} (all : digits.all isDigit = true) {gap : List GapPart}
    (blank : gap.head?.any GapPart.isBlank = true) (rest : Bytes) :
    (digits ++ (gapText gap ++ rest)).takeWhile isDigit = digits := by
  rw [takeWhile_append_of_pos (fun digit member => all_eq_true.mp all digit member)]
  cases gap with
  | nil => cases blank
  | cons part gap =>
    cases part with
    | space chr =>
      have isBlank : isSpace chr = true := by simpa [GapPart.isBlank] using blank
      simp [gapText, GapPart.text, isDigit_of_isSpace chr isBlank]
    | _ => cases blank

theorem turn_slash {tail : Bytes} (text : it.rest = Chr.slash :: tail) :
    it.turn = .ok (it.slash tail) := by
  simp only [turn, text]
  rw [if_neg (by decide), if_neg (by decide), if_neg (by decide), if_pos trivial]

theorem turn_star {tail : Bytes} (text : it.rest = Chr.star :: tail)
    (ends : it.commentHint = true ∧ tail.head? = some Chr.slash) :
    it.turn = .ok (some { it with offset := it.offset + 2, commentHint := false }) := by
  simp only [turn, text]
  rw [if_neg (by decide), if_neg (by decide), if_neg (by decide), if_neg (by decide),
    if_pos trivial, if_pos ends]

theorem slash_comment {inner : Bytes}
    (plain : ¬ (inner.head? = some exclamation ∨ inner.head? = some plus)) :
    it.slash (Chr.star :: inner) = some (it.jump (spanCstyleComment it.rest)) := by
  unfold slash
  simp only [if_true, if_neg plain]

theorem slash_enter {mark : UInt8} (inner : Bytes) (isMark : mark = exclamation ∨ mark = plus) :
    it.slash (Chr.star :: mark :: inner) =
      some { it with
        commentHint := true
        offset := it.offset + 3 + (inner.takeWhile isDigit).length } := by
  have marked : (mark :: inner).head? = some exclamation ∨ (mark :: inner).head? = some plus := by
    simpa using isMark
  unfold slash
  simp only [if_true, if_pos marked, tail_cons]

/-- The iterator moves over a comment, and in and out of a conditional one. -/
theorem At.turn_part {part : GapPart} {gap : List GapPart}
    (at_ : At it hint before (part.text ++ (gapText gap ++ rest)))
    (fits : part.Fits hint gap) (comment : part.isBlank = false) :
    ∃ later, it.turn = .ok (some later) ∧
      At later (part.state hint) (before ++ part.text) (gapText gap ++ rest) := by
  have text := at_.rest_eq
  have moved := at_.move (part.state hint)
  refine ⟨_, ?_, moved⟩
  cases part with
  | space chr =>
    rw [GapPart.isBlank, fits] at comment
    cases comment
  | comment body =>
    obtain ⟨free, notExclamation, notPlus⟩ := fits
    have span := spanCstyleComment_comment free (gapText gap ++ rest)
    have plain : ¬ ((body ++ [Chr.star, Chr.slash] ++ (gapText gap ++ rest)).head? =
        some exclamation ∨ (body ++ [Chr.star, Chr.slash] ++ (gapText gap ++ rest)).head? =
          some plus) := by
      cases body with
      | nil =>
        simp only [nil_append, cons_append, head?_cons]
        decide
      | cons chr body => exact not_or.mpr ⟨notExclamation, notPlus⟩
    have hint_eq : it.commentHint = hint := at_.hint_eq
    rw [turn_slash text]
    change Except.ok (it.slash (Chr.star :: (body ++ [Chr.star, Chr.slash] ++ _))) = _
    rw [slash_comment plain, text, span, ← hint_eq]
    simp [jump, GapPart.text, GapPart.state]
  | enter mark digits =>
    obtain ⟨isMark, all, blank⟩ := fits
    rw [turn_slash text]
    change Except.ok (it.slash (Chr.star :: mark :: (digits ++ (gapText gap ++ rest)))) = _
    rw [slash_enter _ isMark, takeWhile_digits all blank]
    simp [GapPart.text, GapPart.state]
    omega
  | leave =>
    rw [turn_star text ⟨at_.hint_eq.trans fits, rfl⟩]
    rfl

theorem GapPart.text_length_pos (part : GapPart) : 0 < part.text.length := by
  cases part <;> simp [GapPart.text]

theorem stops_of_isBlank {part : GapPart} (blank : part.isBlank = true) (hint : Bool)
    (rest : Bytes) : stops hint (part.text ++ rest) = true := by
  cases part with
  | space chr => exact stops_of_isCalm (isCalm_of_isSpace chr blank) hint rest
  | _ => cases blank

theorem gapText_append (left right : List GapPart) :
    gapText (left ++ right) = gapText left ++ gapText right :=
  flatMap_append

theorem gapText_cons (part : GapPart) (gap : List GapPart) :
    gapText (part :: gap) = part.text ++ gapText gap :=
  flatMap_cons

theorem At.inGap {gap : List GapPart} (at_ : At it hint before (gapText gap ++ rest))
    (fits : GapFits hint gap) (blank : gap.head?.all GapPart.isBlank = true) :
    InGap it hint before gap rest :=
  ⟨fits, [], gap, rfl, fun _ => rfl, blank, by simpa [gapText, gapState] using at_⟩

/-- The loop of `operator++` moves over comments up to the next blank or the next lexeme. -/
theorem At.settle_gap {gap : List GapPart} (at_ : At it hint before (gapText gap ++ rest))
    (fits : GapFits hint gap) (stop : stops (gapState hint gap) rest = true) {fuel : Nat}
    (enough : (gapText gap).length ≤ fuel) :
    ∃ later, it.settle fuel = .ok later ∧ InGap later hint before gap rest := by
  induction gap generalizing it hint before fuel with
  | nil => exact ⟨it, at_.settle_eq stop fuel, at_.inGap fits rfl⟩
  | cons part gap ih =>
    by_cases blank : part.isBlank = true
    · refine ⟨it, ?_, at_.inGap fits (by simpa using blank)⟩
      rw [gapText_cons, append_assoc] at at_
      exact at_.settle_eq (stops_of_isBlank blank hint _) fuel
    · rw [gapText_cons, append_assoc] at at_
      obtain ⟨next, turned, moved⟩ := at_.turn_part fits.1 (by simpa using blank)
      have positive := part.text_length_pos
      rw [gapText_cons, length_append] at enough
      obtain ⟨fuel, rfl⟩ : ∃ count, fuel = count + 1 := ⟨fuel - 1, by omega⟩
      have left_ : (gapText gap).length ≤ fuel := by omega
      obtain ⟨later, settled, -, skipped, left, rfl, -, starts, reached⟩ :=
        ih moved fits.2 stop left_
      refine ⟨later, ?_, fits, part :: skipped, left, rfl,
        fun first => absurd (by simpa using first) blank, starts, ?_⟩
      · simp only [settle, turned]
        exact settled
      · rw [gapText_cons, ← append_assoc]
        exact reached

/-- `operator++` from a blank or from the last character of a lexeme. -/
theorem At.next_inGap {gap : List GapPart}
    (at_ : At it hint before (chr :: (gapText gap ++ rest))) (fits : GapFits hint gap)
    (stop : stops (gapState hint gap) rest = true) :
    ∃ later, it.next = .ok later ∧ InGap later hint (before ++ [chr]) gap rest := by
  rw [← singleton_append] at at_
  have moved := at_.moved rfl
  rw [length_singleton, ← at_.offset_eq] at moved
  have inside : ¬ it.text.length < it.offset + 1 := by
    rw [at_.text_eq, at_.offset_eq, length_append, length_append, length_singleton]
    omega
  have enough : (gapText gap).length ≤ it.rest.length := by
    rw [at_.rest_eq, length_append, length_append]
    omega
  obtain ⟨later, settled, inGap⟩ := moved.settle_gap fits stop enough
  refine ⟨later, ?_, inGap⟩
  rw [SqlIterator.next, if_neg inside, settled]

/-- A step over one character to one where the iterator stops. -/
theorem At.next_eq (at_ : At it hint before (chr :: rest)) (stop : stops hint rest = true) :
    ∃ later, it.next = .ok later ∧ At later hint (before ++ [chr]) rest := by
  have front : At it hint before (chr :: (gapText [] ++ rest)) := at_
  obtain ⟨later, stepped, -, skipped, left, split, -, -, reached⟩ := front.next_inGap trivial stop
  obtain ⟨rfl, rfl⟩ := append_eq_nil_iff.mp split.symm
  exact ⟨later, stepped, by simpa [gapText, gapState] using reached⟩

theorem GapFits.append_right {left right : List GapPart} (fits : GapFits hint (left ++ right)) :
    GapFits (gapState hint left) right := by
  induction left generalizing hint with
  | nil => exact fits
  | cons part left ih => exact ih fits.2

theorem gapState_append (hint : Bool) (left right : List GapPart) :
    gapState hint (left ++ right) = gapState (gapState hint left) right :=
  foldl_append

theorem skipSpaces_of_not_space
    (notSpace : ∀ chr, it.rest.head? = some chr → isSpace chr = false) (fuel : Nat) :
    it.skipSpaces fuel = .ok it := by
  cases fuel with
  | zero => rfl
  | succ fuel =>
    unfold skipSpaces
    cases text : it.rest with
    | nil => rfl
    | cons chr tail =>
      have other : isSpace chr = false := notSpace chr (by rw [text]; rfl)
      simp [other]

/-- The spaces and comments in front of a lexeme are skipped. -/
theorem At.skipSpaces_gap {gap : List GapPart}
    (at_ : At it hint before (gapText gap ++ rest)) (fits : GapFits hint gap)
    (starts : gap.head?.all GapPart.isBlank = true)
    (stop : stops (gapState hint gap) rest = true)
    (notSpace : ∀ chr, rest.head? = some chr → isSpace chr = false) {fuel : Nat}
    (enough : (gapText gap).length ≤ fuel) :
    ∃ later, it.skipSpaces fuel = .ok later ∧
      At later (gapState hint gap) (before ++ gapText gap) rest := by
  induction fuel generalizing gap it hint before with
  | zero =>
    obtain rfl : gap = [] := by
      cases gap with
      | nil => rfl
      | cons part gap =>
        have positive := part.text_length_pos
        rw [gapText_cons, length_append] at enough
        omega
    exact ⟨it, rfl, by simpa [gapText, gapState] using at_⟩
  | succ fuel ih =>
    cases gap with
    | nil =>
      have text : it.rest = rest := by simpa [gapText] using at_.rest_eq
      exact ⟨it, skipSpaces_of_not_space (text ▸ notSpace) _,
        by simpa [gapText, gapState] using at_⟩
    | cons part gap =>
      cases part with
      | comment | enter | leave => cases starts
      | space chr =>
        rw [gapText_cons, append_assoc] at at_
        obtain ⟨next, stepped, inner, skipped, left, rfl, -, blank, reached⟩ :=
          at_.next_inGap fits.2 stop
        have enough' : (gapText left).length ≤ fuel := by
          rw [gapText_cons, gapText_append, length_append, length_append] at enough
          simp only [GapPart.text, length_singleton] at enough
          omega
        have stop' : stops (gapState (gapState hint skipped) left) rest = true := by
          rw [← gapState_append]
          exact stop
        obtain ⟨later, skippedAll, there⟩ := ih reached inner.append_right blank stop' enough'
        refine ⟨later, ?_, ?_⟩
        · have isBlank : isSpace chr = true := fits.1
          simp only [skipSpaces, at_.rest_eq, GapPart.text,
            singleton_append, isBlank, if_true, stepped]
          exact skippedAll
        · rw [← gapState_append] at there
          rw [gapText_cons, gapText_append, ← append_assoc, ← append_assoc]
          exact there

end

section

variable {it : SqlIterator} {hint : Bool} {before rest : Bytes} {gap : List GapPart}

theorem InGap.skipSpaces (inGap : InGap it hint before gap rest)
    (stop : stops (gapState hint gap) rest = true)
    (notSpace : ∀ chr, rest.head? = some chr → isSpace chr = false) :
    ∃ later, it.skipSpaces it.rest.length = .ok later ∧
      At later (gapState hint gap) (before ++ gapText gap) rest := by
  obtain ⟨fits, skipped, left, rfl, -, blank, at_⟩ := inGap
  rw [gapState_append] at stop
  have enough : (gapText left).length ≤ it.rest.length := by
    rw [at_.rest_eq, length_append]
    omega
  obtain ⟨later, skippedAll, there⟩ := at_.skipSpaces_gap fits.append_right blank stop
    notSpace enough
  refine ⟨later, skippedAll, ?_⟩
  rw [gapState_append, gapText_append, ← append_assoc]
  exact there

end

/-! ## Lexemes -/

/-- Characters of words, numbers and operators. -/
def isRunChar (chr : UInt8) : Bool :=
  ¬ isSpace chr ∧ ¬ isPunctuation chr ∧ chr ≠ Chr.quote ∧ chr ≠ doubleQuote ∧
    chr ≠ backtick ∧ chr ≠ colon

/-- The text of a string in which every quote is escaped. -/
def isStringBody (quote : UInt8) : Bytes → Bool
  | [] => true
  | [chr] => chr ≠ quote ∧ chr ≠ backslash
  | chr :: second :: text =>
    if chr = backslash then isStringBody quote text
    else chr ≠ quote ∧ isStringBody quote (second :: text)

/-- The tokens of well-formed text; names are given without their quotes. -/
inductive Lexeme where
  | run (chars : Bytes)
  | punctuation (chr : UInt8)
  | string (quote : UInt8) (body : Bytes)
  | name (identifier : Bytes)
  | member (owner part : Bytes)
  | everyMember (owner : Bytes)
deriving DecidableEq, Repr

namespace Lexeme

def text : Lexeme → Bytes
  | .run chars => chars
  | .punctuation chr => [chr]
  | .string quote body => quote :: (body ++ [quote])
  | .name identifier => quoteIdentifier backtick identifier
  | .member owner part =>
    quoteIdentifier backtick owner ++ dot :: quoteIdentifier backtick part
  | .everyMember owner => quoteIdentifier backtick owner ++ [dot, Chr.star]

/-- A character that ends a run, if it stands directly behind the last character of it. -/
def ends (last chr : UInt8) : Bool :=
  isPunctuation chr ∨ chr = Chr.quote ∨ chr = doubleQuote ∨ (chr = backtick ∧ last ≠ dot)

/-- A lexeme can stand in front of a gap and the text behind it, inside of a hint or not. -/
def Fits (hint : Bool) (gap : List GapPart) (rest : Bytes) : Lexeme → Prop
  | .run chars =>
    chars.all isRunChar = true ∧
      (∀ index < chars.length, stops hint (chars.drop index ++ (gapText gap ++ rest)) = true) ∧
        ∃ last ∈ chars.getLast?, gap ≠ [] ∨ rest.head?.all (ends last) = true
  | .punctuation chr => isPunctuation chr = true
  | .string quote body =>
    (quote = Chr.quote ∨ quote = doubleQuote) ∧ isStringBody quote body = true ∧
      gap.head?.all GapPart.isBlank = true
  | .name _ | .member .. =>
    gap.head?.all GapPart.isBlank = true ∧
      (gap ≠ [] ∨ rest.head? ≠ some backtick ∧ rest.head? ≠ some dot)
  | .everyMember _ =>
    stops hint (Chr.star :: (gapText gap ++ rest)) = true ∧
      (gap ≠ [] ∨ rest.head?.all (ends Chr.star) = true)

instance (hint : Bool) (gap : List GapPart) (rest : Bytes) (lexeme : Lexeme) :
    Decidable (lexeme.Fits hint gap rest) :=
  match lexeme with
  | .run chars =>
    inferInstanceAs (Decidable (_ ∧ (∀ index < chars.length, _) ∧ ∃ last ∈ chars.getLast?, _))
  | .punctuation _ => inferInstanceAs (Decidable (_ = _))
  | .string .. => inferInstanceAs (Decidable ((_ ∨ _) ∧ _ ∧ _))
  | .name _ | .member .. => inferInstanceAs (Decidable (_ ∧ (_ ∨ _ ∧ _)))
  | .everyMember _ => inferInstanceAs (Decidable (_ ∧ (_ ∨ _)))

end Lexeme

/-! ## Single tokens -/

section

variable {it : SqlIterator} {hint : Bool} {before rest : Bytes} {gap : List GapPart}

variable {start token : Bytes} {previous : Nat}

theorem substring_eq (text : it.text = start ++ (token ++ rest)) {stop : Nat}
    (stop_eq : stop = start.length + token.length) :
    it.substring start.length stop = token := by
  rw [substring, text, drop_left, stop_eq, Nat.add_sub_cancel_left, take_left]

theorem endToken_eq (text : it.text = start ++ (token ++ rest)) (behind : it.offset ≠ start.length)
    (previous_eq : previous + 1 = start.length + token.length) :
    it.endToken start.length previous = .ok (token, it) := by
  rw [endToken, if_neg behind, substring_eq text previous_eq]

/-- A character at which a token ends. -/
theorem tokenLoop_ends {tail : Bytes} (text : it.rest = chr :: tail)
    (skip : it.skipQuoted = false) {start : Nat}
    (stop : isPunctuation chr = true ∨ chr = Chr.quote ∨ chr = doubleQuote ∨
      (chr = backtick ∧ it.offset ≠ start ∧ it.text[it.offset - 1]? ≠ some dot) ∨
      (chr ≠ backtick ∧ (isSpace chr = true ∨ 1 < it.offset - previous)))
    (fuel : Nat) : it.tokenLoop start (fuel + 1) previous = it.endToken start previous := by
  unfold tokenLoop
  simp only [text, skip, Bool.false_eq_true, if_false]
  rcases stop with punctuation | rfl | rfl | ⟨rfl, notStart, notDot⟩ | ⟨notBacktick, space⟩
  · rw [if_pos punctuation]
  · rw [if_neg (by decide), if_pos (by decide)]
  · rw [if_neg (by decide), if_pos (by decide)]
  · rw [if_neg (by decide), if_neg (by decide), if_pos rfl, if_neg (not_or.mpr ⟨notStart, notDot⟩)]
  · split
    · rfl
    · split
      · rfl
      · rfl

/-- A character at which a token goes on. -/
theorem tokenLoop_run {tail : Bytes} (text : it.rest = chr :: tail) (isRun : isRunChar chr = true)
    {start : Nat} (near : it.offset ≤ previous + 1) {later : SqlIterator}
    (stepped : it.next = .ok later) (fuel : Nat) :
    it.tokenLoop start (fuel + 1) previous =
      if later.valid then later.tokenLoop start fuel it.offset
      else later.endToken start it.offset := by
  simp only [isRunChar, decide_eq_true_eq] at isRun
  obtain ⟨notSpace, notPunctuation, notQuote, notDoubleQuote, notBacktick, notColon⟩ := isRun
  have noEnd : ¬ (isSpace chr = true ∨ 1 < it.offset - previous) := by
    rintro (space | far)
    · exact notSpace space
    · omega
  rw [tokenLoop]
  simp only [text, stepped]
  rw [if_neg notPunctuation, if_neg (not_or.mpr ⟨notQuote, notDoubleQuote⟩), if_neg notBacktick,
    if_neg noEnd, if_neg notColon]

theorem gapText_ne_nil {gap : List GapPart} (some_ : gap ≠ []) : gapText gap ≠ [] := by
  cases gap with
  | nil => exact absurd rfl some_
  | cons part gap =>
    intro empty
    have positive := part.text_length_pos
    rw [(append_eq_nil_iff.mp empty).1] at positive
    exact Nat.lt_irrefl 0 positive

theorem GapPart.getLast_ne_dot {later : List GapPart} {part : GapPart}
    (fits : part.Fits hint later) : part.text.getLast? ≠ some dot := by
  cases part with
  | space chr =>
    rintro same
    cases some.inj same
    cases (fits : isSpace dot = true)
  | comment body =>
    have ends : (GapPart.comment body).text =
        [Chr.slash, Chr.star] ++ (body ++ [Chr.star]) ++ [Chr.slash] := by
      simp [GapPart.text]
    rw [ends, getLast?_concat]
    decide
  | leave => decide
  | enter mark digits =>
    obtain ⟨isMark, all, -⟩ := fits
    intro same
    rcases mem_append.mp (mem_of_getLast? same) with inMark | inDigits
    · rcases isMark with rfl | rfl
      · revert inMark; decide
      · revert inMark; decide
    · cases (all_eq_true.mp all _ inDigits : isDigit dot = true)

/-- The last character of a gap is no dot. -/
theorem gapText_getLast {skipped left : List GapPart} (fits : GapFits hint (skipped ++ left)) :
    (gapText skipped).getLast? ≠ some dot := by
  induction skipped generalizing hint with
  | nil => simp [gapText]
  | cons part skipped ih =>
    rw [gapText_cons, getLast?_append]
    cases last : (gapText skipped).getLast? with
    | none => simpa [last] using GapPart.getLast_ne_dot fits.1
    | some chr =>
      have other := ih fits.2
      rw [last] at other
      exact other

/-- A token ends in the gap behind it. -/
theorem InGap.tokenLoop_eq {last : UInt8}
    (inGap : InGap it hint (start ++ (token ++ [last])) gap rest)
    (followed : gap ≠ [] ∨ rest.head?.all (Lexeme.ends last) = true) (fuel : Nat) :
    (if it.valid then it.tokenLoop start.length (fuel + 1) (start ++ token).length
      else it.endToken start.length (start ++ token).length) = .ok (token ++ [last], it) := by
  obtain ⟨fits, skipped, left, rfl, -, blank, at_⟩ := inGap
  have text : it.text =
      start ++ (token ++ [last] ++ (gapText skipped ++ (gapText left ++ rest))) := by
    rw [at_.text_eq]
    simp only [append_assoc]
  have offset : it.offset = start.length + token.length + 1 + (gapText skipped).length := by
    rw [at_.offset_eq]
    simp only [length_append, length_singleton]
    omega
  have ended : it.endToken start.length (start ++ token).length = .ok (token ++ [last], it) := by
    refine endToken_eq text (by omega) ?_
    simp only [length_append, length_singleton]
    omega
  split
  · rename_i valid
    cases rest_eq : it.rest with
    | nil =>
      rw [at_.valid_iff, ← at_.rest_eq] at valid
      exact absurd rest_eq valid
    | cons chr tail =>
      rw [tokenLoop_ends rest_eq at_.skip_eq ?_, ended]
      rw [at_.rest_eq] at rest_eq
      -- the character in front of the iterator
      have before_eq : it.text[it.offset - 1]? =
          (start ++ (token ++ [last]) ++ gapText skipped).getLast? := by
        have inside : (start ++ (token ++ [last]) ++ gapText skipped).length - 1 <
            (start ++ (token ++ [last]) ++ gapText skipped).length := by
          simp only [length_append, length_singleton]
          omega
        rw [at_.text_eq, at_.offset_eq, getElem?_append_left inside, getLast?_eq_getElem?]
      cases left with
      | cons part left =>
        cases part with
        | comment | enter | leave => cases blank
        | space other =>
          cases (List.cons.inj rest_eq).1
          have isBlank : isSpace chr = true := by simpa [GapPart.isBlank] using blank
          refine .inr (.inr (.inr (.inr ⟨?_, .inl isBlank⟩)))
          rintro rfl
          cases isBlank
      | nil =>
        rw [gapText, flatMap_nil, nil_append] at rest_eq
        by_cases empty : skipped = []
        · subst empty
          rw [rest_eq] at followed
          have isEnd : Lexeme.ends last chr = true := by
            rcases followed with some_ | isEnd
            · exact absurd rfl some_
            · simpa using isEnd
          simp only [Lexeme.ends, decide_eq_true_eq] at isEnd
          rcases isEnd with punctuation | quote | doubleQuote | ⟨backtick, notDot⟩
          · exact .inl punctuation
          · exact .inr (.inl quote)
          · exact .inr (.inr (.inl doubleQuote))
          · refine .inr (.inr (.inr (.inl ⟨backtick, by omega, ?_⟩)))
            rw [before_eq]
            simpa [gapText, ← append_assoc] using notDot
        · obtain ⟨chr', isLast⟩ := ne_none_iff_exists'.mp
            (mt getLast?_eq_none_iff.mp (gapText_ne_nil empty))
          have far : 0 < (gapText skipped).length := length_pos_iff.mpr (gapText_ne_nil empty)
          by_cases backtick : chr = Chr.backtick
          · refine .inr (.inr (.inr (.inl ⟨backtick, by omega, ?_⟩)))
            have notDot := gapText_getLast fits
            rw [before_eq, getLast?_append, isLast]
            rw [isLast] at notDot
            exact notDot
          · refine .inr (.inr (.inr (.inr ⟨backtick, .inr ?_⟩)))
            rw [offset, length_append]
            omega
  · exact ended

/-- The loop over the characters of a run. -/
theorem At.tokenLoop_chars {chars : Bytes} {last : UInt8}
    (at_ : At it hint (start ++ token) (chars ++ [last] ++ (gapText gap ++ rest)))
    (all : (chars ++ [last]).all isRunChar = true) (calm : ∀ index < chars.length + 1,
      stops hint ((chars ++ [last]).drop index ++ (gapText gap ++ rest)) = true)
    (fits : GapFits hint gap) (stop : stops (gapState hint gap) rest = true)
    (followed : gap ≠ [] ∨ rest.head?.all (Lexeme.ends last) = true) {fuel : Nat}
    (near : (start ++ token).length ≤ previous + 1) (enough : chars.length + 1 < fuel) :
    ∃ later, it.tokenLoop start.length fuel previous = .ok (token ++ (chars ++ [last]), later) ∧
      InGap later hint (start ++ (token ++ (chars ++ [last]))) gap rest := by
  obtain ⟨fuel, rfl⟩ : ∃ less, fuel = less + 1 := ⟨fuel - 1, by omega⟩
  induction chars generalizing it token previous fuel with
  | nil =>
    obtain ⟨later, stepped, inGap⟩ := at_.next_inGap fits stop
    have isRun : isRunChar last = true := by simpa using all
    have near' : it.offset ≤ previous + 1 := at_.offset_eq ▸ near
    rw [append_assoc] at inGap
    obtain ⟨fuel, rfl⟩ : ∃ less, fuel = less + 1 := ⟨fuel - 1, by simp at enough; omega⟩
    refine ⟨later, ?_, inGap⟩
    rw [tokenLoop_run at_.rest_eq isRun near' stepped, at_.offset_eq]
    exact inGap.tokenLoop_eq followed fuel
  | cons chr chars ih =>
    obtain ⟨later, stepped, moved⟩ := at_.next_eq (calm 1 (by simp))
    rw [cons_append, all_cons, Bool.and_eq_true] at all
    have near' : it.offset ≤ previous + 1 := at_.offset_eq ▸ near
    have valid : later.valid = true := moved.valid_iff.mpr (by simp)
    have enough' : chars.length + 1 < fuel := by
      rw [length_cons] at enough
      omega
    obtain ⟨fuel, rfl⟩ : ∃ less, fuel = less + 1 := ⟨fuel - 1, by omega⟩
    have calm' : ∀ index < chars.length + 1,
        stops hint ((chars ++ [last]).drop index ++ (gapText gap ++ rest)) = true := by
      intro index small
      exact calm (index + 1) (by rw [length_cons]; omega)
    rw [append_assoc] at moved
    have near'' : (start ++ (token ++ [chr])).length ≤ it.offset + 1 := by
      rw [at_.offset_eq]
      simp only [length_append, length_singleton]
      omega
    obtain ⟨final, looped, inGap⟩ := ih moved all.2 calm' near'' fuel enough'
    rw [append_assoc, singleton_append] at looped inGap
    refine ⟨final, ?_, inGap⟩
    rw [tokenLoop_run at_.rest_eq all.1 near' stepped, if_pos valid]
    exact looped

end

/-! ## Quoted text -/

variable {quote : UInt8}

theorem spanStringBody_eq {body : Bytes} (formed : isStringBody quote body = true)
    (notEscape : quote ≠ backslash) (rest : Bytes) :
    spanStringBody quote (body ++ quote :: rest) = some (body.length + 1) := by
  fun_induction isStringBody quote body with
  | case1 => cases rest <;> simp [spanStringBody]
  | case2 chr =>
    simp only [decide_eq_true_eq] at formed
    cases rest <;> simp [spanStringBody, formed.1, formed.2]
  | case3 second text ih =>
    simp only [cons_append, spanStringBody, ih formed, if_neg (Ne.symm notEscape), if_true]
    rfl
  | case4 chr second text notEscaped ih =>
    simp only [decide_eq_true_eq] at formed
    have inner := ih formed.2
    simp only [cons_append] at inner ⊢
    simp only [spanStringBody, if_neg formed.1, if_neg notEscaped, inner]
    rfl

theorem spanIdentifierBody_eq (quote : UInt8) (identifier : Bytes) {rest : Bytes}
    (ends : rest.head? ≠ some quote) :
    spanIdentifierBody quote
      (identifier.flatMap (fun chr => if chr = quote then [quote, quote] else [chr]) ++
        quote :: rest) =
      some ((identifier.flatMap fun chr => if chr = quote then [quote, quote] else [chr]).length +
        1) := by
  induction identifier with
  | nil =>
    cases rest with
    | nil => simp [spanIdentifierBody]
    | cons chr rest =>
      have other : chr ≠ quote := by simpa using ends
      simp [spanIdentifierBody, other]
  | cons chr identifier ih =>
    rw [flatMap_cons]
    by_cases same : chr = quote
    · simp only [same, if_true, cons_append, nil_append, spanIdentifierBody, ih]
      rfl
    · obtain ⟨second, text, split⟩ := exists_cons_of_ne_nil
        (append_ne_nil_of_right_ne_nil
          (identifier.flatMap fun chr => if chr = quote then [quote, quote] else [chr])
          (cons_ne_nil quote rest))
      rw [split] at ih
      simp only [same, if_false, cons_append, nil_append, split, spanIdentifierBody, ih]
      rfl

theorem spanQuotedSqlIdentifierBt_eq (identifier : Bytes) {rest : Bytes}
    (ends : rest.head? ≠ some backtick) :
    spanQuotedSqlIdentifierBt (quoteIdentifier backtick identifier ++ rest) =
      some (quoteIdentifier backtick identifier).length := by
  have body := spanIdentifierBody_eq backtick identifier ends
  simp only [spanQuotedSqlIdentifierBt, quoteIdentifier, cons_append, tail_cons,
    append_assoc, nil_append, body, map_some, length_cons,
    length_append, length_nil]

/-! ## The next token -/

section

variable {it : SqlIterator} {hint : Bool} {before rest : Bytes} {gap : List GapPart}

variable {token start : Bytes} {there : SqlIterator}

/-- A quoted name at the beginning of a token or behind a dot. -/
theorem At.tokenLoop_quoted {identifier tail : Bytes}
    (at_ : At it hint (start ++ token) (quoteIdentifier backtick identifier ++ tail))
    (begins : token = [] ∨ token.getLast? = some dot) (ends : tail.head? ≠ some backtick)
    (previous fuel : Nat) :
    ∃ named : SqlIterator,
      At named hint (start ++ (token ++ quoteIdentifier backtick identifier)) tail ∧
      it.tokenLoop start.length (fuel + 1) previous =
        if tail.head? = some dot then
          match named.next with
          | .error error => .error error
          | .ok later =>
            if later.valid then later.tokenLoop start.length fuel named.offset
            else later.endToken start.length named.offset
        else .ok (token ++ quoteIdentifier backtick identifier, named) := by
  have span := spanQuotedSqlIdentifierBt_eq identifier ends
  have moved := at_.moved rfl
  have position : it.offset = start.length ∨ it.text[it.offset - 1]? = some dot := by
    rcases begins with rfl | isDot
    · left
      rw [at_.offset_eq, append_nil]
    · right
      have some_ : 0 < token.length := by
        rw [length_pos_iff]
        rintro rfl
        cases isDot
      have inside : (start ++ token).length - 1 < (start ++ token).length := by
        rw [length_append]
        omega
      rw [at_.text_eq, at_.offset_eq, getElem?_append_left inside, ← getLast?_eq_getElem?,
        getLast?_append, isDot]
      rfl
  refine ⟨_, by rw [← append_assoc]; exact moved, ?_⟩
  have text : it.rest = backtick ::
      (identifier.flatMap (fun chr => if chr = backtick then [backtick, backtick]
        else [chr]) ++ [backtick] ++ tail) := by
    rw [at_.rest_eq]
    rfl
  have stop : (start ++ token).length + (quoteIdentifier backtick identifier).length =
      start.length + (token ++ quoteIdentifier backtick identifier).length := by
    simp only [length_append]
    omega
  have whole : it.text = start ++ (token ++ quoteIdentifier backtick identifier ++ tail) := by
    rw [at_.text_eq]
    simp only [append_assoc]
  have token_eq (later : SqlIterator) (same : later.text = it.text) :=
    substring_eq (same.trans whole) stop
  have named_rest := moved.rest_eq
  rw [← at_.rest_eq] at span
  rw [at_.skip_eq] at named_rest
  rw [tokenLoop]
  simp only [text]
  rw [if_neg (by decide), if_neg (by decide), if_pos trivial, at_.skip_eq, if_neg (by decide),
    if_pos position, ← text, span]
  simp only [map_some, getD_some, at_.offset_eq, named_rest]
  refine ite_congr rfl (fun _ => rfl) fun _ => ?_
  rw [token_eq { it with offset := _, skipQuoted := false } rfl]

theorem head_ne_of_blank (blank : gap.head?.all GapPart.isBlank = true)
    (notSpace : isSpace chr = false) (followed : gap ≠ [] ∨ rest.head? ≠ some chr) :
    (gapText gap ++ rest).head? ≠ some chr := by
  cases gap with
  | nil =>
    rcases followed with some_ | other
    · exact absurd rfl some_
    · simpa [gapText] using other
  | cons part gap =>
    cases part with
    | comment | enter | leave => cases blank
    | space other =>
      have isBlank : isSpace other = true := by simpa [GapPart.isBlank] using blank
      intro same
      rw [some.inj same, notSpace] at isBlank
      cases isBlank

/-- A name. -/
theorem At.tokenLoop_name {identifier : Bytes} (at_ : At it hint (start ++ token)
      (quoteIdentifier backtick identifier ++ (gapText gap ++ rest)))
    (begins : token = [] ∨ token.getLast? = some dot) (gapFits : GapFits hint gap)
    (fits : (Lexeme.name identifier).Fits hint gap rest) (previous fuel : Nat) :
    ∃ later, it.tokenLoop start.length (fuel + 1) previous =
        .ok (token ++ quoteIdentifier backtick identifier, later) ∧
      InGap later hint (start ++ (token ++ quoteIdentifier backtick identifier)) gap rest := by
  obtain ⟨blank, followed⟩ := fits
  have notBacktick := head_ne_of_blank blank (by decide) (followed.imp_right And.left)
  have notDot := head_ne_of_blank blank (by decide) (followed.imp_right And.right)
  obtain ⟨named, reached, looped⟩ := at_.tokenLoop_quoted begins notBacktick previous fuel
  rw [if_neg notDot] at looped
  exact ⟨named, looped, reached.inGap gapFits blank⟩

/-- A name and a dot, which a character follows at which the iterator stops. -/
theorem At.tokenLoop_dot {identifier tail : Bytes}
    (at_ : At it hint start (quoteIdentifier backtick identifier ++ dot :: tail))
    (stop : stops hint tail = true) (some_ : tail ≠ []) (fuel : Nat) :
    ∃ later, At later hint (start ++ (quoteIdentifier backtick identifier ++ [dot])) tail ∧
      it.tokenLoop start.length (fuel + 1) start.length =
        later.tokenLoop start.length fuel
          (start ++ quoteIdentifier backtick identifier).length := by
  have notBacktick : (dot :: tail).head? ≠ some backtick := by
    rw [head?_cons]
    decide
  rw [← append_nil start] at at_
  obtain ⟨named, reached, looped⟩ := at_.tokenLoop_quoted (.inl rfl) notBacktick
    start.length fuel
  rw [nil_append] at reached
  obtain ⟨later, stepped, moved⟩ := reached.next_eq stop
  refine ⟨later, by rw [← append_assoc]; exact moved, ?_⟩
  rw [head?_cons, if_pos rfl] at looped
  rw [looped, stepped, reached.offset_eq]
  simp only [if_pos (moved.valid_iff.mpr some_)]

variable {lexeme : Lexeme}

/-- The first character of a lexeme is no space, and the iterator stops at it. -/
theorem Lexeme.Fits.starts (fits : lexeme.Fits hint gap rest) :
    stops hint (lexeme.text ++ (gapText gap ++ rest)) = true ∧
      ∃ chr tail, lexeme.text = chr :: tail ∧ isSpace chr = false := by
  cases lexeme with
  | run chars =>
    obtain ⟨all, calm, last, isLast, -⟩ := fits
    cases chars with
    | nil => cases isLast
    | cons chr chars =>
      refine ⟨calm 0 (by simp), chr, chars, rfl, ?_⟩
      have isRun : isRunChar chr = true := all_eq_true.mp all chr mem_cons_self
      simp only [isRunChar, decide_eq_true_eq] at isRun
      simpa using isRun.1
  | punctuation chr =>
    obtain ⟨calm, notSpace⟩ := isCalm_of_isPunctuation chr fits
    exact ⟨stops_of_isCalm calm _ _, chr, [], rfl, notSpace⟩
  | string quote body =>
    rcases fits.1 with rfl | rfl
    · exact ⟨stops_of_isCalm (by decide) _ _, _, _, rfl, by decide⟩
    · exact ⟨stops_of_isCalm (by decide) _ _, _, _, rfl, by decide⟩
  | name _ | member _ _ | everyMember _ =>
    exact ⟨stops_of_isCalm (by decide) _ _, _, _, rfl, by decide⟩

section

variable (skipped : it.skipSpaces it.rest.length = .ok there)

include skipped

theorem nextToken_loop {tail : Bytes} (skip : there.skipQuoted = false)
    (text : there.rest = chr :: tail)
    (other : chr ≠ Chr.quote ∧ chr ≠ doubleQuote ∧ chr ≠ dollar) :
    it.nextToken = there.tokenLoop there.offset (there.rest.length + 1) there.offset := by
  unfold nextToken
  simp only [skipped, text, skip, Bool.false_eq_true, if_false, other.1, other.2.1, other.2.2,
    false_and]

theorem nextToken_string {tail : Bytes} (skip : there.skipQuoted = false)
    (text : there.rest = quote :: tail)
    (isQuote : quote = Chr.quote ∨ quote = doubleQuote) {count : Nat}
    (span : spanStringBody quote tail = some count) :
    it.nextToken =
      .ok (there.substring there.offset (there.offset + (count + 1)),
        { there with offset := there.offset + (count + 1) }) := by
  unfold nextToken
  rcases isQuote with rfl | rfl
  · simp only [skipped, text, skip, Bool.false_eq_true, if_false, if_true, spanQuotedStringSq,
      spanQuotedString, tail_cons, span, map_some, getD_some]
    rfl
  · simp only [skipped, text, skip, Bool.false_eq_true, if_false, if_true, spanQuotedStringDq,
      spanQuotedString, tail_cons, span, map_some, getD_some]
    rfl

/-- A token that begins with neither a quote nor a dollar sign. -/
theorem At.nextToken_loop (at_ : At there hint start (chr :: token))
    (other : chr ≠ Chr.quote ∧ chr ≠ doubleQuote ∧ chr ≠ dollar) :
    it.nextToken = there.tokenLoop start.length (token.length + 1 + 1) start.length := by
  rw [Sql.nextToken_loop skipped at_.skip_eq at_.rest_eq other, at_.offset_eq, at_.rest_eq,
    length_cons]

theorem At.nextToken_run {chars : Bytes}
    (at_ : At there hint start (chars ++ (gapText gap ++ rest)))
    (fits : (Lexeme.run chars).Fits hint gap rest) (gapFits : GapFits hint gap)
    (stop : stops (gapState hint gap) rest = true) :
    ∃ later, it.nextToken = .ok (chars, later) ∧ InGap later hint (start ++ chars) gap rest := by
  obtain ⟨all, calm, last, isLast, followed⟩ := fits
  obtain ⟨front, rfl⟩ := getLast?_eq_some_iff.mp isLast
  obtain ⟨first, more, split⟩ := exists_cons_of_ne_nil
    (append_ne_nil_of_right_ne_nil front (cons_ne_nil last []))
  have isRun : isRunChar first = true := by
    rw [split] at all
    exact all_eq_true.mp all first mem_cons_self
  have begins := calm 0 (by rw [split]; exact Nat.succ_pos _)
  rw [drop_zero, split] at begins
  simp only [isRunChar, stops, cons_append, decide_eq_true_eq] at isRun begins
  have text : At there hint start (first :: (more ++ (gapText gap ++ rest))) := by
    rw [← cons_append, ← split]
    exact at_
  rw [text.nextToken_loop skipped ⟨isRun.2.2.1, isRun.2.2.2.1, begins.2.1⟩]
  rw [← append_nil start] at at_
  rw [length_append, length_singleton] at calm
  have lengths := congrArg List.length split
  rw [length_append, length_singleton, length_cons] at lengths
  have enough : front.length + 1 < (more ++ (gapText gap ++ rest)).length + 1 + 1 := by
    rw [length_append]
    omega
  have near : (start ++ []).length ≤ start.length + 1 := by simp
  exact at_.tokenLoop_chars all calm gapFits stop followed near enough

theorem At.nextToken_string {body : Bytes}
    (at_ : At there hint start ((Lexeme.string quote body).text ++ (gapText gap ++ rest)))
    (fits : (Lexeme.string quote body).Fits hint gap rest) (gapFits : GapFits hint gap) :
    ∃ later, it.nextToken = .ok ((Lexeme.string quote body).text, later) ∧
      InGap later hint (start ++ (Lexeme.string quote body).text) gap rest := by
  obtain ⟨isQuote, formed, blank⟩ := fits
  have notEscape : quote ≠ backslash := by
    rcases isQuote with rfl | rfl <;> decide
  have span := spanStringBody_eq formed notEscape (gapText gap ++ rest)
  have text : there.rest = quote :: (body ++ quote :: (gapText gap ++ rest)) := by
    rw [at_.rest_eq]
    simp [Lexeme.text]
  have length : start.length + (body.length + 1 + 1) =
      start.length + (Lexeme.string quote body).text.length := by
    simp [Lexeme.text]
  have next_eq := Sql.nextToken_string skipped at_.skip_eq text isQuote span
  rw [at_.offset_eq, substring_eq at_.text_eq length] at next_eq
  exact ⟨_, next_eq, (at_.moved length).inGap gapFits blank⟩

/-- The token at a lexeme. -/
theorem At.nextToken_lexeme (at_ : At there hint start (lexeme.text ++ (gapText gap ++ rest)))
    (fits : lexeme.Fits hint gap rest) (gapFits : GapFits hint gap)
      (stop : stops (gapState hint gap) rest = true) :
    ∃ later, it.nextToken = .ok (lexeme.text, later) ∧
      InGap later hint (start ++ lexeme.text) gap rest := by
  cases lexeme with
  | run chars => exact at_.nextToken_run skipped fits gapFits stop
  | punctuation mark =>
    have other : mark ≠ Chr.quote ∧ mark ≠ doubleQuote ∧ mark ≠ dollar := by
      refine ⟨?_, ?_, ?_⟩ <;> rintro rfl <;> cases (fits : isPunctuation _ = true)
    have text : At there hint start (mark :: (gapText gap ++ rest)) := at_
    obtain ⟨later, stepped, inGap⟩ := text.next_inGap gapFits stop
    have token_eq : there.substring start.length (start.length + 1) = [mark] :=
      substring_eq at_.text_eq rfl
    refine ⟨later, ?_, inGap⟩
    rw [text.nextToken_loop skipped other,
      tokenLoop_ends text.rest_eq at_.skip_eq (.inl fits), endToken,
      if_pos at_.offset_eq, stepped, token_eq]
    rfl
  | string quote body => exact at_.nextToken_string skipped fits gapFits
  | name identifier =>
    rw [At.nextToken_loop skipped at_ ⟨by decide, by decide, by decide⟩]
    rw [← append_nil start] at at_
    exact at_.tokenLoop_name (.inl rfl) gapFits fits _ _
  | member owner part =>
    have text : At there hint start (quoteIdentifier backtick owner ++
        dot :: (quoteIdentifier backtick part ++ (gapText gap ++ rest))) := by
      simpa [Lexeme.text] using at_
    obtain ⟨later, reached, looped⟩ :=
      text.tokenLoop_dot (stops_of_isCalm (by decide) _ _) (by simp [quoteIdentifier]) _
    rw [At.nextToken_loop skipped text ⟨by decide, by decide, by decide⟩, looped]
    obtain ⟨final, named, inGap⟩ := reached.tokenLoop_name (.inr (by simp)) gapFits fits _ _
    refine ⟨final, ?_, ?_⟩
    · rw [named]
      simp [Lexeme.text]
    · simpa [Lexeme.text] using inGap
  | everyMember owner =>
    obtain ⟨calm, followed⟩ := fits
    have text : At there hint start (quoteIdentifier backtick owner ++
        dot :: (Chr.star :: (gapText gap ++ rest))) := by
      simpa [Lexeme.text] using at_
    let left := (quoteIdentifier backtick owner).tail ++ dot :: (Chr.star :: (gapText gap ++ rest))
    obtain ⟨later, reached, looped⟩ := text.tokenLoop_dot calm (cons_ne_nil _ _) (left.length + 1)
    have next_eq := (At.nextToken_loop skipped text ⟨by decide, by decide, by decide⟩).trans looped
    have reached' : At later hint (start ++ (quoteIdentifier backtick owner ++ [dot]))
        ([] ++ [Chr.star] ++ (gapText gap ++ rest)) := reached
    have near : (start ++ (quoteIdentifier backtick owner ++ [dot])).length ≤
        (start ++ quoteIdentifier backtick owner).length + 1 := by
      simp only [length_append, length_singleton]
      omega
    have enough : ([] : Bytes).length + 1 < left.length + 1 := by
      simp only [left, length_append, length_cons, length_nil]
      omega
    obtain ⟨final, ended, inGap⟩ := reached'.tokenLoop_chars (by decide) (by simpa using calm)
      gapFits stop followed near enough
    refine ⟨final, ?_, ?_⟩
    · rw [next_eq, ended]
      simp [Lexeme.text]
    · simpa [Lexeme.text] using inGap

end

/-- The next token is the next lexeme, and the iterator is in the gap behind it then. -/
theorem InGap.nextToken {after : List GapPart}
    (inGap : InGap it hint before gap (lexeme.text ++ (gapText after ++ rest)))
    (fits : lexeme.Fits (gapState hint gap) after rest)
    (afterFits : GapFits (gapState hint gap) after)
    (stop : stops (gapState (gapState hint gap) after) rest = true) :
    ∃ later, it.nextToken = .ok (lexeme.text, later) ∧
      InGap later (gapState hint gap) (before ++ gapText gap ++ lexeme.text) after rest := by
  obtain ⟨lexemeStop, chr, tail, text, notSpace⟩ := fits.starts
  obtain ⟨there, skipped, at_⟩ := inGap.skipSpaces lexemeStop (by
    rw [text, cons_append]
    rintro other same
    exact some.inj same ▸ notSpace)
  exact at_.nextToken_lexeme skipped fits afterFits stop

end

/-! ## Well-formed text -/

structure Piece where
  gap : List GapPart
  lexeme : Lexeme
deriving DecidableEq, Repr

/-- The gap in front of the first piece, or the last gap. -/
def firstGap : List Piece → List GapPart → List GapPart
  | [], last => last
  | piece :: _, _ => piece.gap

def piecesText (pieces : List Piece) (last : List GapPart) : Bytes :=
  pieces.flatMap (fun piece => gapText piece.gap ++ piece.lexeme.text) ++ gapText last

def behindGap : List Piece → List GapPart → Bytes
  | [], _ => []
  | piece :: pieces, last => piece.lexeme.text ++ piecesText pieces last

theorem piecesText_eq (pieces : List Piece) (last : List GapPart) :
    piecesText pieces last = gapText (firstGap pieces last) ++ behindGap pieces last := by
  cases pieces with
  | nil => simp [piecesText, firstGap, behindGap]
  | cons piece pieces => simp [piecesText, firstGap, behindGap]

/-- Every gap and every lexeme can stand where it is. -/
def Formed : Bool → List Piece → List GapPart → Prop
  | hint, [], last => GapFits hint last
  | hint, piece :: pieces, last =>
    GapFits hint piece.gap ∧
      piece.lexeme.Fits (gapState hint piece.gap) (firstGap pieces last)
        (behindGap pieces last) ∧
      Formed (gapState hint piece.gap) pieces last

instance Formed.decidable : (hint : Bool) → (pieces : List Piece) → (last : List GapPart) →
    Decidable (Formed hint pieces last)
  | hint, [], last => inferInstanceAs (Decidable (GapFits hint last))
  | hint, piece :: pieces, last =>
    have := Formed.decidable (gapState hint piece.gap) pieces last
    inferInstanceAs (Decidable (GapFits hint piece.gap ∧
      piece.lexeme.Fits (gapState hint piece.gap) (firstGap pieces last)
        (behindGap pieces last) ∧ Formed (gapState hint piece.gap) pieces last))

/-- The iterator is in front of the pieces. -/
structure Reads (it : SqlIterator) (hint : Bool) (before : Bytes) (pieces : List Piece)
    (last : List GapPart) : Prop where
  formed : Formed hint pieces last
  inGap : InGap it hint before (firstGap pieces last) (behindGap pieces last)

section

variable {it : SqlIterator} {hint : Bool} {before : Bytes} {pieces : List Piece}
  {last : List GapPart}

theorem Formed.gapFits (formed : Formed hint pieces last) :
    GapFits hint (firstGap pieces last) := by
  cases pieces with
  | nil => exact formed
  | cons piece pieces => exact formed.1

theorem Formed.stop (formed : Formed hint pieces last) :
    stops (gapState hint (firstGap pieces last)) (behindGap pieces last) = true := by
  cases pieces with
  | nil => rfl
  | cons piece pieces =>
    rw [behindGap, piecesText_eq]
    exact formed.2.1.starts.1

theorem Reads.text_eq (reads : Reads it hint before pieces last) :
    it.text = before ++ piecesText pieces last := by
  obtain ⟨-, skipped, left, split, -, -, at_⟩ := reads.inGap
  rw [at_.text_eq, piecesText_eq, split, gapText_append]
  simp only [append_assoc]

/-- The next token is the first lexeme. -/
theorem Reads.nextToken {piece : Piece} (reads : Reads it hint before (piece :: pieces) last) :
    ∃ later, it.nextToken = .ok (piece.lexeme.text, later) ∧
      Reads later (gapState hint piece.gap) (before ++ gapText piece.gap ++ piece.lexeme.text)
        pieces last := by
  obtain ⟨⟨-, fits, formed⟩, inGap⟩ := reads
  rw [behindGap, piecesText_eq] at inGap
  obtain ⟨later, next_eq, reached⟩ := inGap.nextToken fits formed.gapFits formed.stop
  exact ⟨later, next_eq, formed, reached⟩

/-- There is no token behind the last lexeme. -/
theorem Reads.nextToken_nil (reads : Reads it hint before [] last) :
    ∃ later, it.nextToken = .ok ([], later) ∧
      Reads later (gapState hint last) (before ++ gapText last) [] [] := by
  obtain ⟨formed, inGap⟩ := reads
  obtain ⟨later, skipped, at_⟩ := inGap.skipSpaces formed.stop (by simp [behindGap])
  refine ⟨later, ?_, trivial, ?_⟩
  · unfold SqlIterator.nextToken
    simp only [skipped, at_.rest_eq, behindGap]
  · exact At.inGap at_ trivial rfl

theorem Reads.valid {piece : Piece} (reads : Reads it hint before (piece :: pieces) last) :
    it.valid = true := by
  obtain ⟨-, skipped, left, -, -, -, at_⟩ := reads.inGap
  obtain ⟨-, chr, tail, text, -⟩ := reads.formed.2.1.starts
  rw [at_.valid_iff, behindGap, text]
  simp

theorem Reads.not_valid (reads : Reads it hint before [] []) : it.valid = false := by
  obtain ⟨-, skipped, left, split, -, -, at_⟩ := reads.inGap
  obtain ⟨rfl, rfl⟩ := append_eq_nil_iff.mp split.symm
  rw [← Bool.not_eq_true, at_.valid_iff]
  simp [gapText, behindGap]

/-- The iterator is directly behind the last token, unless a comment follows it. -/
theorem Reads.offset_eq (reads : Reads it hint before pieces last)
    (blank : (firstGap pieces last).head?.all GapPart.isBlank = true) :
    it.offset = before.length := by
  obtain ⟨-, skipped, left, -, first, -, at_⟩ := reads.inGap
  rw [at_.offset_eq, first blank]
  simp [gapText]

theorem Formed.length_le (formed : Formed hint pieces last) :
    pieces.length ≤ (piecesText pieces last).length := by
  induction pieces generalizing hint with
  | nil => exact Nat.zero_le _
  | cons piece pieces ih =>
    obtain ⟨-, chr, tail, text, -⟩ := formed.2.1.starts
    have rest := ih formed.2.2
    simp only [piecesText, flatMap_cons, length_append, length_cons, text]
      at rest ⊢
    omega

/-- The iterator at the beginning of well-formed text. -/
theorem create_reads (formed : Formed false pieces last) (dollarQuotes : Bool) :
    ∃ it, create (piecesText pieces last) 0 false dollarQuotes = .ok it ∧
      Reads it false [] pieces last := by
  let it : SqlIterator :=
    { text := piecesText pieces last, offset := 0, skipQuoted := false, dollarQuotes }
  have at_ : At it false [] (gapText (firstGap pieces last) ++ behindGap pieces last) :=
    ⟨piecesText_eq pieces last, rfl, rfl, rfl⟩
  have enough : (gapText (firstGap pieces last)).length ≤ (piecesText pieces last).length + 1 := by
    rw [piecesText_eq, length_append]
    omega
  obtain ⟨later, settled, inGap⟩ := at_.settle_gap formed.gapFits formed.stop enough
  exact ⟨later, settled, formed, inGap⟩

/-- The tokens up to the first empty one, which is the end of the text. -/
def tokens : Nat → SqlIterator → Except LexError (List Bytes)
  | 0, _ => .ok []
  | fuel + 1, it =>
    match it.nextToken with
    | .error error => .error error
    | .ok ([], _) => .ok []
    | .ok (token, later) => (tokens fuel later).map (token :: ·)

def tokensOf (dollarQuotes : Bool) (text : Bytes) : Except LexError (List Bytes) :=
  create text 0 false dollarQuotes >>= tokens (text.length + 1)

theorem Reads.tokens_eq {fuel : Nat} (reads : Reads it hint before pieces last)
    (enough : pieces.length < fuel) : tokens fuel it = .ok (pieces.map (·.lexeme.text)) := by
  induction fuel generalizing it hint before pieces with
  | zero => cases enough
  | succ fuel ih =>
    cases pieces with
    | nil =>
      obtain ⟨later, ended, -⟩ := reads.nextToken_nil
      rw [tokens, ended]
      rfl
    | cons piece pieces =>
      obtain ⟨later, read, behind⟩ := reads.nextToken
      obtain ⟨-, chr, tail, text, -⟩ := reads.formed.2.1.starts
      rw [tokens, read, map_cons, text]
      dsimp only
      rw [ih behind (Nat.lt_of_succ_lt_succ enough)]
      rfl

/-- Well-formed text is read as its lexemes, inside of conditional comments, too. -/
theorem tokensOf_formed (formed : Formed false pieces last) (dollarQuotes : Bool) :
    tokensOf dollarQuotes (piecesText pieces last) = .ok (pieces.map (·.lexeme.text)) := by
  obtain ⟨it, created, reads⟩ := create_reads formed dollarQuotes
  rw [tokensOf, created]
  exact reads.tokens_eq (Nat.lt_succ_of_le formed.length_le)

/-! ## Quoted values -/

theorem isStringBody_escapeSqlString (text : Bytes) :
    isStringBody Chr.quote (escapeSqlString Chr.quote false false text) = true := by
  induction text with
  | nil => rfl
  | cons chr text ih =>
    rw [escapeSqlString, flatMap_cons, ← escapeSqlString, escapeSqlChar]
    generalize escapeSqlString Chr.quote false false text = rest at ih ⊢
    have plain : chr ≠ Chr.quote → chr ≠ backslash →
        isStringBody Chr.quote (chr :: rest) = true := by
      cases rest <;> simp_all [isStringBody]
    split_ifs <;> first | exact ih | contradiction | exact plain (by simp_all) (by simp_all)

variable {gap : List GapPart} {body other : Bytes} {front back : List Piece}

/-- What stands behind a quote does not matter to the lexemes in front of it. -/
theorem Lexeme.Fits.quote_append {lexeme : Lexeme} {before first : Bytes}
    (fits : lexeme.Fits hint gap (before ++ Chr.quote :: first)) (second : Bytes) :
    lexeme.Fits hint gap (before ++ Chr.quote :: second) := by
  have head_eq : (before ++ Chr.quote :: first).head? = (before ++ Chr.quote :: second).head? := by
    cases before <;> rfl
  have stop (text : Bytes) : stops hint (text ++ (gapText gap ++ (before ++ Chr.quote :: first))) =
      stops hint (text ++ (gapText gap ++ (before ++ Chr.quote :: second))) := by
    simp only [← append_assoc]
    obtain _ | ⟨_, _ | ⟨_, _ | _⟩⟩ := text ++ gapText gap ++ before <;>
      simp [stops, show Chr.quote ≠ Chr.minus by decide, show Chr.quote ≠ Chr.slash by decide,
        show Chr.quote ≠ Chr.star by decide]
  cases lexeme with
  | run => exact ⟨fits.1, fun index within => stop _ ▸ fits.2.1 index within, head_eq ▸ fits.2.2⟩
  | punctuation | string => exact fits
  | name | member => exact ⟨fits.1, head_eq ▸ fits.2⟩
  | everyMember => exact ⟨stop [Chr.star] ▸ fits.1, head_eq ▸ fits.2⟩

theorem piecesText_string (front back : List Piece) :
    piecesText (front ++ ⟨gap, .string Chr.quote body⟩ :: back) last =
      piecesText front gap ++ Chr.quote :: (body ++ Chr.quote :: piecesText back last) := by
  simp [piecesText, Lexeme.text]

theorem Formed.requote (formed : Formed hint (front ++ ⟨gap, .string Chr.quote body⟩ :: back) last)
    (isBody : isStringBody Chr.quote other = true) :
    Formed hint (front ++ ⟨gap, .string Chr.quote other⟩ :: back) last := by
  induction front generalizing hint with
  | nil => exact ⟨formed.1, ⟨formed.2.1.1, isBody, formed.2.1.2.2⟩, formed.2.2⟩
  | cons piece front ih =>
    refine ⟨formed.1, ?_, ih formed.2.2⟩
    have fits := formed.2.1
    cases front with
    | nil => exact @Lexeme.Fits.quote_append _ _ _ [] _ fits _
    | cons next front =>
      change Lexeme.Fits _ _ (next.lexeme.text ++ piecesText (front ++ _) last) _ at fits ⊢
      rw [piecesText_string, ← append_assoc] at fits ⊢
      exact fits.quote_append _

/--
Whatever value is quoted into a statement, the iterator reads the same tokens, with the
quoted value as one of them.
-/
theorem tokensOf_quoteSqlString (dollarQuotes : Bool) (value : Bytes)
    (formed : Formed false (front ++ ⟨gap, .string Chr.quote body⟩ :: back) last) :
    tokensOf dollarQuotes (piecesText front gap ++ quoteSqlString value ++ piecesText back last) =
      .ok (front.map (·.lexeme.text) ++ quoteSqlString value :: back.map (·.lexeme.text)) := by
  have read := tokensOf_formed (formed.requote (isStringBody_escapeSqlString value)) dollarQuotes
  rw [piecesText_string] at read
  simpa [quoteSqlString, Lexeme.text] using read

/-- `a/*!5 '\'b' */`. -/
theorem tokensOf_quoteSqlString_conditional :
    tokensOf true (ascii "a/*!5 '\\'b' */".toList) =
      .ok [ascii ['a'], ascii "'\\'b'".toList] :=
  @tokensOf_quoteSqlString [.space 32, .leave] [.enter 33 (ascii ['5']), .space 32] []
    [⟨[], .run (ascii ['a'])⟩] [] true (ascii "'b".toList) (by decide)

end

end MariadbShell.Sql
