import MariadbShell.Uri.PercentCode

/-!
# Quoted and percent-encoded strings

`unquote_string` undoes the two kinds of escapes of `quote_string` in two passes over the
whole string, and not in one scan. `pctdecode` compares positions with the length less three,
which wraps around for short strings.
-/

namespace MariadbShell.Utils

open List
open ImportTable (Bytes ascii)
open Lib.Search Sql Chr Uri

/-! ## Replacing -/

/-- The loop of `str_replace` over the rest of the text behind `start`. -/
def replaceRest (from_ to_ : Bytes) : Nat → Bytes → Bytes
  | 0, _ => []
  | fuel + 1, text =>
    match find from_ text 0 with
    | none => text
    | some found =>
      text.take found ++ to_ ++ replaceRest from_ to_ fuel (text.drop (found + from_.length))

def strReplace (text from_ to_ : Bytes) : Bytes :=
  if from_ = [] then to_ ++ text.flatMap fun chr => chr :: to_
  else replaceRest from_ to_ (text.length + 1) text

/-- The leftmost occurrences of the pattern in the text are replaced. -/
inductive Replaced (from_ to_ : Bytes) : Bytes → Bytes → Prop
  | nil : Replaced from_ to_ [] []
  | keep {chr : UInt8} {text result : Bytes} (absent : ¬ from_ <+: chr :: text)
      (rest : Replaced from_ to_ text result) : Replaced from_ to_ (chr :: text) (chr :: result)
  | replace {text result : Bytes} (rest : Replaced from_ to_ text result) :
      Replaced from_ to_ (from_ ++ text) (to_ ++ result)

variable {from_ to_ text result : Bytes} {chr : UInt8}

theorem Replaced.skip {first : UInt8} {others : Bytes} (differs : chr ≠ first)
    (rest : Replaced (first :: others) to_ text result) :
    Replaced (first :: others) to_ (chr :: text) (chr :: result) :=
  .keep (fun starts => differs (cons_prefix_cons.mp starts).1.symm) rest

theorem findFrom_cons (count start : Nat) :
    findFrom from_ (chr :: text) count (start + 1) =
      (findFrom from_ text count start).map (· + 1) := by
  induction count generalizing start with
  | zero => rfl
  | succ count ih =>
    have shift : OccursAt from_ (chr :: text) (start + 1) ↔ OccursAt from_ text start := Iff.rfl
    rw [findFrom, findFrom, ih]
    simp only [shift]
    split <;> rfl

theorem Replaced.replaceRest_eq (replaced : Replaced from_ to_ text result)
    (nonempty : from_ ≠ []) {fuel : Nat} (enough : text.length ≤ fuel) :
    replaceRest from_ to_ (fuel + 1) text = result := by
  induction replaced generalizing fuel with
  | nil => rfl
  | @keep chr text result absent _ ih =>
    have shifted : find from_ (chr :: text) 0 = (find from_ text 0).map (· + 1) := by
      have missed : ¬ OccursAt from_ (chr :: text) 0 := absent
      rw [find, length_cons, Nat.sub_zero, findFrom, if_neg missed, findFrom_cons]
      rfl
    have rest := ih (Nat.le_of_succ_le enough)
    rw [replaceRest] at rest ⊢
    rw [shifted, ← rest]
    cases find from_ text 0 with
    | none => rfl
    | some found =>
      rw [Option.map_some]
      dsimp only
      rw [Nat.add_right_comm]
      rfl
  | @replace text result _ ih =>
    have here : find from_ (from_ ++ text) 0 = some 0 :=
      find_eq_some nonempty (prefix_append _ _) (Nat.zero_le _)
        fun _ _ before => absurd before (Nat.not_lt_zero _)
    have positive := length_pos_of_ne_nil nonempty
    rw [length_append] at enough
    obtain ⟨fuel, rfl⟩ : ∃ rest, fuel = rest + 1 := ⟨fuel - 1, by omega⟩
    rw [replaceRest, here]
    dsimp only
    rw [Nat.zero_add, drop_left, ih (by omega)]
    rfl

theorem Replaced.strReplace_eq (replaced : Replaced from_ to_ text result)
    (nonempty : from_ ≠ []) : strReplace text from_ to_ = result := by
  rw [strReplace, if_neg nonempty, replaced.replaceRest_eq nonempty (Nat.le_refl _)]

/-- A single character is replaced wherever it stands. -/
theorem strReplace_singleton (text to_ : Bytes) (chr : UInt8) :
    strReplace text [chr] to_ = text.flatMap fun other => if other = chr then to_ else [other] := by
  refine Replaced.strReplace_eq ?_ (cons_ne_nil _ _)
  induction text with
  | nil => exact .nil
  | cons chr text ih =>
    rw [flatMap_cons]
    split
    · next same =>
      rw [same]
      exact .replace ih
    · next other => exact .skip other ih

/-! ## Quoting -/

def quoteString (text : Bytes) (quote : UInt8) : Bytes :=
  let escaped := strReplace (strReplace text [backslash] [backslash, backslash]) [quote]
    [backslash, quote]
  [quote] ++ escaped ++ [quote]

def unquoteString (text : Bytes) (quote : UInt8) : Bytes :=
  let inner :=
    if 2 ≤ text.length ∧ text.head? = some quote ∧ text.getLast? = some quote then
      (text.drop 1).take (text.length - 2)
    else text
  strReplace (strReplace inner [backslash, quote] [quote]) [backslash, backslash] [backslash]

/-- Backslashes are doubled. -/
def doubled (text : Bytes) : Bytes :=
  text.flatMap fun chr => if chr = backslash then [backslash, backslash] else [chr]

/-- What is written for a text between its quotes. -/
def escaped (quote : UInt8) (text : Bytes) : Bytes :=
  (doubled text).flatMap fun chr => if chr = quote then [backslash, quote] else [chr]

section

variable {quote : UInt8} (other : quote ≠ backslash)

include other

theorem escaped_cons (chr : UInt8) (text : Bytes) :
    escaped quote (chr :: text) =
      (if chr = backslash then [backslash, backslash]
        else if chr = quote then [backslash, quote] else [chr]) ++ escaped quote text := by
  unfold escaped doubled
  rw [flatMap_cons, flatMap_append]
  congr 1
  split
  · simp [other.symm]
  · simp

/-- No quote stands without a backslash. -/
theorem head_escaped (text : Bytes) : (escaped quote text).head? ≠ some quote := by
  cases text with
  | nil => exact nofun
  | cons chr text =>
    rw [escaped_cons other]
    split
    · simpa using other.symm
    split
    · simpa using other.symm
    · next plain => simpa using plain

/--
The first pass leaves the doubled backslashes: only the second one of a pair could escape a
quote, and no quote follows it.
-/
theorem replaced_quotes (text : Bytes) :
    Replaced [backslash, quote] [quote] (escaped quote text) (doubled text) := by
  induction text with
  | nil => exact .nil
  | cons chr text ih =>
    rw [escaped_cons other, doubled, flatMap_cons]
    split
    · refine .keep (fun starts => ?_) (.keep (fun starts => ?_) ih)
      · exact other (cons_prefix_cons.mp (cons_prefix_cons.mp starts).2).1
      · obtain ⟨rest, split⟩ := (cons_prefix_cons.mp starts).2
        exact head_escaped other text (congrArg head? split).symm
    · next plain =>
      split
      · next same =>
        rw [same]
        exact .replace ih
      · exact .skip plain ih

omit other in
theorem replaced_backslashes (text : Bytes) :
    Replaced [backslash, backslash] [backslash] (doubled text) text := by
  induction text with
  | nil => exact .nil
  | cons chr text ih =>
    rw [doubled, flatMap_cons]
    split
    · next same =>
      rw [same]
      exact .replace ih
    · next plain => exact .skip plain ih

/-- A quoted string is read back, whatever it holds. -/
theorem unquoteString_quoteString (text : Bytes) :
    unquoteString (quoteString text quote) quote = text := by
  have quoted : quoteString text quote = quote :: (escaped quote text ++ [quote]) := by
    rw [quoteString, strReplace_singleton, strReplace_singleton]
    rfl
  have stripped : ((quote :: (escaped quote text ++ [quote])).drop 1).take
      ((quote :: (escaped quote text ++ [quote])).length - 2) = escaped quote text := by
    simp
  rw [quoted, unquoteString, if_pos ⟨by simp, rfl, by rw [← cons_append, getLast?_concat]⟩,
    stripped, (replaced_quotes other text).strReplace_eq (cons_ne_nil _ _),
    (replaced_backslashes text).strReplace_eq (cons_ne_nil _ _)]

end

/-- A backslash in front of a quote, and one at the end. -/
theorem unquoteString_quoteString_backslashes :
    unquoteString (quoteString (ascii ['\\', '"', '\\']) doubleQuote) doubleQuote =
      ascii ['\\', '"', '\\'] :=
  unquoteString_quoteString (by decide) _

/-! ## Percent-encoding -/

/-- `c - 3` in the type of a length. -/
def lastCodePosition (length : Nat) : Nat :=
  if length < 3 then length + 2 ^ 64 - 3 else length - 3

variable (text : Bytes)

/-- The condition in the loop of `pctdecode`; `none` if it reads a position outside of the text. -/
def isCodeAt (position : Nat) : Option Bool :=
  if position ≤ lastCodePosition text.length then
    text[position]?.bind fun chr =>
      if chr = percent then
        text[position + 1]?.bind fun high =>
          if high ∈ hexDigit then text[position + 2]?.map fun low => decide (low ∈ hexDigit)
          else some false
      else some false
  else some false

/-- The loop of `pctdecode`, with every position that it reads. -/
def pctdecodeFrom (text : Bytes) : Nat → Nat → Option Bytes
  | 0, _ => some []
  | fuel + 1, position =>
    if position < text.length then do
      if ← isCodeAt text position then
        let high ← text[position + 1]?
        let low ← text[position + 2]?
        let rest ← pctdecodeFrom text fuel (position + 3)
        pure ((hexValue high <<< 4 ||| hexValue low) :: rest)
      else
        let chr ← text[position]?
        let rest ← pctdecodeFrom text fuel (position + 1)
        pure (chr :: rest)
    else some []

/-- `pctdecode` on a view that ends where the text does. -/
def pctdecodeView : Option Bytes :=
  pctdecodeFrom text text.length 0

/-- The short texts whose last percent sign or code lacks a digit. -/
def EndsInCode : Prop :=
  text = [percent] ∨ ∃ chr, text = [chr, percent] ∨ text = [percent, chr] ∧ chr ∈ hexDigit

/-- With three characters or more, a position is compared before it is read. -/
theorem pctdecodeFrom_long {text : Bytes} (long : 3 ≤ text.length) {fuel position : Nat}
    (enough : text.length ≤ position + fuel) :
    pctdecodeFrom text fuel position = some (pctdecode (text.drop position)) := by
  have last : lastCodePosition text.length = text.length - 3 := if_neg (by omega)
  induction fuel generalizing position with
  | zero =>
    rw [drop_of_length_le (show text.length ≤ position from enough)]
    rfl
  | succ fuel ih =>
    have size : (text.drop position).length = text.length - position := length_drop
    have ahead : ∀ count, text[position + count]? = (text.drop position)[count]? :=
      fun _ => getElem?_drop.symm
    have here : text[position]? = (text.drop position)[0]? := ahead 0
    have later : ∀ count, text.length ≤ position + count + fuel →
        pctdecodeFrom text fuel (position + count) =
          some (pctdecode ((text.drop position).drop count)) := by
      intro count enough
      rw [ih enough, drop_drop]
    rw [pctdecodeFrom, isCodeAt, last, here, ahead, ahead, later 1 (by omega)]
    match split : text.drop position with
    | [] =>
      rw [split, length_nil] at size
      rw [if_neg (by omega)]
      rfl
    | [chr] | [chr, _] =>
      rw [split] at size
      rw [if_pos (by simp at size; omega), if_neg (by simp at size; omega)]
      rfl
    | chr :: high :: low :: rest =>
      rw [split] at size
      simp only [length_cons] at size
      rw [if_pos (by omega), if_pos (by omega), later 3 (by omega), split]
      have condition : (if chr = percent then
          if high ∈ hexDigit then some (decide (low ∈ hexDigit)) else some false
          else some false) = some (decide (chr = percent ∧ high ∈ hexDigit ∧ low ∈ hexDigit)) := by
        grind
      rw [pctdecode]
      simp only [getElem?_cons_zero, getElem?_cons_succ, Option.bind_some, Option.map_some,
        condition]
      by_cases code : chr = percent ∧ high ∈ hexDigit ∧ low ∈ hexDigit
      · rw [if_pos code, decide_eq_true code]
        rfl
      · rw [if_neg code, decide_eq_false code]
        rfl

/-- A short text is read behind its end if a code could begin in it. -/
theorem pctdecodeView_cases :
    EndsInCode text ∧ pctdecodeView text = none ∨
      ¬ EndsInCode text ∧ pctdecodeView text = some (pctdecode text) := by
  have noDigit : percent ∉ hexDigit := by decide
  unfold pctdecodeView EndsInCode
  match text with
  | [] => simp [pctdecodeFrom, pctdecode]
  | [chr] =>
    by_cases sign : chr = percent <;>
      simp [pctdecodeFrom, isCodeAt, lastCodePosition, pctdecode, sign]
  | [chr, other] =>
    by_cases sign : chr = percent <;> by_cases last : other = percent <;>
      by_cases code : other ∈ hexDigit <;>
      simp_all [pctdecodeFrom, isCodeAt, lastCodePosition, pctdecode]
  | chr :: other :: third :: rest =>
    rw [pctdecodeFrom_long (by simp) (by simp)]
    simp

theorem percent_not_unreserved : percent ∉ unreserved := by
  decide +kernel

/-- Every percent sign that `pctencode` writes has its two digits. -/
theorem not_endsInCode_pctencode : ¬ EndsInCode (pctencode text) := by
  intro ends
  have facts : percent ∈ pctencode text ∧ (pctencode text).length ≤ 2 := by
    obtain same | ⟨chr, same | ⟨same, -⟩⟩ := ends <;> simp [same]
  obtain ⟨member, short⟩ := facts
  obtain ⟨chr, inside, code⟩ := mem_flatMap.mp member
  have long : (pctencodeChar chr).length = 3 := by
    unfold pctencodeChar at code ⊢
    split at code
    · next plain => exact absurd (mem_singleton.mp code ▸ plain) percent_not_unreserved
    · next reserved => rw [if_neg reserved]; rfl
  have part : pctencodeChar chr <+ pctencode text := sublist_flatten_of_mem (mem_map_of_mem inside)
  have := part.length_le
  omega

theorem pctdecode_pctencode : pctdecode (pctencode text) = text := by
  induction text with
  | nil => rfl
  | cons chr text ih =>
    rw [pctencode, flatMap_cons]
    change pctdecode (pctencodeChar chr ++ pctencode text) = chr :: text
    unfold pctencodeChar
    split
    · next plain =>
      have other : chr ≠ percent := fun same => percent_not_unreserved (same ▸ plain)
      have step (rest : Bytes) : pctdecode (chr :: rest) = chr :: pctdecode rest := by
        rcases rest with _ | ⟨_, _ | _⟩
        · rfl
        · rfl
        · simp [pctdecode, other]
      rw [singleton_append, step, ih]
    · obtain ⟨high, low, whole⟩ := nibbles chr
      obtain ⟨highHex, highValue⟩ := hexChar_of_lt high
      obtain ⟨lowHex, lowValue⟩ := hexChar_of_lt low
      simp [pctdecode, highHex, lowHex, highValue, lowValue, whole, ih]

/-- Decoding reads behind the end of some texts of one or two characters, and of no text that was
encoded. -/
theorem pctdecode_reads_and_decodes :
    (pctdecodeView text = none ↔ EndsInCode text) ∧ pctdecodeView (pctencode text) = some text := by
  constructor
  · obtain ⟨ends, none_⟩ | ⟨inside, some_⟩ := pctdecodeView_cases text
    · simp [ends, none_]
    · simp [inside, some_]
  · obtain ⟨ends, -⟩ | ⟨-, some_⟩ := pctdecodeView_cases (pctencode text)
    · exact absurd ends (not_endsInCode_pctencode text)
    · rw [some_, pctdecode_pctencode]

/-- A single percent sign. -/
theorem pctdecode_percent : pctdecodeView [percent] = none := by
  decide

end MariadbShell.Utils
