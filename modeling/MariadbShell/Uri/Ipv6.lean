import MariadbShell.Uri.HostNames

/-!
# IPv6 addresses

The text form of IPv6 addresses, and how the loop of `parse_ipv6` goes through it. The
loop alternates between a segment and a colon; a second colon in a row is allowed once.
-/

namespace MariadbShell.Uri

open List
open ImportTable (Bytes ascii)
open Lib.Decimal
open Sql TokenType Chr

set_option maxRecDepth 2000

/-! ## Text form -/

structure Segment where
  text : Bytes
  nonempty : text ≠ []
  short : text.length ≤ 4
  digits : ∀ chr ∈ text, chr ∈ hexDigit

/-- The last 32 bits of an address, written in decimal. -/
structure Ipv4Tail where
  first : Fin 256
  second : Fin 256
  third : Fin 256
  fourth : Fin 256

def Ipv4Tail.text (tail : Ipv4Tail) : Bytes :=
  decimal tail.first ++ [dot] ++ decimal tail.second ++ [dot] ++ decimal tail.third ++
    [dot] ++ decimal tail.fourth

def colons (parts : List Bytes) : Bytes :=
  [colon].intercalate parts

/-- An IPv6 address: `back` holds the segments behind `::`. -/
structure Ipv6Address where
  front : List Segment
  back : Option (List Segment)
  ipv4 : Option Ipv4Tail
  fits : match back with
    | none => front.length = if ipv4.isSome then 6 else 8
    | some back => front.length + back.length < if ipv4.isSome then 6 else 8

def lastParts (segments : List Segment) (ipv4 : Option Ipv4Tail) : List Bytes :=
  segments.map Segment.text ++ (ipv4.map Ipv4Tail.text).toList

def Ipv6Address.text (address : Ipv6Address) : Bytes :=
  match address.back with
  | none => colons (lastParts address.front address.ipv4)
  | some back =>
    colons (address.front.map Segment.text) ++ [colon, colon] ++
      colons (lastParts back address.ipv4)

theorem exists_cons_of_fits {front : List Segment} {ipv4 : Option Ipv4Tail}
    (fits : front.length = if ipv4.isSome then 6 else 8) :
    ∃ segment segments, front = segment :: segments := by
  refine exists_cons_of_ne_nil ?_
  rintro rfl
  cases ipv4 <;> cases fits

structure Ipv6Host where
  address : Ipv6Address
  zone : Option Bytes
  zoneNonempty : zone ≠ some []

def zoneText : Option Bytes → Bytes
  | some zone => percent :: zone
  | none => []

def Ipv6Host.text (host : Ipv6Host) : Bytes :=
  host.address.text ++ zoneText host.zone

/-- A zone without the characters that the parser refuses in it. -/
def Ipv6Host.Readable (host : Ipv6Host) : Prop :=
  ∀ zone ∈ host.zone, ∀ chr ∈ zone, chr ∉ subDelimiters ∧ chr ≠ colon

/-! ## Tokens -/

def ipv6Groups : List (TokenType × Bytes) :=
  [(.digits, digit), (.hexDigits, hexDigit), (.unreserved, unreserved)]

def ipv6Code (chr : UInt8) : TokenType :=
  if chr = percent then .zoneDelimiter else .pctEncoded

/-- The characters that stand for themselves and that the parser accepts in an address. -/
def ipv6Raw (chr : UInt8) : Bool :=
  hostRaw chr && chr ∉ subDelimiters

theorem ipv6Raw_eq (chr : UInt8) :
    ipv6Raw chr = decide (isAlnum chr = true ∨ chr ∈ marks ++ [colon]) := by
  have apart : ∀ chr ∈ subDelimiters, isAlnum chr = false ∧ chr ∉ marks ++ [colon] := by decide
  rw [ipv6Raw, hostRaw_eq, Bool.eq_iff_iff]
  by_cases member : chr ∈ subDelimiters
  · simp [member, apart chr member, - mem_append]
  · simp [member, - mem_append, - mem_cons]
    simp [member]

theorem ipv6Groups_free : ∀ chr ∈ [colon, 93], ∀ group ∈ ipv6Groups, chr ∉ group.2 := by
  simp only [ipv6Groups, forall_mem_cons, mem_digit, mem_hexDigit, mem_unreserved]
  exact ⟨by decide, by decide, nofun⟩

theorem isRaw_ipv6 {chr : UInt8} (stands : ipv6Raw chr = true) :
    isRaw parseIpv6Rules.simple ipv6Groups chr = true ∧ isSpace chr = false ∧ chr ≠ percent := by
  rw [ipv6Raw_eq, decide_eq_true_eq, mem_append, ← or_assoc, marks, ← mem_unreserved] at stands
  have last : (TokenType.unreserved, unreserved) ∈ ipv6Groups := by simp [ipv6Groups]
  obtain member | colon := stands
  · refine ⟨isRaw_of_mem last member, ?_⟩
    obtain alnum | mark := mem_unreserved.mp member
    · refine ⟨isSpace_of_isAlnum _ alnum, ?_⟩
      rintro rfl
      exact absurd alnum (by decide)
    · have all : ∀ chr ∈ marks, isSpace chr = false ∧ chr ≠ percent := by decide
      exact all chr mark
  · obtain rfl := mem_singleton.mp colon
    exact ⟨isRaw_iff.mpr (by simp [parseIpv6Rules]), by decide, by decide⟩

theorem hexChar_percent : ∀ chr : UInt8,
    hexChar (chr >>> 4) = 50 ∧ hexChar (chr &&& 15) = 53 ↔ chr = percent :=
  forall_byte (by decide +kernel)

theorem readsBack_ipv6 : ReadsBack parseIpv6Rules ipv6Groups ipv6Code ipv6Raw where
  readGroup := fun chr rest other => by
    have same := readComplex_sequences ipv6Groups chr rest
    rw [← same]
    simp only [parseIpv6Rules, ipv6Groups, pctEncodedRule, map_cons, map_nil,
      readComplex_sequence, readComplex_vector _ _ _ other]
  readCode := fun chr rest => by
    obtain ⟨high, low⟩ := hexChar_mem chr
    have noDigit : Chr.percent ∉ digit ∧ Chr.percent ∉ hexDigit ∧ Chr.percent ∉ unreserved := by
      rw [mem_digit, mem_hexDigit, mem_unreserved]
      decide
    simp only [parseIpv6Rules, pctCode, cons_append, readComplex_sequence, noDigit, if_false]
    rw [readComplex]
    by_cases percent : chr = Chr.percent
    · obtain ⟨two, five⟩ := (hexChar_percent chr).mpr percent
      simp [Pattern.count, matchesAll, two, five]
      rw [ipv6Code, if_pos percent]
    · have differs : ¬ (hexChar (chr >>> 4) = 50 ∧ hexChar (chr &&& 15) = 53) :=
        mt (hexChar_percent chr).mp percent
      simp [noDigit, readComplex, pctEncodedRule, Pattern.count, matchesAll,
        differs, high, low, ipv6Code, percent]
  percentComplex := by decide
  accepted := fun chr stands =>
    ⟨(isRaw_ipv6 stands).1, (isRaw_ipv6 stands).2.1, by simp [parseIpv6Rules],
      (isRaw_ipv6 stands).2.2⟩
  groupsPlain := by
    decide

def ipv6Tokens (text : Bytes) : List Token :=
  codedTokens parseIpv6Rules.simple ipv6Groups ipv6Code ipv6Raw 0 text

theorem hexDigit_plain : ∀ chr ∈ hexDigit,
    ipv6Raw chr = true ∧ chr ∉ parseIpv6Rules.simple ∧
      (groupOf ipv6Groups chr = some (.digits, digit) ∨
        groupOf ipv6Groups chr = some (.hexDigits, hexDigit)) := by
  intro chr member
  have alnum := isAlnum_of_hexDigit member
  have special : ∀ chr ∈ parseIpv6Rules.simple, isAlnum chr = false := by decide
  refine ⟨by simp [ipv6Raw_eq, alnum], fun simple => ?_, ?_⟩
  · rw [special chr simple] at alnum
    cases alnum
  · by_cases inner : chr ∈ digit
    · exact .inl (by simp [groupOf, ipv6Groups, inner])
    · exact .inr (by simp [groupOf, ipv6Groups, inner, member])

def SegmentTokens (tokens : List Token) : Prop :=
  ∀ token ∈ tokens, token.type = .digits ∨ token.type = .hexDigits

/-- The tokens of a run of hexadecimal digits. -/
theorem ipv6Tokens_hexDigits (run : Bytes) (digits : ∀ chr ∈ run, chr ∈ hexDigit) {rest : Bytes}
    (ends : ∀ chr ∈ rest.head?, chr ∉ hexDigit) :
    ∃ tokens, ipv6Tokens (run ++ rest) = tokens ++ ipv6Tokens rest ∧ SegmentTokens tokens ∧
      tokens.flatMap Token.text = run := by
  match run with
  | [] => exact ⟨[], rfl, by simp [SegmentTokens], rfl⟩
  | chr :: run =>
    obtain ⟨raw, complex, found⟩ := hexDigit_plain chr (digits chr mem_cons_self)
    obtain ⟨type, group, found, kind, inner⟩ : ∃ type group,
        groupOf ipv6Groups chr = some (type, group) ∧ (type = .digits ∨ type = .hexDigits) ∧
          group ⊆ hexDigit := by
      obtain found | found := found
      · exact ⟨_, _, found, .inl rfl, digit_subset⟩
      · exact ⟨_, _, found, .inr rfl, List.Subset.refl _⟩
    have taken : (run ++ rest).takeWhile (fun chr => ipv6Raw chr && chr ∈ group) =
        run.takeWhile (· ∈ group) := by
      have split := @takeWhile_append_dropWhile _ (· ∈ group) run
      conv_lhs => rw [← split, append_assoc]
      refine takeWhile_run (fun other inside => ?_) fun other head => ?_
      · have member : other ∈ group := by
          have holds := mem_takeWhile_imp inside
          exact of_decide_eq_true holds
        simp [(hexDigit_plain other (inner member)).1, member]
      · rw [Bool.and_eq_false_iff, decide_eq_false_iff_not]
        right
        cases left : run.dropWhile (· ∈ group) with
        | nil =>
          rw [left, nil_append] at head
          exact fun member => ends other head (inner member)
        | cons next others =>
          rw [left] at head
          cases head
          have kept := head?_dropWhile_not (· ∈ group) run
          simpa [left] using kept
    have shorter : (run.dropWhile (· ∈ group)).length < (chr :: run).length := by
      have bound := length_dropWhile_le (· ∈ group) run
      rw [length_cons]
      omega
    obtain ⟨tokens, same, segment, whole⟩ := ipv6Tokens_hexDigits (run.dropWhile (· ∈ group))
      (fun other member => digits other (mem_cons_of_mem _ (dropWhile_subset _ member))) ends
    refine ⟨⟨type, chr :: run.takeWhile (· ∈ group)⟩ :: tokens, ?_, ?_, ?_⟩
    · have skipped := codedTokens_skip parseIpv6Rules.simple ipv6Groups ipv6Code ipv6Raw
        (run.takeWhile (· ∈ group)) (run.dropWhile (· ∈ group) ++ rest)
      rw [← append_assoc, takeWhile_append_dropWhile] at skipped
      rw [ipv6Tokens, cons_append, codedTokens, if_neg (by simp [raw]), if_neg complex, found]
      simp only [taken, skipped]
      rw [← ipv6Tokens, same]
      rfl
    · exact forall_mem_cons.mpr ⟨kind, segment⟩
    · simp [whole, takeWhile_append_dropWhile]
termination_by run.length
decreasing_by exact shorter

theorem ipv6Tokens_decimal (number : Nat) {rest : Bytes} (ends : EndsDigits rest) :
    ipv6Tokens (decimal number ++ rest) = ⟨.digits, decimal number⟩ :: ipv6Tokens rest := by
  have plain : ∀ chr ∈ digit, ipv6Raw chr = true ∧ chr ∉ parseIpv6Rules.simple ∧
      groupOf ipv6Groups chr = some (.digits, digit) := by
    intro chr member
    obtain ⟨raw, complex, -⟩ := hexDigit_plain chr (digit_subset member)
    exact ⟨raw, complex, by simp [groupOf, ipv6Groups, member]⟩
  exact codedTokens_digits plain (decimal_ne_nil number)
    (fun _ member => isDigit_of_mem_decimal member) ends

theorem ipv6Tokens_nil : ipv6Tokens [] = [] := rfl

theorem ipv6Tokens_colon (rest : Bytes) :
    ipv6Tokens (colon :: rest) = ⟨.simple colon, [colon]⟩ :: ipv6Tokens rest := by
  rfl

theorem ipv6Tokens_dot (rest : Bytes) :
    ipv6Tokens (dot :: rest) = ⟨.simple dot, [dot]⟩ :: ipv6Tokens rest := by
  rfl

theorem ipv6Tokens_percent (rest : Bytes) :
    ipv6Tokens (percent :: rest) = ⟨.zoneDelimiter, pctCode percent⟩ :: ipv6Tokens rest := by
  have coded : ipv6Raw percent = false := (ipv6Raw_eq _).trans (by decide)
  rw [ipv6Tokens, codedTokens, if_pos coded]
  rfl

theorem ipv6Tokens_head (chr : UInt8) (rest : Bytes) :
    ∃ token tokens, ipv6Tokens (chr :: rest) = token :: tokens ∧
      (∀ other, token.type = .simple other → chr = other) ∧
      (token.type = .digits ∨ token.type = .hexDigits → chr ∈ hexDigit) := by
  rw [ipv6Tokens, codedTokens]
  split
  · refine ⟨_, _, rfl, ?_, ?_⟩ <;> unfold ipv6Code <;> split <;> simp
  · next stands =>
    have stands : ipv6Raw chr = true := by simpa using stands
    split
    · exact ⟨_, _, rfl, fun other same => by simpa using same, by simp⟩
    · next complex =>
      obtain ⟨type, group, found, member, inside⟩ := readsBack_ipv6.group stands complex
      rw [found]
      refine ⟨_, _, rfl, fun other same => ?_, fun kind => ?_⟩
      · exact absurd same (ne_of_ofGroup (readsBack_ipv6.groupsPlain _ member).2 rfl)
      · have inner : ∀ group ∈ ipv6Groups, group.1 = .digits ∨ group.1 = .hexDigits →
            group.2 ⊆ hexDigit := by
          simp only [ipv6Groups, forall_mem_cons]
          exact ⟨fun _ => digit_subset, fun _ => List.Subset.refl _, by simp, by simp⟩
        exact inner _ member kind inside

/-! ## The loop -/

def afterSegment (host : Bytes) (doubleColonAllowed : Bool) (segmentCount : Nat) : Ipv6State :=
  { host, doubleColonAllowed, segmentCount, colonAllowed := true }

/-- The state behind a colon; a second one is allowed when there was no `::` before. -/
def afterColon (host : Bytes) (doubleColonAllowed : Bool) (segmentCount : Nat) : Ipv6State :=
  { host, doubleColonAllowed, segmentCount, colonAllowed := doubleColonAllowed,
    ipv4Allowed := true, lastWasColon := true }

/-- The tokens behind the address: the closing bracket and the port. -/
def closing (port : Option Nat) : List Token :=
  ⟨.simple 93, [93]⟩ :: portTokens port

section

variable {port : Option Nat} {result : Except UriError (Ipv6State × List Token × Nat)}

/-- The loop ends with the result from this state, with this text left of the address. -/
def Reads (port : Option Nat) (state : Ipv6State) (text : Bytes) (offset : Nat)
    (result : Except UriError (Ipv6State × List Token × Nat)) : Prop :=
  ∀ rounds, (ipv6Tokens text ++ closing port).length < rounds →
    ipv6Loop rounds state (ipv6Tokens text ++ closing port) offset = result

theorem reads_end (state : Ipv6State) (offset : Nat) :
    Reads port state [] offset (.ok (state, closing port, offset)) := by
  intro rounds enough
  obtain _ | rounds := rounds
  · omega
  rfl

variable {offset count : Nat} {token : Token} {rest host : Bytes} {double : Bool}

/-- One round of the loop. -/
theorem Reads.step {state state' : Ipv6State} {text text' : Bytes} {offset' : Nat}
    (tokens : List Token) (begins : ipv6Tokens text = token :: (tokens ++ ipv6Tokens text'))
    (opened : token.type ≠ .simple 93)
    (body : ipv6Round state (ipv6Tokens text ++ closing port) offset =
      .ok (state', ipv6Tokens text' ++ closing port, offset'))
    (rest : Reads port state' text' offset' result) : Reads port state text offset result := by
  intro rounds enough
  obtain _ | rounds := rounds
  · omega
  have open' : tokenTypeIs (ipv6Tokens text ++ closing port) 0 (.simple 93) = false := by
    rw [begins, cons_append, tokenTypeIs_cons]
    exact decide_eq_false opened
  rw [ipv6Loop, open', if_neg Bool.false_ne_true, body]
  refine rest rounds ?_
  rw [begins, length_append, length_cons, length_append] at enough
  rw [length_append]
  omega

variable {state : Ipv6State}

theorem ipv6Round_started (started : state.host ≠ []) (tokens : List Token) (offset : Nat) :
    ipv6Round state tokens offset = ipv6Continue state tokens offset :=
  if_neg started

/-- The host begins with two colons. -/
theorem reads_begin_colons
    (later : Reads port (afterColon [colon, colon] false 0) rest (offset + 2) result) :
    Reads port {} (colon :: colon :: rest) offset result := by
  have tokens := ipv6Tokens_colon (colon :: rest)
  rw [ipv6Tokens_colon rest] at tokens
  exact Reads.step [_] tokens (by decide) rfl later

/-- A colon behind a segment. -/
theorem reads_colon (started : host ≠ [])
    (later : Reads port (afterColon (host ++ [colon]) double count) rest (offset + 1) result) :
    Reads port (afterSegment host double count) (colon :: rest) offset result := by
  have tokens := ipv6Tokens_colon rest
  refine Reads.step [] tokens (by decide) ?_ later
  rw [ipv6Round_started started, tokens]
  cases double <;> rfl

/-- A second colon. -/
theorem reads_doubleColon (started : host ≠ [])
    (later : Reads port (afterColon (host ++ [colon]) false count) rest (offset + 1) result) :
    Reads port (afterColon host true count) (colon :: rest) offset result := by
  have tokens := ipv6Tokens_colon rest
  refine Reads.step [] tokens (by decide) ?_ later
  rw [ipv6Round_started started, tokens]
  rfl

def EndsSegment (rest : Bytes) : Prop :=
  ∀ chr ∈ rest.head?, chr ∉ hexDigit ∧ chr ≠ dot

/-- The first token behind a segment. -/
theorem tokens_behind_segment (ends : EndsSegment rest) (port : Option Nat) :
    ∃ token tokens, ipv6Tokens rest ++ closing port = token :: tokens ∧
      ¬ (token.type = .hexDigits ∨ token.type = .digits) ∧ token.type ≠ .simple Chr.dot := by
  cases rest with
  | nil => exact ⟨_, _, rfl, by decide, by decide⟩
  | cons chr rest =>
    obtain ⟨notHex, notDot⟩ := ends chr rfl
    obtain ⟨token, tokens, same, simple, hex⟩ := ipv6Tokens_head chr rest
    exact ⟨token, tokens ++ closing port, by rw [same, cons_append],
      fun kind => notHex (hex kind.symm), fun dot => notDot (simple _ dot)⟩

theorem readSegment_append {tokens : List Token} (segment : SegmentTokens tokens)
    (others : List Token) (ends : ¬ (token.type = .hexDigits ∨ token.type = .digits)) :
    readSegment (tokens ++ token :: others) = .ok (tokens.flatMap Token.text, token :: others) := by
  induction tokens with
  | nil => rw [nil_append, readSegment, if_neg ends]; rfl
  | cons first tokens ih =>
    obtain ⟨kind, segment⟩ := forall_mem_cons.mp segment
    rw [cons_append, readSegment, if_pos kind.symm, ih segment]
    rfl

/-- Segments are not taken for an IPv4 address. -/
theorem parseIpv4_segment {tokens : List Token} (segment : SegmentTokens tokens)
    (nonempty : tokens ≠ []) (others : List Token) (ends : token.type ≠ .simple dot)
    (offset : Nat) :
    parseIpv4 (tokens ++ token :: others) offset = .ok ([], tokens ++ token :: others, offset) := by
  rw [parseIpv4_eq, if_neg]
  obtain ⟨first, tokens, rfl⟩ := exists_cons_of_ne_nil nonempty
  have noDot : tokenTypeIs (first :: tokens ++ token :: others) 1 (.simple dot) = false := by
    cases tokens with
    | nil => simpa [tokenTypeIs] using ends
    | cons second tokens =>
      have kind := segment second (by simp)
      obtain same | same := kind <;> simp [tokenTypeIs, same]
  rw [octetTypes, noDot]
  simp

/-- The tokens of a segment and of what follows it. -/
theorem Segment.tokens (segment : Segment) (ends : EndsSegment rest) (port : Option Nat) :
    ∃ first tokens next others,
      ipv6Tokens (segment.text ++ rest) = first :: tokens ++ ipv6Tokens rest ∧
      ipv6Tokens rest ++ closing port = next :: others ∧ SegmentTokens (first :: tokens) ∧
      (first :: tokens).flatMap Token.text = segment.text ∧
      ¬ (next.type = .hexDigits ∨ next.type = .digits) ∧ next.type ≠ .simple dot := by
  obtain ⟨tokens, same, kinds, whole⟩ := ipv6Tokens_hexDigits segment.text segment.digits
    fun chr head => (ends chr head).1
  obtain ⟨next, others, behind, notHex, notDot⟩ := tokens_behind_segment ends port
  have nonempty : tokens ≠ [] := by
    rintro rfl
    exact segment.nonempty whole.symm
  obtain ⟨first, tokens, rfl⟩ := exists_cons_of_ne_nil nonempty
  exact ⟨first, tokens, next, others, same, behind, kinds, whole, notHex, notDot⟩

theorem SegmentTokens.notFirst {first : Token} {tokens : List Token}
    (kinds : SegmentTokens (first :: tokens)) (behind : List Token) {type : TokenType}
    (other : type ≠ .digits ∧ type ≠ .hexDigits) :
    tokenTypeIs (first :: tokens ++ behind) 0 type = false := by
  rw [cons_append, tokenTypeIs_cons]
  obtain kind | kind := kinds first mem_cons_self <;> simp [kind, other.1.symm, other.2.symm]

theorem SegmentTokens.opened {first : Token} {tokens : List Token}
    (kinds : SegmentTokens (first :: tokens)) : first.type ≠ .simple 93 := by
  obtain kind | kind := kinds first mem_cons_self <;> simp [kind]

/-- A segment behind a colon. -/
theorem reads_segment (started : host ≠ []) (segment : Segment) (ends : EndsSegment rest)
    (later : Reads port (afterSegment (host ++ segment.text) double (count + 1)) rest
      (offset + segment.text.length) result) :
    Reads port (afterColon host double count) (segment.text ++ rest) offset result := by
  obtain ⟨first, tokens, next, others, same, behind, kinds, whole, notHex, notDot⟩ :=
    segment.tokens ends port
  refine Reads.step _ same kinds.opened ?_ later
  have fits : ¬ 4 < segment.text.length := Nat.not_lt.mpr segment.short
  rw [ipv6Round_started started, same, append_assoc, behind, ipv6Continue]
  simp (disch := decide) only [afterColon, if_true, parseIpv4_segment kinds (by simp) others notDot,
    ok_bind, ne_eq, not_true_eq_false, and_false, if_false, kinds.notFirst, Bool.false_eq_true,
    or_false]
  rw [ipv6Alternate]
  simp only [if_true, readSegment_append kinds others notHex, ok_bind, whole, segment.nonempty,
    if_false, fits]
  rfl

/-- The host begins with a segment. -/
theorem reads_begin_segment (segment : Segment) (ends : EndsSegment rest)
    (later : Reads port (afterSegment segment.text true 1) rest
      (offset + segment.text.length) result) :
    Reads port {} (segment.text ++ rest) offset result := by
  obtain ⟨first, tokens, next, others, same, behind, kinds, whole, notHex, -⟩ :=
    segment.tokens ends port
  refine Reads.step _ same kinds.opened ?_ later
  have fits : ¬ 4 < segment.text.length := Nat.not_lt.mpr segment.short
  rw [ipv6Round, if_pos rfl, same, append_assoc, behind, ipv6Begin]
  simp (disch := decide) only [kinds.notFirst, Bool.false_eq_true, or_false, if_false,
    readSegment_append kinds others notHex, ok_bind, whole, fits]
  rfl

def afterIpv4 (host : Bytes) (doubleColonAllowed : Bool) (segmentCount : Nat) : Ipv6State :=
  { afterColon host doubleColonAllowed segmentCount with ipv4Found := true }

/-- The tokens of the IPv4 address at the end. -/
theorem Ipv4Tail.tokens (tail : Ipv4Tail) (ends : EndsDigits rest) :
    ipv6Tokens (tail.text ++ rest) =
      [⟨.digits, decimal tail.first⟩, ⟨.simple dot, [dot]⟩,
        ⟨.digits, decimal tail.second⟩, ⟨.simple dot, [dot]⟩,
        ⟨.digits, decimal tail.third⟩, ⟨.simple dot, [dot]⟩,
        ⟨.digits, decimal tail.fourth⟩] ++ ipv6Tokens rest := by
  simp only [Ipv4Tail.text, append_assoc, cons_append,
    nil_append, ipv6Tokens_decimal _ (endsDigits_dot _), ipv6Tokens_dot,
    ipv6Tokens_decimal _ ends]

theorem Ipv4Tail.parseIpv4 (tail : Ipv4Tail) (ends : EndsDigits rest) (behind : List Token)
    (offset : Nat) :
    parseIpv4 (ipv6Tokens (tail.text ++ rest) ++ behind) offset =
      .ok (tail.text, ipv6Tokens rest ++ behind, offset + tail.text.length) := by
  have small (number : Fin 256) : ¬ 255 < value (decimal number) := by
    rw [value_decimal]
    omega
  rw [tail.tokens ends, parseIpv4_eq]
  simp [octetTypes, tokenTypeIs, parseOctets, consumeToken, ok_bind, small, Ipv4Tail.text]
  refine congrArg Except.ok (congrArg (Prod.mk _) (congrArg (Prod.mk _) ?_))
  omega

/-- An IPv4 address behind a colon. -/
theorem reads_ipv4 (started : host ≠ []) (tail : Ipv4Tail) (ends : EndsDigits rest)
    (later : Reads port (afterIpv4 (host ++ tail.text) double count) rest
      (offset + tail.text.length) result) :
    Reads port (afterColon host double count) (tail.text ++ rest) offset result := by
  have tokens := tail.tokens ends
  have nonempty : tail.text ≠ [] := by simp [Ipv4Tail.text]
  refine Reads.step _ tokens (by simp) ?_ later
  rw [ipv6Round_started started, ipv6Continue]
  simp only [afterColon, if_true, tail.parseIpv4 ends, ok_bind, ne_eq, nonempty,
    not_false_eq_true, and_self]
  rfl

variable {zone : Bytes}

def InZone (type : TokenType) : Prop :=
  type ≠ .simple 93 ∧ type ≠ .simple colon ∧ type ≠ .simple 91

theorem readZone_cons {tokens : List Token} (allowed : InZone token.type) :
    readZone (token :: tokens) offset =
      (readZone tokens (offset + token.text.length) >>= fun (zone, rest, stop) =>
        .ok ((if token.type = .zoneDelimiter ∨ token.type = .pctEncoded then pctdecode token.text
          else token.text) ++ zone, rest, stop)) := by
  obtain ⟨open', notColon, notBracket⟩ := allowed
  rw [readZone, if_neg open', if_neg (not_or.mpr ⟨notColon, notBracket⟩)]
  rfl

theorem ipv6Code_kind (chr : UInt8) :
    ipv6Code chr = .zoneDelimiter ∨ ipv6Code chr = .pctEncoded := by
  unfold ipv6Code
  split <;> simp

theorem ipv6Code_allowed (chr : UInt8) : InZone (ipv6Code chr) := by
  obtain same | same := ipv6Code_kind chr <;> simp [InZone, same]

theorem dot_allowed : InZone (.simple dot) := by
  simp [InZone, dot, colon]

/-- Of the characters that are tokens of their own, the encoder leaves the dot and the colon. -/
theorem rawSimple_dot : ∀ chr ∈ parseIpv6Rules.simple, ipv6Raw chr = true → chr ≠ colon →
    chr = dot := by
  simp only [ipv6Raw_eq]
  decide

/-- The token of a run is none that the reading of a zone tests for. -/
theorem ipv6Group_allowed {type : TokenType} {group : Bytes}
    (found : groupOf ipv6Groups chr = some (type, group)) :
    InZone type ∧ ¬(type = .zoneDelimiter ∨ type = .pctEncoded) := by
  have run := (readsBack_ipv6.groupsPlain _ (mem_of_groupOf found).1).2
  cases type <;> simp [ofGroup, InZone] at run ⊢

/-- The zone is read up to the closing bracket. -/
theorem readZone_tokens (port : Option Nat) (noColon : ∀ chr ∈ zone, chr ≠ colon) (offset : Nat) :
    readZone (ipv6Tokens zone ++ closing port) offset =
      .ok (zone, closing port, offset + (encoded ipv6Raw zone).length) := by
  revert noColon offset
  refine readsBack_ipv6.tokens_induction (motive := fun zone tokens =>
    (∀ chr ∈ zone, chr ≠ colon) → ∀ offset, readZone (tokens ++ closing port) offset =
      .ok (zone, closing port, offset + (encoded ipv6Raw zone).length)) ?_ ?_ ?_ ?_ zone
  · exact fun _ _ => rfl
  · intro chr rest tokens coded later noColon offset
    obtain ⟨-, others⟩ := forall_mem_cons.mp noColon
    rw [cons_append, readZone_cons (ipv6Code_allowed chr), later others, ok_bind]
    simp [ipv6Code_kind, pctdecode_pctCode, encodeChar, coded, Nat.add_assoc]
  · intro chr rest tokens stands simple later noColon offset
    obtain ⟨notColon, others⟩ := forall_mem_cons.mp noColon
    obtain rfl := rawSimple_dot chr simple stands notColon
    rw [cons_append, readZone_cons dot_allowed, later others, ok_bind]
    simp [encodeChar, stands, Nat.add_assoc, Nat.add_comm 1]
  · intro type group chr run rest tokens found _ all _ later noColon offset
    obtain ⟨allowed, plain⟩ := ipv6Group_allowed found
    obtain ⟨-, others⟩ := forall_mem_append.mp noColon
    rw [cons_append, readZone_cons allowed, later others, ok_bind, if_neg plain, encoded_run all,
      length_append, Nat.add_assoc]

/-- A zone is not taken for an IPv4 address. -/
theorem parseIpv4_zone (code : Bytes) (tokens : List Token) (offset : Nat) :
    parseIpv4 (⟨.zoneDelimiter, code⟩ :: tokens) offset =
      .ok ([], ⟨.zoneDelimiter, code⟩ :: tokens, offset) := by
  rw [parseIpv4_eq]
  simp [octetTypes, tokenTypeIs_cons]

/-- The zone is the last part of the host. -/
theorem reads_zone (started : state.host ≠ []) (nonempty : zone ≠ [])
    (noColon : ∀ chr ∈ zone, chr ≠ colon) (offset : Nat) :
    Reads port state (percent :: zone) offset
      (.ok ({ state with host := state.host ++ percent :: zone }, closing port,
        offset + (encoded ipv6Raw (percent :: zone)).length)) := by
  have tokens := ipv6Tokens_percent zone
  refine Reads.step _ (by rw [tokens, ipv6Tokens_nil, append_nil]) (by simp) ?_ (reads_end _ _)
  have zoneRead : readZone (⟨.zoneDelimiter, pctCode percent⟩ ::
      (ipv6Tokens zone ++ closing port)) offset = .ok (percent :: zone, closing port,
        offset + (pctCode percent).length + (encoded ipv6Raw zone).length) := by
    rw [readZone_cons (by simp [InZone]), readZone_tokens port noColon]
    rfl
  have size : offset + (encoded ipv6Raw (percent :: zone)).length =
      offset + (pctCode percent).length + (encoded ipv6Raw zone).length := by
    have coded : encodeChar ipv6Raw percent = pctCode percent := by
      rfl
    simp [coded, Nat.add_assoc]
  rw [ipv6Round_started started, tokens, cons_append, ipv6Continue, size]
  cases allowed : state.ipv4Allowed <;>
    simp [parseIpv4_zone, ok_bind, tokenTypeIs_cons, zoneRead, nonempty] <;>
    rfl

/-! ## Whole addresses -/

theorem colons_cons (part : Bytes) {parts : List Bytes} (more : parts ≠ []) :
    colons (part :: parts) = part ++ colon :: colons parts := by
  obtain ⟨next, others, rfl⟩ := exists_cons_of_ne_nil more
  simp [colons, List.intercalate, List.intersperse]

theorem colons_singleton (part : Bytes) : colons [part] = part := by
  simp [colons, List.intercalate]

theorem endsSegment_colon (rest : Bytes) : EndsSegment (colon :: rest) := by
  intro chr head
  cases head
  decide

def moreSegments (segments : List Segment) : Bytes :=
  segments.flatMap fun segment => colon :: segment.text

theorem EndsSegment.more (ends : EndsSegment rest) (segments : List Segment) :
    EndsSegment (moreSegments segments ++ rest) := by
  cases segments with
  | nil => exact ends
  | cons next others => exact endsSegment_colon _

/-- Segments behind a segment, each with a colon in front of it. -/
theorem reads_more_segments (segments : List Segment) (started : host ≠ [])
    (ends : EndsSegment rest)
    (later : Reads port (afterSegment (host ++ moreSegments segments) double
      (count + segments.length)) rest (offset + (moreSegments segments).length) result) :
    Reads port (afterSegment host double count) (moreSegments segments ++ rest) offset
      result := by
  induction segments generalizing host count offset with
  | nil => simpa [moreSegments] using later
  | cons segment segments ih =>
    rw [moreSegments, flatMap_cons, cons_append, cons_append, append_assoc]
    refine reads_colon started ?_
    refine reads_segment (by simp) segment ?_ (ih (by simp) ?_)
    · exact ends.more segments
    · have counted : count + 1 + segments.length = count + (segment :: segments).length := by
        simp
        omega
      simpa [moreSegments, Nat.add_assoc, Nat.add_comm, Nat.add_left_comm] using later

theorem colons_segments (segment : Segment) (segments : List Segment) (last : Option Bytes) :
    colons ((segment :: segments).map Segment.text ++ last.toList) =
      segment.text ++ (moreSegments segments ++ (last.map fun text => colon :: text).getD []) := by
  induction segments generalizing segment with
  | nil => cases last <;> simp [moreSegments, colons, List.intercalate]
  | cons next segments ih =>
    rw [map_cons, cons_append, colons_cons _ (by simp), ih next]
    simp [moreSegments]

/-- What the loop has found when it has read some of the parts of a host. -/
structure Found (state : Ipv6State) (host : Bytes) (double : Bool) (segments : Nat)
    (ipv4 : Bool) : Prop where
  host_eq : state.host = host
  double_eq : state.doubleColonAllowed = double
  count_eq : state.segmentCount = segments
  ipv4_eq : state.ipv4Found = ipv4

theorem EndsSegment.digits (ends : EndsSegment rest) : EndsDigits rest := by
  intro chr head
  by_contra digit
  refine (ends chr head).1 (mem_append_right _ (mem_digit.mpr ?_))
  simpa using digit

def ipv4Text (ipv4 : Option Ipv4Tail) : Bytes :=
  (ipv4.map fun tail => colon :: tail.text).getD []

theorem EndsSegment.parts (ends : EndsSegment rest) (segments : List Segment)
    (ipv4 : Option Ipv4Tail) :
    EndsSegment (moreSegments segments ++ ipv4Text ipv4 ++ rest) := by
  rw [append_assoc]
  refine EndsSegment.more ?_ segments
  cases ipv4 with
  | none => exact ends
  | some tail => exact endsSegment_colon _

/-- The parts behind a segment. -/
theorem reads_parts (segments : List Segment) (ipv4 : Option Ipv4Tail) {host : Bytes}
    (started : host ≠ []) (double : Bool) (count : Nat) :
    ∃ state, Found state (host ++ (moreSegments segments ++ ipv4Text ipv4)) double
        (count + segments.length) ipv4.isSome ∧
      ∀ rest offset result, EndsSegment rest →
        Reads port state rest
          (offset + (moreSegments segments ++ ipv4Text ipv4).length) result →
        Reads port (afterSegment host double count)
          (moreSegments segments ++ ipv4Text ipv4 ++ rest) offset result := by
  cases ipv4 with
  | none =>
    refine ⟨afterSegment (host ++ moreSegments segments) double (count + segments.length),
      ⟨?_, rfl, rfl, rfl⟩, fun rest offset result ends later => ?_⟩
    · simp [afterSegment, ipv4Text]
    · simp only [ipv4Text, Option.map_none, Option.getD_none, append_nil] at later ⊢
      exact reads_more_segments segments started ends later
  | some tail =>
    refine ⟨afterIpv4 (host ++ moreSegments segments ++ [colon] ++ tail.text) double
      (count + segments.length), ⟨?_, rfl, rfl, rfl⟩, fun rest offset result ends later => ?_⟩
    · simp [afterIpv4, afterColon, ipv4Text]
    · have size : offset + (moreSegments segments).length + 1 + tail.text.length =
          offset + (moreSegments segments ++ ipv4Text (some tail)).length := by
        simp [ipv4Text]
        omega
      rw [append_assoc]
      refine reads_more_segments segments started (endsSegment_colon _)
        (reads_colon (by simp [started]) (reads_ipv4 (by simp) tail ends.digits ?_))
      rwa [size]

theorem colons_lastParts (segment : Segment) (segments : List Segment) (ipv4 : Option Ipv4Tail) :
    colons (lastParts (segment :: segments) ipv4) =
      segment.text ++ (moreSegments segments ++ ipv4Text ipv4) := by
  rw [lastParts, colons_segments]
  cases ipv4 <;> rfl

/-- The last parts of an address, behind a colon. -/
theorem reads_last (segments : List Segment) (ipv4 : Option Ipv4Tail) {host : Bytes}
    (started : host ≠ []) (double : Bool) (count : Nat) :
    ∃ state, Found state (host ++ colons (lastParts segments ipv4)) double
        (count + segments.length) ipv4.isSome ∧
      ∀ rest offset result, EndsSegment rest →
        Reads port state rest (offset + (colons (lastParts segments ipv4)).length) result →
        Reads port (afterColon host double count) (colons (lastParts segments ipv4) ++ rest)
          offset result := by
  cases segments with
  | nil =>
    cases ipv4 with
    | none =>
      refine ⟨afterColon host double count, ⟨?_, rfl, rfl, rfl⟩, fun _ _ _ _ later => later⟩
      simp [afterColon, lastParts, colons, List.intercalate]
    | some tail =>
      have parts : colons (lastParts [] (some tail)) = tail.text := colons_singleton _
      rw [parts]
      exact ⟨afterIpv4 (host ++ tail.text) double count, ⟨rfl, rfl, rfl, rfl⟩,
        fun _ _ _ ends later => reads_ipv4 started tail ends.digits later⟩
  | cons segment segments =>
    have counted : count + 1 + segments.length = count + (segment :: segments).length := by
      simp
      omega
    obtain ⟨state, found, reads⟩ := @reads_parts port segments ipv4 (host ++ segment.text)
      (by simp [started]) double (count + 1)
    rw [counted, append_assoc, ← colons_lastParts] at found
    refine ⟨state, found, fun rest offset result ends later => ?_⟩
    rw [colons_lastParts, append_assoc]
    refine reads_segment started segment (ends.parts segments ipv4) (reads rest _ result ends ?_)
    rwa [Nat.add_assoc, ← length_append, ← colons_lastParts]

/-- The loop goes through the whole text of an address. -/
theorem reads_address (port : Option Nat) (address : Ipv6Address) :
    ∃ state : Ipv6State, state.host = address.text ∧ state.segmentsFit = true ∧
      ∀ rest offset result, EndsSegment rest →
        Reads port state rest (offset + address.text.length) result →
        Reads port {} (address.text ++ rest) offset result := by
  obtain ⟨front, back, ipv4, fits⟩ := address
  cases back with
  | none =>
    obtain ⟨segment, segments, rfl⟩ := exists_cons_of_fits fits
    obtain ⟨state, found, reads⟩ := @reads_parts port segments ipv4 segment.text
      segment.nonempty true 1
    rw [← colons_lastParts] at found
    refine ⟨state, found.host_eq, ?_, fun rest offset result ends later => ?_⟩
    · rw [Ipv6State.segmentsFit, found.ipv4_eq, found.double_eq, found.count_eq, if_pos rfl,
        decide_eq_true_eq, ← fits, length_cons, Nat.add_comm]
    · rw [Ipv6Address.text, colons_lastParts, append_assoc]
      refine reads_begin_segment segment (ends.parts segments ipv4) (reads rest _ result ends ?_)
      rwa [Nat.add_assoc, ← length_append, ← colons_lastParts]
  | some back =>
    have fit {state : Ipv6State} {host : Bytes}
        (found : Found state host false (front.length + back.length) ipv4.isSome) :
        state.segmentsFit = true := by
      rw [Ipv6State.segmentsFit, found.ipv4_eq, found.double_eq, found.count_eq,
        if_neg Bool.false_ne_true, decide_eq_true_eq]
      exact fits
    cases front with
    | nil =>
      obtain ⟨state, found, reads⟩ := @reads_last port back ipv4 [colon, colon]
        (by simp) false 0
      refine ⟨state, found.host_eq, fit found, fun rest offset result ends later => ?_⟩
      refine reads_begin_colons (reads rest _ result ends ?_)
      have size : offset + 2 + (colons (lastParts back ipv4)).length =
          offset + (Ipv6Address.text ⟨[], some back, ipv4, fits⟩).length := by
        simp [Ipv6Address.text, colons, List.intercalate]
        omega
      rwa [size]
    | cons segment segments =>
      have begins := colons_segments segment segments none
      rw [Option.toList_none, append_nil, Option.map_none, Option.getD_none, append_nil] at begins
      obtain ⟨state, found, reads⟩ := @reads_last port back ipv4
        (segment.text ++ moreSegments segments ++ [colon] ++ [colon]) (by simp) false
        (1 + segments.length)
      rw [Nat.add_comm 1, ← length_cons] at found
      refine ⟨state, ?_, fit found, fun rest offset result ends later => ?_⟩
      · rw [found.host_eq, Ipv6Address.text, begins]
        simp
      · rw [Ipv6Address.text, begins]
        simp only [append_assoc]
        refine reads_begin_segment segment ((endsSegment_colon _).more segments)
          (reads_more_segments segments segment.nonempty (endsSegment_colon _)
            (reads_colon (by simp [segment.nonempty])
              (reads_doubleColon (by simp) (reads rest _ result ends ?_))))
        have size : offset + segment.text.length + (moreSegments segments).length + 1 + 1 +
            (colons (lastParts back ipv4)).length = offset +
              (Ipv6Address.text ⟨segment :: segments, some back, ipv4, fits⟩).length := by
          rw [Ipv6Address.text, begins]
          simp
          omega
        rwa [size]

/-- A zone with a colon is refused. -/
theorem readZone_refused (port : Option Nat) (colon : Chr.colon ∈ zone) (offset : Nat) :
    ∃ error, readZone (ipv6Tokens zone ++ closing port) offset = .error error := by
  revert colon offset
  refine readsBack_ipv6.tokens_induction (motive := fun zone tokens =>
    Chr.colon ∈ zone → ∀ offset, ∃ error, readZone (tokens ++ closing port) offset = .error error)
    (by simp) ?_ ?_ ?_ zone
  · intro chr rest tokens coded later colon offset
    have notColon : Chr.colon ≠ chr := by
      rintro rfl
      exact absurd coded (by decide)
    obtain ⟨error, failed⟩ := later ((mem_cons.mp colon).resolve_left notColon) _
    exact ⟨error, by rw [cons_append, readZone_cons (ipv6Code_allowed chr), failed, error_bind]⟩
  · intro chr rest tokens stands simple later colon offset
    by_cases same : chr = Chr.colon
    · subst same
      exact ⟨_, rfl⟩
    · obtain rfl := rawSimple_dot chr simple stands same
      obtain ⟨error, failed⟩ := later ((mem_cons.mp colon).resolve_left (by decide)) _
      exact ⟨error, by rw [cons_append, readZone_cons dot_allowed, failed, error_bind]⟩
  · intro type group chr run rest tokens found _ all _ later colon offset
    have noColon := ipv6Groups_free Chr.colon (by simp) _ (mem_of_groupOf found).1
    obtain ⟨error, failed⟩ := later ((mem_append.mp colon).resolve_left fun inside =>
      noColon (all _ inside).2) _
    refine ⟨error, ?_⟩
    rw [cons_append, readZone_cons (ipv6Group_allowed found).1, failed, error_bind]

/-- The loop fails at a zone with a colon. -/
theorem reads_zone_refused (started : state.host ≠ []) (colon : Chr.colon ∈ zone) (offset : Nat) :
    ∃ error, Reads port state (percent :: zone) offset (.error error) := by
  obtain ⟨error, failed⟩ := readZone_refused port colon (offset + (pctCode percent).length)
  have zoneRead : readZone (⟨.zoneDelimiter, pctCode percent⟩ ::
      (ipv6Tokens zone ++ closing port)) offset = .error error := by
    rw [readZone_cons (by simp [InZone]), failed, error_bind]
  refine ⟨error, fun rounds enough => ?_⟩
  obtain _ | rounds := rounds
  · omega
  rw [ipv6Loop, ipv6Tokens_percent, cons_append, tokenTypeIs_cons, ipv6Round_started started,
    ipv6Continue]
  cases allowed : state.ipv4Allowed <;>
    simp [parseIpv4_zone, ok_bind, tokenTypeIs_cons, zoneRead, error_bind]

end

end MariadbShell.Uri
