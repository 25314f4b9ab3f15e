import MariadbShell.Uri.PercentCode

/-!
# Host names

How the parser reads back a host name and the port behind it. A name that begins like an
IPv4 address is taken for one, whatever follows the fourth number.
-/

namespace MariadbShell.Uri

open List
open ImportTable (Bytes ascii)
open Lib.Decimal
open Sql Chr

set_option maxRecDepth 2000

def hostGroups : List (TokenType × Bytes) :=
  [(.digits, digit), (.hexDigits, hexDigit), (.subDelims, subDelimiters), (.unreserved, unreserved)]

def hostRaw : UInt8 → Bool :=
  isRaw [dot, colon] hostGroups

theorem hostRaw_eq (chr : UInt8) :
    hostRaw chr = decide (isAlnum chr = true ∨ chr ∈ marks ++ colon :: subDelimiters) := by
  refine isRaw_eq _ (fun chr => ?_) chr
  have digits : chr ∈ digit → chr ∈ unreserved := fun member =>
    hexDigit_subset (digit_subset member)
  have hexDigits : chr ∈ hexDigit → chr ∈ unreserved := @hexDigit_subset chr
  have dot : Chr.dot ∈ unreserved := by simp [unreserved]
  simp only [hostGroups, flatMap_cons, flatMap_nil, append_nil, mem_append,
    mem_cons, not_mem_nil, or_false]
  grind

theorem colon_not_mem_hostGroups : ∀ group ∈ hostGroups, colon ∉ group.2 := by
  simp only [hostGroups, forall_mem_cons, mem_digit, mem_hexDigit, mem_unreserved]
  decide

theorem encodes_host : Encodes encodeHostRules hostGroups :=
  .of_raw rfl ⟨rfl, rfl, rfl⟩ hostRaw_eq (by decide) (by decide)

theorem readsBack_host : ReadsBack parseHostRules hostGroups (fun _ => .pctEncoded) hostRaw :=
  .of_groups rfl (List.Subset.refl _) (fun group member => ⟨group, member, List.Subset.refl _⟩)
    (by decide) hostRaw_eq (by decide) (by decide) (by
      simp only [hostGroups, forall_mem_cons, mem_digit, mem_hexDigit, mem_unreserved]
      decide)

def hostTokens (host : Bytes) : List Token :=
  codedTokens parseHostRules.simple hostGroups (fun _ => .pctEncoded) hostRaw 0 host

/-! ## Ports -/

def portText : Option Nat → Bytes
  | some port => colon :: decimal port
  | none => []

def portTokens : Option Nat → List Token
  | some port => [⟨.simple colon, [colon]⟩, ⟨.digits, decimal port⟩]
  | none => []

variable {chr : UInt8} {post rest host : Bytes} {octets : List Bytes} {count : Nat}

theorem isDigit_of_mem_decimal {number : Nat} (member : chr ∈ decimal number) :
    isDigit chr = true := by
  obtain ⟨lower, upper⟩ := decimal_digits member
  rw [isDigit, decide_eq_true_eq]
  exact ⟨lower, upper⟩

theorem isSpace_of_isDigit (digit : isDigit chr = true) : isSpace chr = false :=
  isSpace_of_isAlnum _ (decide_eq_true (.inr digit))

/-- Text behind a chunk, at which no run of digits goes on. -/
def EndsDigits (post : Bytes) : Prop :=
  ∀ chr ∈ post.head?, isDigit chr = false

/-- Rules that read numbers and the colon in front of a port. -/
structure ReadsNumbers (rules : Rules) : Prop where
  colon : Chr.colon ∈ rules.simple
  read : ∀ chr rest, chr ∈ digit → readComplex rules.complex (chr :: rest) =
    some (.digits, ((chr :: rest).takeWhile (· ∈ digit)).length)
  plain : ∀ chr ∈ digit, chr ∉ rules.simple ∧ chr ∉ rules.finalGroup

/-- The token of a number in front of something else. -/
theorem ReadsNumbers.getTokens_digits {rules : Rules} (reads : ReadsNumbers rules) {run : Bytes}
    (nonempty : run ≠ []) (digits : ∀ chr ∈ run, isDigit chr = true) (ends : EndsDigits post)
    (left position : Nat) :
    getTokens rules 0 (left + run.length) position [] (run ++ post) =
      (⟨.digits, run⟩ :: ·) <$> getTokens rules 0 left (position + run.length) [] post := by
  refine getTokens_run reads.read (fun chr member => ?_) nonempty
    (fun chr inside => mem_digit.mpr (digits chr inside)) (fun chr head => ?_) left position
  · obtain ⟨complex, continues⟩ := reads.plain chr member
    exact ⟨complex, isSpace_of_isDigit (mem_digit.mp member), continues⟩
  · rw [mem_digit, ends chr head]
    exact Bool.false_ne_true

theorem ReadsNumbers.getTokens_port {rules : Rules} (reads : ReadsNumbers rules) (port : Option Nat)
    (ends : EndsDigits post) (position : Nat) :
    getTokens rules 0 (portText port).length position [] (portText port ++ post) =
      .ok (portTokens port) := by
  cases port with
  | none => exact getTokens_end rules position post
  | some port =>
    have number := reads.getTokens_digits (decimal_ne_nil port)
      (fun _ member => isDigit_of_mem_decimal member) ends 0 (position + 1)
    rw [Nat.zero_add, getTokens_end] at number
    rw [portText, length_cons, cons_append, getTokens_simple reads.colon (by decide), number]
    rfl

/-- A group of digits is read as a number when no earlier rule takes a digit. -/
theorem readComplex_digits (others : List (TokenType × Pattern)) (member : chr ∈ digit)
    (rest : Bytes) :
    readComplex ((.digits, .sequence digit) :: others) (chr :: rest) =
      some (.digits, ((chr :: rest).takeWhile (· ∈ digit)).length) := by
  rw [readComplex_sequence, if_pos member]

/-- Rules whose first group has the digits read numbers. -/
theorem ReadsBack.readsNumbers {rules : Rules} {groups : List (TokenType × Bytes)}
    {code : UInt8 → TokenType} {raw : UInt8 → Bool}
    (reads : ReadsBack rules ((.digits, digit) :: groups) code raw)
    (colon : Chr.colon ∈ rules.simple)
    (plain : ∀ chr ∈ digit, chr ∉ rules.simple ∧ chr ∉ rules.finalGroup) : ReadsNumbers rules where
  colon := colon
  read := fun chr rest member => by
    have other : chr ≠ percent := by
      rintro rfl
      exact absurd member (by decide)
    rw [reads.readGroup chr rest other]
    simp [groupOf, member]
  plain := plain

theorem readsNumbers_host : ReadsNumbers parseHostRules :=
  readsBack_host.readsNumbers (by decide) (by decide)

theorem readsNumbers_port : ReadsNumbers parsePortRules where
  colon := by decide
  read := fun _ rest member => readComplex_digits [] member rest
  plain := by decide

/-- The port is read back. -/
theorem parsePort_portText {port : Nat} (small : port ≤ 65535) (front : Bytes)
    (ends : EndsDigits post) :
    parsePort (front ++ (portText (some port) ++ post))
      (front.length, front.length + (portText (some port)).length) = .ok port := by
  have tokens := readsNumbers_port.getTokens_port (some port) ends front.length
  rw [parsePort, process_chunk, tokens]
  have fits : ¬ 65535 < port := by omega
  simp [ok_bind, portTokens, consumeToken, fits, value_decimal]
  rfl

/-! ## The tokens of a name -/

theorem hostRaw_of_digit (member : chr ∈ digit) : hostRaw chr = true :=
  isRaw_of_mem (mem_of_getElem? (rfl : hostGroups[0]? = _)) member

/-- The token of a number in an encoded text. -/
theorem codedTokens_digits {simple : Bytes} {groups : List (TokenType × Bytes)}
    {code : UInt8 → TokenType} {raw : UInt8 → Bool}
    (plain : ∀ chr ∈ digit, raw chr = true ∧ chr ∉ simple ∧
      groupOf groups chr = some (.digits, digit)) {run : Bytes} (nonempty : run ≠ [])
    (digits : ∀ chr ∈ run, isDigit chr = true) (ends : EndsDigits rest) :
    codedTokens simple groups code raw 0 (run ++ rest) =
      ⟨.digits, run⟩ :: codedTokens simple groups code raw 0 rest := by
  obtain ⟨chr, run, rfl⟩ := exists_cons_of_ne_nil nonempty
  obtain ⟨stands, complex, found⟩ := plain chr (mem_digit.mpr (digits chr mem_cons_self))
  have taken : (run ++ rest).takeWhile (fun chr => raw chr && chr ∈ digit) = run := by
    refine takeWhile_run (fun other inside => ?_) fun other head => ?_
    · have member : other ∈ digit := mem_digit.mpr (digits other (by simp [inside]))
      simp [(plain other member).1, member]
    · have outside : other ∉ digit := by
        rw [mem_digit, ends other head]
        exact Bool.false_ne_true
      simp [outside]
  rw [cons_append, codedTokens, if_neg (by simp [stands]), if_neg complex, found]
  dsimp only
  rw [taken, codedTokens_skip]

theorem hostTokens_digits {run : Bytes} (nonempty : run ≠ [])
    (digits : ∀ chr ∈ run, isDigit chr = true) (ends : EndsDigits rest) :
    hostTokens (run ++ rest) = ⟨.digits, run⟩ :: hostTokens rest :=
  codedTokens_digits (fun chr member => ⟨hostRaw_of_digit member,
    (readsNumbers_host.plain chr member).1, by simp [groupOf, hostGroups, member]⟩)
    nonempty digits ends

theorem hostTokens_dot (rest : Bytes) :
    hostTokens (dot :: rest) = ⟨.simple dot, [dot]⟩ :: hostTokens rest := by
  rfl

/-- Only digits begin a number, and only a dot is a dot. -/
theorem hostTokens_head {chr : UInt8} (rest : Bytes) :
    ∃ token tokens, hostTokens (chr :: rest) = token :: tokens ∧
      (token.type = .digits → isDigit chr = true) ∧
      (token.type = .simple dot → chr = dot) := by
  rw [hostTokens, codedTokens]
  split
  · exact ⟨_, _, rfl, by simp, by simp⟩
  · next stands =>
    have stands : hostRaw chr = true := by simpa using stands
    split
    · exact ⟨_, _, rfl, by simp, fun same => by simpa using same⟩
    · next complex =>
      obtain ⟨type, group, found, member, inside⟩ := readsBack_host.group stands complex
      rw [found]
      refine ⟨_, _, rfl, fun same => ?_, fun same => ?_⟩
      · have same : type = .digits := same
        subst same
        have digits : group = digit := by
          simpa [hostGroups] using member
        rw [digits] at inside
        exact mem_digit.mp inside
      · exact absurd same (TokenType.ne_of_ofGroup (readsBack_host.groupsPlain _ member).2 rfl)

/-! ## Names that begin like an IPv4 address -/

/-- The first numbers of a text, with dots between them, and what follows them. -/
def octetsFirst : Nat → Bytes → Option (List Bytes × Bytes)
  | 0, text => some ([], text)
  | remaining + 1, text =>
    let octet := text.takeWhile isDigit
    let rest := text.dropWhile isDigit
    if octet = [] then none
    else if remaining = 0 then some ([octet], rest)
    else
      match rest with
      | [] => none
      | chr :: rest =>
        if chr = dot then (octetsFirst remaining rest).map fun (octets, rest) =>
          (octet :: octets, rest)
        else none

/-- A name that the parser does not take apart: it does not begin like an IPv4 address, or it
is one. -/
def HostName.Readable (host : Bytes) : Prop :=
  ∀ octets rest, octetsFirst 4 host = some (octets, rest) →
    rest = [] ∧ ∀ octet ∈ octets, value octet ≤ 255

/-- What `parse_ipv4` asks of the types of the tokens. -/
def octetTypes : Nat → List Token → Bool
  | 0, _ => true
  | remaining + 1, tokens =>
    tokenTypeIs tokens 0 .digits &&
      (remaining = 0 || tokenTypeIs tokens 1 (.simple dot) && octetTypes remaining (tokens.drop 2))

theorem parseIpv4_eq (tokens : List Token) (offset : Nat) :
    parseIpv4 tokens offset =
      if octetTypes 4 tokens then parseOctets 4 tokens offset else .ok ([], tokens, offset) := by
  unfold parseIpv4
  simp [octetTypes, tokenTypeIs]

/-- Tokens behind a host: none, or first a colon. -/
def BehindHost (tokens : List Token) : Prop :=
  ∀ token ∈ tokens.head?, token.type = .simple colon

theorem behindHost_portTokens (port : Option Nat) : BehindHost (portTokens port) := by
  cases port <;> simp [BehindHost, portTokens]

theorem tokenTypeIs_cons (token : Token) (tokens : List Token) (type : TokenType) :
    tokenTypeIs (token :: tokens) 0 type = decide (token.type = type) := by
  simp [tokenTypeIs]

theorem BehindHost.tokenTypeIs {tokens : List Token} (behind : BehindHost tokens)
    {type : TokenType} (other : type ≠ .simple colon) : tokenTypeIs tokens 0 type = false := by
  cases tokens with
  | nil => rfl
  | cons token tokens =>
    rw [tokenTypeIs_cons, behind token rfl]
    exact decide_eq_false other.symm

theorem dropWhile_endsDigits (text : Bytes) : EndsDigits (text.dropWhile isDigit) := by
  intro chr head
  by_contra holds
  have kept := head?_dropWhile_not isDigit text
  rw [Option.mem_def.mp head] at kept
  simp [holds] at kept

theorem takeWhile_isDigit (text : Bytes) : ∀ chr ∈ text.takeWhile isDigit, isDigit chr = true :=
  fun _ member => mem_takeWhile_imp member

/-- The parser sees an address where the name begins like one. -/
theorem octetTypes_hostTokens (count : Nat) (host : Bytes) {behind : List Token}
    (ends : BehindHost behind) :
    octetTypes count (hostTokens host ++ behind) = (octetsFirst count host).isSome := by
  induction count generalizing host with
  | zero => rfl
  | succ count ih =>
    rw [octetsFirst, octetTypes]
    have split := @takeWhile_append_dropWhile _ isDigit host
    by_cases empty : host.takeWhile isDigit = []
    · rw [if_pos empty]
      have refused : tokenTypeIs (hostTokens host ++ behind) 0 .digits = false := by
        cases host with
        | nil => exact ends.tokenTypeIs (by simp)
        | cons chr rest =>
          have other : isDigit chr = false := by
            by_contra holds
            simp [holds] at empty
          obtain ⟨token, tokens, same, number, -⟩ := @hostTokens_head chr rest
          rw [same, cons_append, tokenTypeIs_cons, decide_eq_false_iff_not]
          intro type
          exact nomatch other.symm.trans (number type)
      simp [refused]
    · have tokens := hostTokens_digits empty (takeWhile_isDigit host) (dropWhile_endsDigits host)
      rw [split] at tokens
      rw [if_neg empty, tokens, cons_append, tokenTypeIs_cons]
      cases count with
      | zero => simp
      | succ count =>
        cases behindOctet : host.dropWhile isDigit with
        | nil =>
          have refused : tokenTypeIs (⟨.digits, host.takeWhile isDigit⟩ ::
              (hostTokens [] ++ behind)) 1 (.simple Chr.dot) = false :=
            ends.tokenTypeIs (by decide)
          simp [refused]
        | cons chr rest =>
          by_cases dot : chr = Chr.dot
          · subst dot
            rw [hostTokens_dot]
            simpa [tokenTypeIs] using ih rest
          · obtain ⟨token, tokens, same, -, isDot⟩ := @hostTokens_head chr rest
            have refused : tokenTypeIs (⟨.digits, host.takeWhile isDigit⟩ ::
                (hostTokens (chr :: rest) ++ behind)) 1 (.simple Chr.dot) = false := by
              rw [same]
              exact decide_eq_false fun type => dot (isDot (by simpa using type))
            simp [refused, dot]

def dotted (octets : List Bytes) : Bytes :=
  [dot].intercalate octets

theorem dotted_cons (octet : Bytes) (more : octets ≠ []) :
    dotted (octet :: octets) = octet ++ [dot] ++ dotted octets := by
  obtain ⟨next, others, rfl⟩ := exists_cons_of_ne_nil more
  simp [dotted, List.intercalate, List.intersperse]

theorem endsDigits_dot (text : Bytes) : EndsDigits (dot :: text) := by
  rintro chr ⟨⟩
  rfl

/-- A text that begins with numbers, and the numbers. -/
inductive Octets (rest : Bytes) : Nat → Bytes → List Bytes → Prop
  | last {octet : Bytes} (nonempty : octet ≠ []) (digits : ∀ chr ∈ octet, isDigit chr = true)
      (ends : EndsDigits rest) : Octets rest 0 (octet ++ rest) [octet]
  | more {count : Nat} {octet tail : Bytes} {others : List Bytes} (nonempty : octet ≠ [])
      (digits : ∀ chr ∈ octet, isDigit chr = true) (found : Octets rest count tail others) :
      Octets rest (count + 1) (octet ++ dot :: tail) (octet :: others)

theorem octets_of_octetsFirst (first : octetsFirst (count + 1) host = some (octets, rest)) :
    Octets rest count host octets := by
  induction count generalizing host octets <;> rw [octetsFirst] at first <;> split at first
  case zero.isTrue | succ.isTrue => cases first
  case zero.isFalse nonempty =>
    cases first
    have found := Octets.last nonempty (takeWhile_isDigit host) (dropWhile_endsDigits host)
    rwa [takeWhile_append_dropWhile] at found
  case succ.isFalse count ih nonempty =>
    rw [if_neg (Nat.succ_ne_zero _)] at first
    split at first
    · cases first
    next chr tail behind =>
    split at first
    next dot =>
      obtain ⟨⟨others, rest⟩, found, same⟩ := Option.map_eq_some_iff.mp first
      cases same
      have found := Octets.more nonempty (takeWhile_isDigit host) (ih found)
      rwa [← dot, ← behind, takeWhile_append_dropWhile] at found
    · cases first

namespace Octets

variable (found : Octets rest count host octets)

include found

theorem ne_nil : octets ≠ [] := by
  cases found <;> simp

theorem eq : host = dotted octets ++ rest ∧ EndsDigits rest := by
  induction found with
  | last _ _ ends => exact ⟨by simp [dotted, List.intercalate], ends⟩
  | more _ _ found ih =>
    refine ⟨?_, ih.2⟩
    rw [dotted_cons _ found.ne_nil]
    simp [← ih.1]

/-- The numbers and the dots between them stand for themselves. -/
theorem raw : ∀ chr ∈ dotted octets, hostRaw chr = true := by
  have number {octet : Bytes} (digits : ∀ chr ∈ octet, isDigit chr = true) {chr : UInt8}
      (member : chr ∈ octet) : hostRaw chr = true :=
    hostRaw_of_digit (mem_digit.mpr (digits chr member))
  induction found with
  | last _ digits =>
    intro chr member
    exact number digits (by simpa [dotted, List.intercalate] using member)
  | more _ digits found ih =>
    intro chr member
    rw [dotted_cons _ found.ne_nil, mem_append, mem_append, mem_singleton] at member
    obtain (inside | rfl) | later := member
    · exact number digits inside
    · rw [hostRaw_eq]
      decide
    · exact ih chr later

/-- The loop of `parse_ipv4` takes the numbers when all of them are small. -/
theorem parseOctets_hostTokens (small : ∀ octet ∈ octets, value octet ≤ 255) (behind : List Token)
    (offset : Nat) :
    parseOctets (count + 1) (hostTokens host ++ behind) offset =
      .ok (dotted octets, hostTokens rest ++ behind, offset + (dotted octets).length) := by
  induction found generalizing offset with
  | @last octet nonempty digits ends =>
    have fits : ¬ 255 < value octet := by simpa using small octet (by simp)
    rw [hostTokens_digits nonempty digits ends, parseOctets]
    simp [ok_bind, consumeToken, fits, dotted, List.intercalate]
    rfl
  | @more count octet tail others nonempty digits found ih =>
    have fits : ¬ 255 < value octet := by simpa using small octet (by simp)
    have later := ih fun other member => small other (by simp [member])
    rw [hostTokens_digits nonempty digits (endsDigits_dot tail), hostTokens_dot, parseOctets]
    simp only [cons_append, consumeToken, if_true, ok_bind, fits, if_false,
      Nat.add_eq_zero_iff, Nat.succ_ne_self, and_false, later]
    rw [dotted_cons octet found.ne_nil]
    have size : offset + octet.length + 1 + (dotted others).length =
        offset + (octet ++ [dot] ++ dotted others).length := by
      simp
      omega
    rw [size]
    rfl

/-- A number that is too large is refused. -/
theorem parseOctets_refused (large : ∃ octet ∈ octets, 255 < value octet) (behind : List Token)
    (offset : Nat) :
    ∃ error, parseOctets (count + 1) (hostTokens host ++ behind) offset = .error error := by
  induction found generalizing offset with
  | @last octet nonempty digits ends =>
    have refused : 255 < value octet := by simpa using large
    refine ⟨.octetOutOfBounds octet offset, ?_⟩
    rw [hostTokens_digits nonempty digits ends, parseOctets]
    simp [ok_bind, consumeToken, refused]
    rfl
  | @more count octet tail others nonempty digits found ih =>
    rw [hostTokens_digits nonempty digits (endsDigits_dot tail), hostTokens_dot, parseOctets]
    by_cases refused : 255 < value octet
    · refine ⟨.octetOutOfBounds octet offset, ?_⟩
      simp [ok_bind, consumeToken, refused]
      rfl
    · have later : ∃ other ∈ others, 255 < value other := by simpa [refused] using large
      obtain ⟨error, failed⟩ := ih later (offset + octet.length + 1)
      refine ⟨error, ?_⟩
      simp only [cons_append, consumeToken, if_true, ok_bind, refused, if_false,
        Nat.add_eq_zero_iff, Nat.succ_ne_self, and_false, failed]
      rfl

end Octets

/-! ## Reading a name -/

/-- A host name: not empty, without a colon, and not with the first characters of a socket. -/
structure HostName (host : Bytes) : Prop where
  nonempty : host ≠ []
  noColon : colon ∉ host
  first : host.head? ≠ some dot ∧ host.head? ≠ some openParenthesis

theorem endsDigits_of_ends (ends : ∀ chr ∈ post.head?, hostRaw chr = false) : EndsDigits post := by
  intro chr head
  by_contra holds
  have stands := hostRaw_of_digit (mem_digit.mpr (by simpa using holds))
  exact nomatch stands.symm.trans (ends chr head)

variable {input front : Bytes} {port : Option Nat} {stop : Nat}

/-- What stands behind the fourth number is not a port. -/
theorem parsePort_refused (nonempty : rest ≠ []) (noColon : colon ∉ rest)
    (noDigit : EndsDigits rest) (front post : Bytes) {stop : Nat} (inside : front.length < stop) :
    ∃ error, parsePort (front ++ (encoded hostRaw rest ++ post)) (front.length, stop) =
      .error error := by
  obtain ⟨chr, rest, rfl⟩ := exists_cons_of_ne_nil nonempty
  have coded : ∃ first others, encodeChar hostRaw chr = first :: others ∧
      first ≠ colon ∧ first ∉ digit := by
    unfold encodeChar
    split
    · refine ⟨chr, [], rfl, fun same => noColon (by simp [same]), ?_⟩
      rw [mem_digit, noDigit chr rfl]
      exact Bool.false_ne_true
    · exact ⟨_, _, rfl, by decide, by decide⟩
  obtain ⟨first, others, written, notColon, notDigit⟩ := coded
  obtain ⟨left, size⟩ : ∃ left, stop - front.length = left + 1 :=
    ⟨stop - front.length - 1, by omega⟩
  have noRule (text : Bytes) : readComplex parsePortRules.complex (first :: text) = none := by
    rw [parsePortRules, readComplex_sequence, if_neg notDigit]
    rfl
  obtain ⟨error, failed⟩ := getTokens_illegal
    (by simpa [parsePortRules] using notColon : first ∉ parsePortRules.simple) noRule
    (by simp [parsePortRules]) rfl left front.length (others ++ (encoded hostRaw rest ++ post))
  refine ⟨error, ?_⟩
  rw [parsePort, process, drop_left, size, encoded_cons, written, append_assoc]
  simp only [cons_append, failed, error_bind]

/-- The first character that is written for a name. -/
theorem encoded_host_first (nonempty : host ≠ []) (front post : Bytes)
    (reserved : hostRaw chr = false ∧ chr ≠ percent ∧ chr ∉ hexDigit) :
    (front ++ (encoded hostRaw host ++ post))[front.length]? ≠ some chr := by
  have filled : encoded hostRaw host ≠ [] := mt encoded_eq_nil.mp nonempty
  obtain ⟨first, others, same⟩ := exists_cons_of_ne_nil filled
  intro found
  rw [getElem?_append_right (Nat.le_refl _), Nat.sub_self, same] at found
  refine not_mem_encoded host reserved.1 reserved.2 ?_
  rw [same, ← Option.some.inj found]
  exact mem_cons_self

theorem parseHost_eq (input : Bytes) (range : Range) (data : ConnectionData) :
    parseHost input range data =
      ((if input[range.1]? = some 91 then parseIpv6 input range else parseHostName input range) >>=
        fun found =>
          if found.2 < range.2 then
            (fun port => { data with host := some found.1, port := some port }) <$>
              parsePort input (found.2, range.2)
          else .ok { data with host := some found.1 }) := by
  unfold parseHost
  split <;> rfl

/-- The port behind a host that was read. -/
theorem parseHost_port {written text : Bytes}
    (input_eq : input = front ++ (written ++ portText port ++ post))
    (stop_eq : stop = front.length + (written ++ portText port).length)
    (read : (if input[front.length]? = some 91 then parseIpv6 input (front.length, stop)
      else parseHostName input (front.length, stop)) = .ok (text, front.length + written.length))
    (small : ∀ number ∈ port, number ≤ 65535) (ends : EndsDigits post) {data : ConnectionData}
    (fresh : data.port = none) :
    parseHost input (front.length, stop) data = .ok { data with host := some text, port } := by
  rw [parseHost_eq, read, ok_bind, input_eq, stop_eq]
  cases port with
  | none => rw [if_neg (by simp [portText]), ← fresh]
  | some port =>
    have portRead := parsePort_portText (small port rfl) (front ++ written) ends
    rw [if_pos (by simp [portText])]
    simp only [length_append, append_assoc, Nat.add_assoc] at portRead ⊢
    rw [portRead]
    rfl

/-! ## Reading a host and its port -/

variable (input_eq : input = front ++ (encoded hostRaw host ++ portText port ++ post))

include input_eq in
/-- A name does not look like an IPv6 address in brackets. -/
theorem host_not_bracket (nonempty : host ≠ []) : input[front.length]? ≠ some 91 := by
  rw [input_eq, append_assoc (encoded hostRaw host)]
  exact encoded_host_first nonempty front _ (by rw [hostRaw_eq]; decide)

variable (stop_eq : stop = front.length + (encoded hostRaw host ++ portText port).length)
  (ends : ∀ chr ∈ post.head?, hostRaw chr = false)

include input_eq stop_eq ends

/-- The tokens of the target. -/
theorem process_host :
    process parseHostRules input front.length stop = .ok (hostTokens host ++ portTokens port) := by
  have endsPort : EndsDigits post := endsDigits_of_ends ends
  have stops : ∀ chr ∈ (portText port ++ post).head?, ∀ group ∈ hostGroups, chr ∉ group.2 := by
    intro chr head group member inside
    cases port with
    | none => exact nomatch (isRaw_of_mem member inside).symm.trans (ends chr head)
    | some port =>
      obtain rfl : colon = chr := by simpa [portText] using head
      have plain := colon_not_mem_hostGroups
      exact plain group member inside
  rw [input_eq, stop_eq, process_chunk, length_append, Nat.add_comm, append_assoc,
    getTokens_encoded readsBack_host host stops, readsNumbers_host.getTokens_port port endsPort]
  rfl

/-- A name that does not begin like an address is read back. -/
theorem parseHostName_name (noColon : Chr.colon ∉ host) (other : octetsFirst 4 host = none) :
    parseHostName input (front.length, stop) =
      .ok (host, front.length + (encoded hostRaw host).length) := by
  have name : (hostTokens host ++ portTokens port).takeWhile (·.type ≠ .simple Chr.colon) =
      hostTokens host := by
    rw [takeWhile_append_of_pos fun token member => ?_]
    · cases port <;> simp [portTokens]
    · refine decide_eq_true fun colon => noColon ?_
      exact ((codedTokens_type readsBack_host host token member).2 _ colon).2
  have decoded := codedTokens_decoded readsBack_host host
  have text := codedTokens_text readsBack_host host
  rw [parseHostName, process_host input_eq stop_eq ends, ok_bind, parseIpv4_eq,
    octetTypes_hostTokens 4 host (behindHost_portTokens port), other]
  simp only [Option.isSome_none, Bool.false_eq_true, if_false, ok_bind, ne_eq, not_true_eq_false,
    name]
  rw [hostTokens, decoded, text]
  rfl

/-- A name that begins like an address is read up to the fourth number. -/
theorem parseHostName_octets (first : octetsFirst 4 host = some (octets, rest))
    (small : ∀ octet ∈ octets, value octet ≤ 255) :
    parseHostName input (front.length, stop) =
      .ok (dotted octets, front.length + (dotted octets).length) := by
  have found := octets_of_octetsFirst first
  have nonempty : dotted octets ≠ [] := by
    cases found with
    | more _ _ found =>
      rw [dotted_cons _ found.ne_nil]
      simp
  rw [parseHostName, process_host input_eq stop_eq ends, ok_bind, parseIpv4_eq,
    octetTypes_hostTokens 4 host (behindHost_portTokens port), first]
  simp only [Option.isSome_some, if_true, found.parseOctets_hostTokens small, ok_bind]
  rw [if_pos nonempty]
  rfl

/-- A readable name and its port are read back. -/
theorem parseHost_readable (name : HostName host) (readable : HostName.Readable host)
    (small : ∀ number ∈ port, number ≤ 65535) {data : ConnectionData} (fresh : data.port = none) :
    parseHost input (front.length, stop) data = .ok { data with host := some host, port } := by
  have read : parseHostName input (front.length, stop) =
      .ok (host, front.length + (encoded hostRaw host).length) := by
    cases first : octetsFirst 4 host with
    | none => exact parseHostName_name input_eq stop_eq ends name.noColon first
    | some found =>
      obtain ⟨octets, rest⟩ := found
      obtain ⟨rfl, fit⟩ := readable octets rest first
      have found := octets_of_octetsFirst first
      have whole := found.eq.1
      rw [append_nil] at whole
      have plain : encoded hostRaw host = host :=
        encoded_of_raw fun chr member => found.raw chr (whole ▸ member)
      have taken := parseHostName_octets input_eq stop_eq ends first fit
      rw [← whole] at taken
      rw [taken, plain]
  refine parseHost_port input_eq stop_eq ?_ small (endsDigits_of_ends ends) fresh
  rw [if_neg (host_not_bracket input_eq name.nonempty), read]

/-- Any other name is refused. -/
theorem parseHost_refused (name : HostName host) (unreadable : ¬ HostName.Readable host)
    (data : ConnectionData) :
    ∃ error, parseHost input (front.length, stop) data = .error error := by
  obtain ⟨octets, rest, first, failing⟩ : ∃ octets rest,
      octetsFirst 4 host = some (octets, rest) ∧
        ¬ (rest = [] ∧ ∀ octet ∈ octets, value octet ≤ 255) := by
    simpa [HostName.Readable] using unreadable
  have found := octets_of_octetsFirst first
  rw [parseHost]
  simp only [host_not_bracket input_eq name.nonempty, if_false]
  by_cases small : ∀ octet ∈ octets, value octet ≤ 255
  · have more : rest ≠ [] := fun empty => failing ⟨empty, small⟩
    obtain ⟨whole, noDigit⟩ := found.eq
    have noColon : colon ∉ rest := fun inside => name.noColon (by simp [whole, inside])
    have split : encoded hostRaw host = dotted octets ++ encoded hostRaw rest := by
      conv_lhs => rw [whole, encoded_append, encoded_of_raw found.raw]
    have filled : 0 < (encoded hostRaw rest).length :=
      length_pos_of_ne_nil (mt encoded_eq_nil.mp more)
    rw [parseHostName_octets input_eq stop_eq ends first small]
    obtain ⟨error, failed⟩ := parsePort_refused more noColon noDigit (front ++ dotted octets)
      (portText port ++ post)
      (by simp [split]; omega :
        (front ++ dotted octets).length <
          front.length + (encoded hostRaw host ++ portText port).length)
    refine ⟨error, ?_⟩
    simp only [ok_bind, input_eq, stop_eq]
    rw [if_pos (by simp [split]; omega)]
    simp only [split, length_append, append_assoc] at failed ⊢
    rw [failed]
    rfl
  · have large : ∃ octet ∈ octets, 255 < value octet := by simpa using small
    obtain ⟨error, failed⟩ := found.parseOctets_refused large (portTokens port) front.length
    refine ⟨error, ?_⟩
    rw [parseHostName, process_host input_eq stop_eq ends, ok_bind, parseIpv4_eq,
      octetTypes_hostTokens 4 host (behindHost_portTokens port), first, Option.isSome_some,
      if_pos rfl, failed]
    rfl

end MariadbShell.Uri
