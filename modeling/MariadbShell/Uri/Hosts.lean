import MariadbShell.Uri.Ipv6

/-!
# Hosts

How the parser reads back the host and the port that the encoder wrote: a name as it is
encoded, an IPv6 address in brackets. The encoder leaves sub-delimiters in a zone as they
are, but the rules of the parser for an address have no sub-delimiters.
-/

namespace MariadbShell.Uri

open List
open ImportTable (Bytes ascii)
open Lib.Decimal
open Lib.Search
open Sql Chr

set_option maxRecDepth 2000

/-! ## Characters of an address -/

variable {chr : UInt8}

theorem mem_colons {parts : List Bytes} (member : chr ∈ colons parts) :
    chr = colon ∨ ∃ part ∈ parts, chr ∈ part := by
  induction parts with
  | nil => simp [colons] at member
  | cons part parts ih =>
    by_cases more : parts = []
    · subst more
      rw [colons_singleton] at member
      exact .inr ⟨part, by simp, member⟩
    · rw [colons_cons part more, mem_append, mem_cons] at member
      obtain inside | same | later := member
      · exact .inr ⟨part, by simp, inside⟩
      · exact .inl same
      · obtain same | ⟨other, found, inside⟩ := ih later
        · exact .inl same
        · exact .inr ⟨other, by simp [found], inside⟩

def addressChars : Bytes := colon :: dot :: hexDigit

theorem mem_addressChars_of_decimal {number : Nat} (member : chr ∈ decimal number) :
    chr ∈ addressChars :=
  .tail _ (.tail _ (mem_append_right _ (mem_digit.mpr (isDigit_of_mem_decimal member))))

theorem Ipv4Tail.mem_text (tail : Ipv4Tail) (member : chr ∈ tail.text) : chr ∈ addressChars := by
  simp only [Ipv4Tail.text, mem_append, mem_singleton] at member
  have dot : Chr.dot ∈ addressChars := by simp [addressChars]
  obtain (((((inside | rfl) | inside) | rfl) | inside) | rfl) | inside := member
  all_goals first | exact dot | exact mem_addressChars_of_decimal inside

theorem mem_lastParts {segments : List Segment} {ipv4 : Option Ipv4Tail} {part : Bytes}
    (found : part ∈ lastParts segments ipv4) (inside : chr ∈ part) : chr ∈ addressChars := by
  obtain found | found := mem_append.mp found
  · obtain ⟨segment, -, rfl⟩ := mem_map.mp found
    exact .tail _ (.tail _ (segment.digits chr inside))
  · obtain ⟨tail, -, rfl⟩ := Option.map_eq_some_iff.mp (Option.mem_toList.mp found)
    exact tail.mem_text inside

theorem Ipv6Address.mem_text (address : Ipv6Address) (member : chr ∈ address.text) :
    chr ∈ addressChars := by
  have parts {segments : List Segment} {ipv4 : Option Ipv4Tail}
      (inside : chr ∈ colons (lastParts segments ipv4)) : chr ∈ addressChars := by
    obtain rfl | ⟨part, found, inside⟩ := mem_colons inside
    · simp [addressChars]
    · exact mem_lastParts found inside
  unfold Ipv6Address.text at member
  split at member
  · exact parts member
  · rw [mem_append, mem_append] at member
    obtain (inside | inside) | inside := member
    · exact parts (by simpa [lastParts] using inside : chr ∈ colons (lastParts address.front none))
    · obtain rfl : chr = colon := by simpa using inside
      simp [addressChars]
    · exact parts inside

theorem addressChars_plain : ∀ chr ∈ addressChars,
    hostRaw chr = true ∧ chr ∉ subDelimiters ∧ chr ≠ percent ∧ chr ≠ 91 := by
  simp only [hostRaw_eq]
  decide

theorem Ipv6Address.text_ne_nil (address : Ipv6Address) : address.text ≠ [] := by
  intro empty
  obtain ⟨front, back, ipv4, fits⟩ := address
  cases back with
  | none =>
    obtain ⟨segment, segments, rfl⟩ := exists_cons_of_fits fits
    rw [Ipv6Address.text, colons_lastParts] at empty
    exact segment.nonempty (append_eq_nil_iff.mp empty).1
  | some back => simp [Ipv6Address.text] at empty

/-! ## Addresses in brackets -/

theorem readsNumbers_ipv6 : ReadsNumbers parseIpv6Rules :=
  readsBack_ipv6.readsNumbers (by decide) (by decide)

/-- Without sub-delimiters the parser accepts what the encoder leaves as it is. -/
theorem encoded_hostRaw {text : Bytes} (plain : ∀ chr ∈ text, chr ∉ subDelimiters) :
    encoded hostRaw text = encoded ipv6Raw text :=
  encoded_congr fun chr member => by simp [ipv6Raw, plain chr member]

def bracketed (text : Bytes) : Bytes :=
  [91] ++ encoded hostRaw text ++ [93]

variable {post : Bytes}

/-- The tokens of the target. -/
theorem process_bracketed {text : Bytes} (plain : ∀ chr ∈ text, chr ∉ subDelimiters)
    (front : Bytes) (port : Option Nat) (ends : EndsDigits post) :
    process parseIpv6Rules (front ++ (bracketed text ++ portText port ++ post)) front.length
        (front.length + (bracketed text ++ portText port).length) =
      .ok (⟨.simple 91, [91]⟩ :: (ipv6Tokens text ++ closing port)) := by
  have stops : ∀ chr ∈ (93 :: (portText port ++ post)).head?, ∀ group ∈ ipv6Groups, chr ∉ group.2 :=
    stops_cons (ipv6Groups_free 93 (by simp)) _
  have whole : bracketed text ++ portText port =
      91 :: (encoded ipv6Raw text ++ 93 :: portText port) := by
    simp [bracketed, encoded_hostRaw plain]
  have size : (91 :: (encoded ipv6Raw text ++ 93 :: portText port)).length =
      (portText port).length + 1 + (encoded ipv6Raw text).length + 1 := by
    simp
    omega
  rw [process_chunk, whole, size]
  simp only [cons_append, append_assoc]
  rw [getTokens_simple (by decide) (by decide), getTokens_encoded readsBack_ipv6 text stops,
    getTokens_simple (by decide) (by decide), readsNumbers_ipv6.getTokens_port port ends]
  rfl

/-- The characters of a host do not begin a number or a dot behind the address. -/
theorem endsSegment_zoneText (zone : Option Bytes) : EndsSegment (zoneText zone) := by
  cases zone with
  | none => simp [EndsSegment, zoneText]
  | some zone =>
    intro chr head
    obtain rfl : percent = chr := by simpa [zoneText] using head
    decide

variable {host : Ipv6Host}

theorem Ipv6Host.Readable.plain (readable : host.Readable) :
    ∀ chr ∈ host.text, chr ∉ subDelimiters := by
  intro chr member
  obtain inside | behind := mem_append.mp member
  · exact (addressChars_plain chr (host.address.mem_text inside)).2.1
  · cases zone : host.zone with
    | none => simp [zone, zoneText] at behind
    | some zone' =>
      rw [zone, zoneText, mem_cons] at behind
      obtain rfl | inside := behind
      · decide
      · exact (readable zone' zone chr inside).1

/-- The loop goes through the whole text of a readable host. -/
theorem reads_host (readable : host.Readable) (port : Option Nat) (offset : Nat) :
    ∃ state : Ipv6State, state.host = host.text ∧ state.segmentsFit = true ∧
      Reads port {} host.text offset
        (.ok (state, closing port, offset + (encoded ipv6Raw host.text).length)) := by
  obtain ⟨state, same, fit, reads⟩ := reads_address port host.address
  have plain : encoded ipv6Raw host.address.text = host.address.text := by
    refine encoded_of_raw fun chr member => ?_
    obtain ⟨stands, accepted, -⟩ := addressChars_plain chr (host.address.mem_text member)
    simp [ipv6Raw, stands, accepted]
  have started : state.host ≠ [] := same ▸ host.address.text_ne_nil
  rw [Ipv6Host.text, encoded_append, plain, length_append, ← Nat.add_assoc]
  cases zone : host.zone with
  | none =>
    refine ⟨state, by rw [same, zoneText, append_nil], fit, ?_⟩
    exact reads _ _ _ (endsSegment_zoneText none) (reads_end state _)
  | some zone' =>
    have nonempty : zone' ≠ [] := by
      rintro rfl
      exact host.zoneNonempty zone
    refine ⟨{ state with host := state.host ++ percent :: zone' }, ?_, fit, ?_⟩
    · rw [zoneText, same]
    · exact reads _ _ _ (endsSegment_zoneText (some zone')) (reads_zone started nonempty
        (fun chr member => (readable zone' zone chr member).2) _)

/-- A readable host is read back. -/
theorem parseIpv6_readable (readable : host.Readable) (front : Bytes) (port : Option Nat)
    (ends : EndsDigits post) :
    parseIpv6 (front ++ (bracketed host.text ++ portText port ++ post))
        (front.length, front.length + (bracketed host.text ++ portText port).length) =
      .ok (host.text, front.length + (bracketed host.text).length) := by
  obtain ⟨state, same, fit, reads⟩ := reads_host readable port (front.length + 1)
  have size : front.length + 1 + (encoded ipv6Raw host.text).length + 1 =
      front.length + (bracketed host.text).length := by
    simp [bracketed, encoded_hostRaw readable.plain]
    omega
  rw [parseIpv6, process_bracketed readable.plain front port ends]
  simp only [ok_bind, consumeToken, if_true, reads _ (Nat.lt_succ_self _)]
  simp only [fit, same, size]
  rfl

theorem ipv6Raw_refused (chr : UInt8) (stands : hostRaw chr = true)
    (unknown : ipv6Raw chr = false) :
    chr ∉ parseIpv6Rules.simple ∧ (∀ group ∈ ipv6Groups, chr ∉ group.2) ∧
      chr ∉ parseIpv6Rules.finalGroup ∧ chr ≠ percent := by
  have delimiter : chr ∈ subDelimiters := by simpa [ipv6Raw, stands] using unknown
  have all : ∀ chr ∈ subDelimiters, chr ∉ parseIpv6Rules.simple ∧
      (∀ group ∈ ipv6Groups, chr ∉ group.2) ∧ chr ∉ parseIpv6Rules.finalGroup ∧ chr ≠ percent := by
    simp only [ipv6Groups, forall_mem_cons, mem_hexDigit, mem_unreserved]
    decide
  exact all chr delimiter

/-- A zone with sub-delimiters cannot be cut into tokens. -/
theorem process_subDelimiter {text : Bytes} (found : ∃ chr ∈ text, chr ∈ subDelimiters)
    (front post : Bytes) {stop : Nat} (size : front.length + (bracketed text).length ≤ stop) :
    ∃ error, process parseIpv6Rules (front ++ (bracketed text ++ post)) front.length stop =
      .error error := by
  have unknown : ∃ chr ∈ text, hostRaw chr = true ∧ ipv6Raw chr = false := by
    obtain ⟨chr, member, inside⟩ := found
    have stands : hostRaw chr = true :=
      isRaw_of_mem (mem_of_getElem? (rfl : hostGroups[2]? = _)) inside
    exact ⟨chr, member, stands, by simp [ipv6Raw, inside]⟩
  obtain ⟨left, rounds⟩ :
      ∃ left, stop - front.length = left + (encoded hostRaw text).length + 1 := by
    refine ⟨stop - front.length - (encoded hostRaw text).length - 1, ?_⟩
    simp [bracketed] at size
    omega
  obtain ⟨error, failed⟩ := getTokens_refused readsBack_ipv6
    (fun chr stands => (Bool.and_eq_true _ _ ▸ stands).1) ipv6Raw_refused rfl unknown left
    (front.length + 1) (93 :: post)
  refine ⟨error, ?_⟩
  rw [process, drop_left, rounds, bracketed, append_assoc, append_assoc,
    singleton_append, getTokens_simple (by decide) (by decide), singleton_append, failed]
  rfl

/-- Any other host is refused. -/
theorem parseIpv6_refused (unreadable : ¬ host.Readable) (front : Bytes) (port : Option Nat)
    (ends : EndsDigits post) :
    ∃ error, parseIpv6 (front ++ (bracketed host.text ++ portText port ++ post))
        (front.length, front.length + (bracketed host.text ++ portText port).length) =
      .error error := by
  by_cases plain : ∀ chr ∈ host.text, chr ∉ subDelimiters
  · obtain ⟨zone, same, colon⟩ : ∃ zone, host.zone = some zone ∧ Chr.colon ∈ zone := by
      by_contra absent
      refine unreadable fun zone same chr inside => ⟨plain chr ?_, ?_⟩
      · rw [Ipv6Host.text, same, zoneText]
        simp [inside]
      · rintro rfl
        exact absent ⟨zone, same, inside⟩
    obtain ⟨state, address, -, reads⟩ := reads_address port host.address
    have started : state.host ≠ [] := address ▸ host.address.text_ne_nil
    obtain ⟨error, refused⟩ := @reads_zone_refused port state zone started colon
      (front.length + 1 + host.address.text.length)
    have failed := reads _ _ _ (endsSegment_zoneText (some zone)) refused
    refine ⟨error, ?_⟩
    have text : host.text = host.address.text ++ zoneText (some zone) := by
      rw [Ipv6Host.text, same]
    rw [parseIpv6, process_bracketed plain front port ends]
    simp only [ok_bind, consumeToken, if_true, text, failed _ (Nat.lt_succ_self _), error_bind]
  · obtain ⟨error, failed⟩ := process_subDelimiter (by simpa using plain) front
      (portText port ++ post) (by simp :
        front.length + (bracketed host.text).length ≤
          front.length + (bracketed host.text ++ portText port).length)
    refine ⟨error, ?_⟩
    rw [parseIpv6, append_assoc (bracketed host.text), failed]
    rfl

/-! ## Any host -/

inductive Host where
  | name (text : Bytes) (valid : HostName text)
  | ipv6 (host : Ipv6Host)

namespace Host

def text : Host → Bytes
  | name text _ => text
  | ipv6 host => host.text

/-- The hosts that the parser reads back. -/
def Readable : Host → Prop
  | name text _ => HostName.Readable text
  | ipv6 host => host.Readable

def written : Host → Bytes
  | name text _ => encoded hostRaw text
  | ipv6 host => bracketed host.text

end Host

/-- What is known of the test of the protocol family: it takes each IPv6 address, and nothing
without a colon. -/
structure FamilyTest (inet6 : Bytes → Bool) : Prop where
  address : ∀ address : Ipv6Address, inet6 address.text = true
  colon : ∀ text, inet6 text = true → Chr.colon ∈ text

variable {inet6 : Bytes → Bool}

theorem isIpv6_name (test : FamilyTest inet6) {text : Bytes} (valid : HostName text) :
    isIpv6 inet6 text = false := by
  by_contra holds
  simp only [isIpv6, Bool.not_eq_false, Bool.and_eq_true] at holds
  have colon := test.colon _ holds.2
  exact valid.noColon ((takeWhile_sublist _).subset colon)

theorem isIpv6_address (test : FamilyTest inet6) (host : Ipv6Host) :
    isIpv6 inet6 host.text = true := by
  have address : host.text.takeWhile (· ≠ percent) = host.address.text := by
    refine takeWhile_run (fun chr member => ?_) fun chr head => ?_
    · exact decide_eq_true (addressChars_plain chr (host.address.mem_text member)).2.2.1
    · cases zone : host.zone with
      | none => simp [zone, zoneText] at head
      | some zone' =>
        obtain rfl : percent = chr := by simpa [zone, zoneText] using head
        rfl
  obtain ⟨chr, rest, first⟩ := exists_cons_of_ne_nil host.address.text_ne_nil
  have plain := addressChars_plain chr (host.address.mem_text (by simp [first]))
  have begins : host.text = chr :: (rest ++ zoneText host.zone) := by
    rw [Ipv6Host.text, first, cons_append]
  rw [isIpv6, address, test.address, begins]
  simp [plain.2.2.2]

/-- The encoder writes brackets around the addresses only. -/
theorem encodeHost_eq (test : FamilyTest inet6) (host : Host)
    (free : containsPctCode host.text = false) : encodeHost inet6 host.text = host.written := by
  have same := encodeWith_eq encodes_host free
  rw [encodeHost, same]
  cases host with
  | name text valid =>
    rw [Host.text, isIpv6_name test valid]
    rfl
  | ipv6 host =>
    rw [Host.text, isIpv6_address test host]
    rfl

/-- The first character that is written for a host, which tells it from a socket and a pipe. -/
theorem Host.written_first (host : Host) :
    ∃ first rest, host.written = first :: rest ∧ first ≠ dot ∧ first ≠ slash ∧
      first ≠ openParenthesis ∧ first ≠ backslash := by
  cases host with
  | ipv6 host => exact ⟨91, _, rfl, by decide⟩
  | name text valid =>
    obtain ⟨chr, rest, rfl⟩ := exists_cons_of_ne_nil valid.nonempty
    obtain ⟨notDot, notOpen⟩ := valid.first
    rw [Host.written, encoded_cons]
    unfold encodeChar
    split
    · next stands =>
      refine ⟨chr, _, rfl, by simpa using notDot, ?_, by simpa using notOpen, ?_⟩
      all_goals
        rintro rfl
        rw [hostRaw_eq] at stands
        exact absurd stands (by decide)
    · exact ⟨percent, _, rfl, by decide⟩

/-- Nothing that marks a socket or a pipe stands where the host begins. -/
theorem Host.inputContains_eq_false (host : Host) (front post : Bytes)
    (marker : chr ∈ [dot, slash, openParenthesis, backslash]) (chars : Bytes) :
    inputContains (front ++ (host.written ++ post)) (chr :: chars) front.length = false := by
  obtain ⟨first, rest, same, others⟩ := host.written_first
  refine decide_eq_false fun occurs => ?_
  rw [OccursAt, drop_left, same, cons_append, cons_prefix_cons] at occurs
  obtain ⟨rfl, -⟩ := occurs
  simp only [mem_cons, not_mem_nil, or_false] at marker
  obtain rfl | rfl | rfl | rfl := marker
  · exact others.1 rfl
  · exact others.2.1 rfl
  · exact others.2.2.1 rfl
  · exact others.2.2.2 rfl

/-- A host is left to `parse_host`. -/
theorem parseTarget_host (host : Host) (front post : Bytes) (stop : Nat) (data : ConnectionData)
    (allowSpaces : Bool) :
    parseTarget allowSpaces (front ++ (host.written ++ post)) (some (front.length, stop)) data =
      parseHost (front ++ (host.written ++ post)) (front.length, stop) data := by
  simp [parseTarget, pipeStart, host.inputContains_eq_false]

section

variable (front : Bytes) {port : Option Nat} {post : Bytes}
  (ends : ∀ chr ∈ post.head?, hostRaw chr = false) {data : ConnectionData}

include ends

/-- The target of the URI is read back when its host is readable. -/
theorem parseTarget_readable {host : Host} (readable : host.Readable)
    (small : ∀ number ∈ port, number ≤ 65535) (fresh : data.port = none) (allowSpaces : Bool) :
    parseTarget allowSpaces (front ++ (host.written ++ portText port ++ post))
        (some (front.length, front.length + (host.written ++ portText port).length)) data =
      .ok { data with host := some host.text, port } := by
  rw [append_assoc host.written, parseTarget_host, ← append_assoc host.written]
  cases host with
  | name text valid => exact parseHost_readable rfl rfl ends valid readable small fresh
  | ipv6 host =>
    refine parseHost_port rfl rfl ?_ small (endsDigits_of_ends ends) fresh
    rw [if_pos (by simp [Host.written, bracketed])]
    exact parseIpv6_readable readable front port (endsDigits_of_ends ends)

/-- Any other target is refused. -/
theorem parseTarget_refused {host : Host} (unreadable : ¬ host.Readable) (allowSpaces : Bool) :
    ∃ error, parseTarget allowSpaces (front ++ (host.written ++ portText port ++ post))
        (some (front.length, front.length + (host.written ++ portText port).length)) data =
      .error error := by
  rw [append_assoc host.written, parseTarget_host, ← append_assoc host.written]
  cases host with
  | name text valid => exact parseHost_refused rfl rfl ends valid unreadable data
  | ipv6 host =>
    obtain ⟨error, failed⟩ := parseIpv6_refused unreadable front port (endsDigits_of_ends ends)
    refine ⟨error, ?_⟩
    rw [parseHost, if_pos (by simp [Host.written, bracketed]), Host.written, failed]
    rfl

end

end MariadbShell.Uri
