import MariadbShell.Storage.MultipartUpload

/-!
# Uploaded objects

What an uploader holds between two calls is the data that was passed to it, or less after a
call that failed. The object that `commit` creates is what the uploader holds.
-/

namespace MariadbShell.Storage

open List
open ImportTable (Bytes)
open Lib MultipartUploadHelper
open Attempt (Triple)

def Answers.Fails (answers : Answers) : Prop :=
  ∃ request error, answers request = some error

namespace MultipartUploader

variable (config : Config) {answers : Answers}

/-! ## The state between two calls -/

/--
Data is held in full parts and in a buffer that is not larger than a part. An upload with parts
has something left for its last one.
-/
structure Holding (held buffer : Bytes) (active : Bool) (parts : List Bytes) : Prop where
  fits : buffer.length ≤ config.partSize
  sized : ∀ part ∈ parts, part.length = config.partSize
  idle : active = false → parts = []
  begun : active = true → parts ≠ [] ∧ buffer ≠ []
  held : parts.flatten ++ buffer = held

/-- No object was created. -/
def Ready (held : Bytes) (state : Uploader) : Prop :=
  state.object = none ∧ Holding config held state.buffer state.active state.parts

def Lossy (passed : Bytes) (state : Uploader) : Prop :=
  ∃ held, Ready config held state ∧ held.length < passed.length

/-- The loop of `append` has data for another part, or a part was sent and data is left. -/
structure Sending (passed : Bytes) (toSend : Nat) (incoming buffer : Bytes)
    (parts : List Bytes) : Prop where
  fits : buffer.length ≤ config.partSize
  sized : ∀ part ∈ parts, part.length = config.partSize
  count : toSend = buffer.length + incoming.length
  more : parts ≠ [] ∧ 0 < toSend ∨ config.partSize < toSend
  passed : parts.flatten ++ buffer ++ incoming = passed

def Sends (passed : Bytes) (toSend : Nat) (incoming : Bytes) (state : Uploader) : Prop :=
  state.object = none ∧ state.active = true ∧
    Sending config passed toSend incoming state.buffer state.parts

/-- A part is selected and other data is left behind it. -/
def Selected (passed : Bytes) (toSend : Nat) (part rest : Bytes) (state : Uploader) : Prop :=
  state.object = none ∧ state.active = true ∧ state.buffer.length ≤ config.partSize ∧
    config.partSize < passed.length ∧
    Sending config passed toSend rest [] (state.parts ++ [part])

/-- One request for what fits in a part, otherwise full parts and a last one with the rest. -/
def Shaped : Object → Prop
  | .single body => body.length ≤ config.partSize
  | .multipart parts => config.partSize < parts.flatten.length ∧
      ∃ front last, parts = front ++ [last] ∧ (∀ part ∈ front, part.length = config.partSize) ∧
        1 ≤ last.length ∧ last.length ≤ config.partSize

def Created (held : Bytes) (state : Uploader) : Prop :=
  ∃ object, state.object = some object ∧ object.content = held ∧ Shaped config object

variable {config}

/-! ## The loop of `append` -/

variable {buffer incoming passed held : Bytes} {parts : List Bytes} {toSend : Nat}

section

variable (sending : Sending config passed toSend incoming buffer parts)

include sending

theorem Sending.ready (last : toSend ≤ config.partSize) :
    Holding config passed (buffer ++ incoming) true parts where
  fits := by
    rw [length_append, ← sending.count]
    exact last
  sized := sending.sized
  idle := nofun
  begun _ := by
    rcases sending.more with ⟨sent, left⟩ | more
    · refine ⟨sent, fun nothing => ?_⟩
      have counted := sending.count
      rw [← length_append, nothing, length_nil] at counted
      omega
    · omega
  held := by rw [← append_assoc, sending.passed]

/-- A part of the full size goes to the parts that are sent. -/
theorem Sending.part {part rest : Bytes} (full : part.length = config.partSize)
    (more : config.partSize < toSend) (split : part ++ rest = buffer ++ incoming) :
    Sending config passed (toSend - config.partSize) rest [] (parts ++ [part]) where
  fits := Nat.zero_le _
  sized := by
    intro other member
    rcases mem_append.mp member with sent | last
    · exact sending.sized other sent
    · rw [mem_singleton.mp last, full]
  count := by
    have lengths := congrArg List.length split
    rw [length_append, length_append, ← sending.count] at lengths
    rw [length_nil]
    omega
  more := .inl ⟨by simp, by omega⟩
  passed := by
    rw [← sending.passed, append_assoc parts.flatten, ← split]
    simp

theorem Sending.lt_passed (more : config.partSize < toSend) : config.partSize < passed.length := by
  have counted := sending.count
  rw [← sending.passed, length_append, length_append]
  omega

end

/-- The next part is taken from the buffer and from the incoming data. -/
theorem nextPart_triple (more : config.partSize < toSend) :
    Triple (Sends config passed toSend incoming) (nextPart config incoming)
      (fun (part, rest) => Selected config passed (toSend - config.partSize) part rest)
      (fun _ _ => False) := by
  refine Triple.get_bind fun seen before => ?_
  obtain ⟨none, active, sending⟩ := before
  have counted := sending.count
  split
  · next empty =>
    have nothing : seen.buffer = [] := List.isEmpty_iff.mp empty
    rw [nothing, length_nil, Nat.zero_add] at counted
    rintro state ⟨rfl, -⟩
    refine ⟨none, active, sending.fits, sending.lt_passed more, sending.part ?_ more ?_⟩
    · rw [length_take, ← counted]
      omega
    · rw [take_append_drop, nothing, nil_append]
  · have room := sending.fits
    rintro state ⟨rfl, -⟩
    have full : (state.buffer ++
        incoming.take (config.partSize - state.buffer.length)).length = config.partSize := by
      rw [length_append, length_take]
      omega
    refine ⟨none, active, full.le, sending.lt_passed more, sending.part full more ?_⟩
    rw [append_assoc, take_append_drop]

theorem request_triple {pre : Uploader → Prop} {post : Unit → Uploader → Prop}
    {fails : Bytes → Uploader → Prop} {effect : Uploader → Uploader}
    (ok : ∀ state requests, pre state → post () (effect { state with requests := requests }))
    (error : ∀ error state requests, answers.Fails → pre state →
      fails error { state with requests := requests }) :
    Triple pre (request answers effect) post fails := by
  intro state holds
  unfold request
  cases answered : answers state.requests with
  | none => exact ok state _ holds
  | some raised => exact error raised state _ ⟨_, _, answered⟩ holds

/-- What was sent is forgotten, whether the upload is cancelled or not. -/
theorem maybeAbort_triple (kept : Bytes → Option Object → Prop) (begun : Prop) :
    Triple (fun state => kept state.buffer state.object ∧ (begun → state.active = true))
      (maybeAbort answers)
      (fun _ state => kept state.buffer state.object ∧
        (begun → state.active = false ∧ state.parts = []))
      (fun _ _ => False) := by
  refine Triple.get_bind fun seen before => ?_
  split
  · have aborted : Triple (fun state => state = seen ∧ kept state.buffer state.object ∧
        (begun → state.active = true)) (abort answers)
        (fun _ state => kept state.buffer state.object)
        (fun _ state => kept state.buffer state.object) :=
      request_triple (fun _ _ holds => holds.2.1) fun _ _ _ _ holds => holds.2.1
    exact Triple.bind (Triple.handle aborted fun _ => Triple.value fun _ holds => holds)
      fun _ => Triple.modify fun state holds => ⟨holds, fun _ => ⟨rfl, rfl⟩⟩
  · next inactive =>
    exact Triple.value fun state holds =>
      ⟨holds.2.1, fun started => (inactive (before.2 started)).elim⟩

/-- A part that cannot be sent ends the upload: the buffer is all that is left. -/
theorem sendPart_triple {part rest : Bytes} :
    Triple (Selected config passed toSend part rest) (sendPart answers part)
      (fun _ state => state.object = none ∧ state.active = true ∧
        Sending config passed toSend rest [] state.parts)
      (fun _ state => answers.Fails ∧ Lossy config passed state) := by
  have sent : Triple (Selected config passed toSend part rest)
      (uploadPart answers part)
      (fun _ state => state.object = none ∧ state.active = true ∧
        Sending config passed toSend rest [] state.parts)
      (fun _ state => answers.Fails ∧ Selected config passed toSend part rest state) :=
    request_triple (fun state _ holds => ⟨holds.1, holds.2.1, holds.2.2.2.2⟩)
      fun _ _ _ failed holds => ⟨failed, holds⟩
  refine Triple.handle sent fun error => ?_
  rintro state ⟨failed, nothing, active, fits, less, -⟩
  refine Triple.bind ((maybeAbort_triple (fun buffer object =>
    object = none ∧ buffer.length ≤ config.partSize) True).weaken
    (fun _ holds => holds) (fun _ _ holds => holds) fun _ _ => False.elim)
    (fun _ => Triple.raise ?_) state ⟨⟨nothing, fits⟩, fun _ => active⟩
  rintro later ⟨⟨nothing, fits⟩, forgotten⟩
  obtain ⟨inactive, none⟩ := forgotten trivial
  refine ⟨failed, later.buffer, ⟨nothing, fits, ?_, fun _ => none, ?_, ?_⟩, by omega⟩
  · rw [none]
    nofun
  · rw [inactive]
    nofun
  · rw [none]
    rfl

theorem Sends.ready {state : Uploader} (sends : Sends config passed toSend incoming state)
    (last : toSend ≤ config.partSize) :
    state.object = none ∧
      Holding config passed (state.buffer ++ incoming) state.active state.parts := by
  obtain ⟨nothing, active, sending⟩ := sends
  rw [active]
  exact ⟨nothing, sending.ready last⟩

theorem sendParts_of_le (rounds : Nat) (incoming : Bytes) (last : toSend ≤ config.partSize) :
    sendParts config answers rounds toSend incoming = pure incoming := by
  cases rounds with
  | zero => rfl
  | succ rounds => exact if_neg (not_lt.mpr last)

theorem sendParts_triple (rounds toSend : Nat) (incoming : Bytes) (enough : toSend ≤ rounds) :
    Triple (Sends config passed toSend incoming)
      (sendParts config answers rounds toSend incoming)
      (fun rest state => state.object = none ∧
        Holding config passed (state.buffer ++ rest) state.active state.parts)
      (fun _ state => answers.Fails ∧ Lossy config passed state) := by
  induction rounds generalizing toSend incoming with
  | zero => exact Triple.value fun state sends => sends.ready (by omega)
  | succ rounds ih =>
    unfold sendParts
    split
    · next more =>
      refine Triple.bind ((nextPart_triple more).weaken (fun _ holds => holds)
        (fun _ _ holds => holds) fun _ _ => False.elim) fun (part, rest) => ?_
      refine Triple.bind sendPart_triple fun _ => ?_
      have := config.positive
      exact Triple.bind (Triple.modify fun state sending => sending)
        fun _ => ih (toSend - config.partSize) rest (by omega)
    · next last => exact Triple.value fun state sends => sends.ready (not_lt.mp last)

/-! ## Calls -/

variable {data : Bytes}

theorem Holding.sending {active : Bool} (holding : Holding config held buffer active parts)
    (more : config.partSize < buffer.length + data.length) :
    Sending config (held ++ data) (buffer.length + data.length) data buffer parts :=
  ⟨holding.fits, holding.sized, rfl, .inr more, by rw [holding.held]⟩

/-- More data that fits in the buffer. -/
theorem Holding.append {active : Bool} (holding : Holding config held buffer active parts)
    (small : buffer.length + data.length ≤ config.partSize) :
    Holding config (held ++ data) (buffer ++ data) active parts where
  fits := by rwa [length_append]
  sized := holding.sized
  idle := holding.idle
  begun begun := ⟨(holding.begun begun).1, fun nothing =>
    (holding.begun begun).2 (append_eq_nil_iff.mp nothing).1⟩
  held := by rw [← append_assoc, holding.held]

/-- The multipart upload is created unless there is one. -/
theorem start_triple (more : config.partSize < buffer.length + data.length) :
    Triple (fun state => state.buffer = buffer ∧ Ready config held state)
      (start config answers (buffer.length + data.length))
      (fun _ => Sends config (held ++ data) (buffer.length + data.length) data)
      (fun _ state => answers.Fails ∧ Lossy config (held ++ data) state) := by
  refine Triple.get_bind fun seen before => ?_
  split
  · refine request_triple ?_ ?_
    · rintro state _ ⟨rfl, rfl, nothing, holding⟩
      exact ⟨nothing, rfl, holding.sending more⟩
    · rintro error state _ failed ⟨rfl, rfl, nothing, holding⟩
      refine ⟨failed, held, ⟨nothing, holding⟩, ?_⟩
      have fits := holding.fits
      rw [length_append]
      omega
  · next active =>
    rintro state ⟨rfl, rfl, nothing, holding⟩
    refine ⟨nothing, ?_, holding.sending more⟩
    simpa [more] using active

/-- What an uploader holds grows by the data of a call. If the call fails, then some data is
lost. -/
theorem append_triple (held data : Bytes) :
    Triple (Ready config held) (append config answers data)
      (fun _ => Ready config (held ++ data))
      (fun _ state => answers.Fails ∧ Lossy config (held ++ data) state) := by
  refine Triple.get_bind fun seen before => ?_
  by_cases more : config.partSize < seen.buffer.length + data.length
  · refine Triple.bind ((start_triple more).weaken (fun state same => ⟨by rw [same.1], same.2⟩)
      (fun _ _ holds => holds) fun _ _ failed => failed) fun _ => ?_
    exact Triple.bind (sendParts_triple _ _ data le_rfl) fun rest =>
      Triple.modify fun _ holding => holding
  · have idle : Triple (fun state => state = seen ∧ Ready config held state)
        (start config answers (seen.buffer.length + data.length))
        (fun _ state => state = seen ∧ Ready config held state)
        (fun _ state => answers.Fails ∧ Lossy config (held ++ data) state) := by
      refine Triple.get_bind fun other _ => ?_
      rw [if_neg fun both => more both.2]
      exact Triple.value fun _ same => same.2
    refine Triple.bind idle fun _ => ?_
    rw [sendParts_of_le _ data (not_lt.mp more)]
    rintro state ⟨rfl, nothing, holding⟩
    exact ⟨nothing, holding.append (not_lt.mp more)⟩

/-! ## The object -/

theorem Holding.shaped_multipart (holding : Holding config held buffer true parts) :
    Shaped config (.multipart (parts ++ [buffer])) := by
  obtain ⟨sent, left⟩ := holding.begun rfl
  have filled : 0 < buffer.length := length_pos_iff.mpr left
  refine ⟨?_, parts, buffer, rfl, holding.sized, filled, holding.fits⟩
  obtain ⟨part, member⟩ := exists_mem_of_ne_nil parts sent
  have inside : part.length ≤ parts.flatten.length := (sublist_flatten_of_mem member).length_le
  rw [holding.sized part member] at inside
  rw [flatten_append, flatten_singleton, length_append]
  omega

/-- The buffer becomes the last part. -/
theorem sendRest_triple {seen : Uploader} (ready : Ready config held seen)
    (active : seen.active = true) :
    Triple (fun state => state = seen) (sendRest answers)
      (fun _ state => state.object = none ∧ state.parts = seen.parts ++ [seen.buffer])
      (fun _ state => answers.Fails ∧ state.object = none) := by
  refine Triple.get_bind fun other same => ?_
  rw [same, if_neg fun empty => (ready.2.begun active).2 (List.isEmpty_iff.mp empty)]
  refine request_triple ?_ ?_
  · rintro state _ ⟨-, rfl⟩
    exact ⟨ready.1, rfl⟩
  · rintro _ state _ failed ⟨-, rfl⟩
    exact ⟨failed, ready.1⟩

theorem finish_triple (held : Bytes) :
    Triple (Ready config held) (finish answers) (fun _ => Created config held)
      (fun _ state => answers.Fails ∧ state.object = none) := by
  refine Triple.get_bind fun seen ready => ?_
  split
  · next active =>
    refine Triple.bind ((sendRest_triple ready active).weaken (fun _ same => same.1)
      (fun _ _ sent => sent) fun _ _ failed => failed) fun _ => ?_
    have committed : Triple (fun state => state.object = none ∧
          state.parts = seen.parts ++ [seen.buffer])
        (MultipartUploadHelper.commit answers)
        (fun _ state => state.object = some (.multipart (seen.parts ++ [seen.buffer])))
        (fun _ state => answers.Fails ∧ state.object = none) :=
      request_triple (fun state _ sent => by rw [sent.2])
        fun _ _ _ failed sent => ⟨failed, sent.1⟩
    refine Triple.bind committed fun _ => Triple.modify fun state created =>
      ⟨_, created, ?_, ?_⟩
    · rw [Object.content, flatten_append, flatten_singleton]
      exact ready.2.held
    · have holding := ready.2
      rw [active] at holding
      exact holding.shaped_multipart
  · next inactive =>
    refine request_triple ?_ fun _ _ _ failed same => ⟨failed, same.2.1⟩
    rintro state _ ⟨rfl, -⟩
    have none := ready.2.idle (Bool.eq_false_iff.mpr inactive)
    refine ⟨_, rfl, ?_, ready.2.fits⟩
    rw [← ready.2.held, none]
    rfl

/-- If `commit` fails, then no object is created. -/
theorem commit_triple (held : Bytes) :
    Triple (Ready config held) (commit answers) (fun _ => Created config held)
      (fun _ state => answers.Fails ∧ state.object = none) := by
  refine Triple.handle (Triple.bind (finish_triple held) fun _ =>
    Triple.modify fun state created => created) fun error => ?_
  rintro state ⟨failed, nothing⟩
  exact Triple.bind ((maybeAbort_triple (fun _ object => object = none) False).weaken
    (fun _ holds => holds) (fun _ _ holds => holds) fun _ _ => False.elim)
    (fun _ => Triple.raise fun _ holds => ⟨failed, holds.1⟩) state ⟨nothing, nofun⟩

/-! ## Writers -/

/-- The uploader holds all data that was passed to it, or less if a call failed. -/
def Kept (config : Config) (lost : Bool) (passed : Bytes) (state : Uploader) : Prop :=
  if lost then Lossy config passed state else Ready config passed state

theorem Lossy.append {more : Bytes} {state : Uploader} (lossy : Lossy config (held ++ more) state)
    (less : held.length < passed.length) :
    Lossy config (passed ++ more) state := by
  obtain ⟨rest, ready, fewer⟩ := lossy
  refine ⟨rest, ready, ?_⟩
  rw [length_append] at fewer ⊢
  omega

theorem append_kept (lost : Bool) (passed data : Bytes) :
    Triple (Kept config lost passed) (append config answers data)
      (fun _ => Kept config lost (passed ++ data))
      (fun _ state => answers.Fails ∧ Kept config true (passed ++ data) state) := by
  cases lost with
  | false => exact append_triple passed data
  | true =>
    rintro state ⟨held, ready, less⟩
    refine (append_triple held data).weaken (fun _ ready => ready) ?_ ?_ state ready
    · rintro _ later grown
      refine ⟨held ++ data, grown, ?_⟩
      rw [length_append, length_append]
      omega
    · rintro _ later ⟨failed, lossy⟩
      exact ⟨failed, lossy.append less⟩

/-- Nothing is lost if and only if no call failed. -/
theorem appendAll_triple (goOn lost : Bool) (passed : Bytes) (pieces : List Bytes) :
    Triple (Kept config lost passed) (appendAll config answers goOn pieces)
      (fun (more, failed) state => Kept config (lost || failed) (passed ++ more) state ∧
        (failed = true → answers.Fails) ∧
        (failed = false ∨ goOn = true → more = pieces.flatten))
      (fun _ _ => False) := by
  induction pieces generalizing lost passed with
  | nil =>
    refine Triple.value fun state kept => ⟨?_, nofun, fun _ => rfl⟩
    rwa [Bool.or_false, append_nil]
  | cons data rest ih =>
    have called : Triple (Kept config lost passed)
        (Attempt.handle (do append config answers data; pure false) fun _ => pure true)
        (fun failed state => Kept config (lost || failed) (passed ++ data) state ∧
          (failed = true → answers.Fails)) (fun _ _ => False) := by
      refine Triple.handle (Triple.bind (append_kept lost passed data) fun _ =>
        Triple.value fun state kept => ⟨?_, nofun⟩) fun _ =>
        Triple.value fun state raised => ⟨?_, fun _ => raised.1⟩
      · rwa [Bool.or_false]
      · rw [Bool.or_true]
        exact raised.2
    refine Triple.bind called fun failed => ?_
    split
    · next stopped =>
      obtain ⟨rfl, rfl⟩ : failed = true ∧ goOn = false := by simpa using stopped
      exact Triple.value fun state kept => ⟨kept.1, fun _ => kept.2 rfl, nofun⟩
    · next goes =>
      refine Triple.given fun fails => Triple.bind (ih (lost || failed) (passed ++ data))
        fun (more, later) => Triple.value ?_
      rintro final ⟨kept, fails_later, all⟩
      refine ⟨?_, fun either => ?_, fun complete => ?_⟩
      · rwa [← Bool.or_assoc, ← append_assoc]
      · rcases (Bool.or_eq_true _ _).mp either with first | second
        · exact fails first
        · exact fails_later second
      · rw [all ?_, flatten_cons]
        rcases complete with none | on
        · exact .inl (Bool.or_eq_false_iff.mp none).2
        · exact .inr on

/-- What is known of the object after `commit` was called, or not. -/
structure Ended (config : Config) (lost : Bool) (passed : Bytes) (committed : Bool)
    (object : Option Object) : Prop where
  nothing : committed = false → object = none
  created : committed = true →
    ∃ made, object = some made ∧ Shaped config made ∧ (made.content = passed ↔ lost = false)

theorem commit_kept (lost : Bool) (passed : Bytes) :
    Triple (Kept config lost passed) (commit answers)
      (fun _ state => Ended config lost passed true state.object)
      (fun _ state => Ended config lost passed false state.object ∧ answers.Fails) := by
  cases lost with
  | false =>
    refine (commit_triple passed).weaken (fun _ ready => ready) ?_ ?_
    · rintro _ state ⟨object, made, same, shaped⟩
      exact ⟨nofun, fun _ => ⟨object, made, shaped, iff_of_true same rfl⟩⟩
    · rintro _ state ⟨failed, nothing⟩
      exact ⟨⟨fun _ => nothing, nofun⟩, failed⟩
  | true =>
    rintro state ⟨held, ready, less⟩
    refine (commit_triple held).weaken (fun _ ready => ready) ?_ ?_ state ready
    · rintro _ state ⟨object, made, rfl, shaped⟩
      refine ⟨nofun, fun _ => ⟨object, made, shaped, iff_of_false (fun same => ?_) nofun⟩⟩
      rw [same] at less
      exact less.false
    · rintro _ state ⟨failed, nothing⟩
      exact ⟨⟨fun _ => nothing, nofun⟩, failed⟩

theorem tryCommit_triple (lost : Bool) (passed : Bytes) :
    Triple (Kept config lost passed) (tryCommit answers)
      (fun committed state => Ended config lost passed committed state.object ∧
        (committed = false → answers.Fails))
      (fun _ _ => False) :=
  Triple.handle (Triple.bind (commit_kept lost passed) fun _ =>
    Triple.value fun _ ended => ⟨ended, nofun⟩) fun _ =>
      Triple.value fun _ ended => ⟨ended.1, fun _ => ended.2⟩

theorem kept_start : Kept config false [] {} :=
  ⟨rfl, Nat.zero_le _, nofun, fun _ => rfl, nofun, rfl⟩

theorem writeObject_triple (pieces : List Bytes) :
    Triple (Kept config false []) (writeObject config answers pieces)
      (fun outcome state => outcome.passed = pieces.flatten ∧
        Ended config outcome.failed outcome.passed outcome.committed state.object ∧
        (outcome.failed = true ∨ outcome.committed = false → answers.Fails))
      (fun _ _ => False) := by
  refine Triple.bind (appendAll_triple true false [] pieces) fun (passed, failed) => ?_
  refine Triple.given fun ⟨fails, all⟩ => Triple.bind (tryCommit_triple failed passed)
    fun committed => Triple.value fun state ended => ⟨all (.inr rfl), ended.1, ?_⟩
  rintro (failed | open_)
  · exact fails failed
  · exact ended.2 open_

theorem closeFile_triple (lost : Bool) (passed : Bytes) (tail : List Bytes) :
    Triple (Kept config lost passed) (closeFile config answers tail)
      (fun (rest, committed) state =>
        Ended config lost (passed ++ rest) committed state.object)
      (fun _ _ => False) := by
  refine Triple.bind (appendAll_triple false lost passed tail) fun (rest, failed) => ?_
  cases failed with
  | true =>
    rintro state ⟨kept, -⟩
    rw [Bool.or_true] at kept
    obtain ⟨held, ready, -⟩ := kept
    exact ⟨fun _ => ready.1, nofun⟩
  | false =>
    simp only [Bool.or_false]
    exact Triple.given fun _ => Triple.bind (tryCommit_triple lost (passed ++ rest))
      fun committed => Triple.value fun state ended => ended.1

theorem compressedFile_triple (pieces tail : List Bytes) :
    Triple (Kept config false []) (compressedFile config answers pieces tail)
      (fun outcome state =>
        Ended config outcome.failed outcome.passed outcome.committed state.object)
      (fun _ _ => False) := by
  refine Triple.bind (appendAll_triple false false [] pieces) fun (passed, failed) => ?_
  refine Triple.given fun _ => Triple.bind (closeFile_triple failed passed tail)
    fun (rest, committed) => ?_
  refine Triple.bind ((maybeAbort_triple (fun _ => Ended config failed (passed ++ rest) committed)
    False).weaken (fun _ ended => ⟨ended, nofun⟩) (fun _ _ kept => kept.1)
    fun _ _ => False.elim) fun _ => Triple.value fun state ended => ended

/-- The object is complete if `commit` returned normally, and otherwise there is none. -/
def Intact (outcome : Outcome) (object : Option Object) : Prop :=
  if outcome.committed then object.map Object.content = some outcome.passed else object = none

instance (outcome : Outcome) (object : Option Object) : Decidable (Intact outcome object) := by
  unfold Intact
  infer_instance

theorem Ended.intact_iff {outcome : Outcome} {object : Option Object}
    (ended : Ended config outcome.failed outcome.passed outcome.committed object) :
    Intact outcome object ↔ ¬ (outcome.failed = true ∧ outcome.committed = true) := by
  unfold Intact
  cases committed : outcome.committed with
  | false => simp [ended.nothing committed]
  | true =>
    obtain ⟨made, rfl, -, same⟩ := ended.created committed
    simpa using same

/--
If every request succeeds, the object is the data that was passed, in full parts and a last
one, or in a single request if it fits in a part.
-/
theorem object_of_successful_requests (config : Config) (pieces : List Bytes) :
    ∃ state object,
      writeObject config (fun _ => none) pieces {} = (.ok ⟨pieces.flatten, false, true⟩, state) ∧
      state.object = some object ∧ object.content = pieces.flatten ∧ Shaped config object ∧
      ((∃ body, object = .single body) ↔ pieces.flatten.length ≤ config.partSize) := by
  obtain ⟨outcome, state, run, all, ended, fails⟩ :=
    (writeObject_triple pieces).returns (@kept_start config)
  have never : ¬ Answers.Fails fun _ => none := fun ⟨_, _, failed⟩ => nomatch failed
  have succeeded : outcome.failed = false :=
    Bool.eq_false_iff.mpr fun failed => never (fails (.inl failed))
  have committed : outcome.committed = true :=
    Bool.not_eq_false _ ▸ fun none => never (fails (.inr none))
  obtain ⟨object, made, shaped, same⟩ := ended.created committed
  have same : object.content = pieces.flatten := (same.mpr succeeded).trans all
  refine ⟨state, object, ?_, made, same, shaped, ?_⟩
  · rw [run, ← all, ← succeeded, ← committed]
  · rw [← same]
    cases object with
    | single body => exact iff_of_true ⟨body, rfl⟩ shaped
    | multipart parts => exact iff_of_false nofun (not_le.mpr shaped.1)

end MultipartUploader

end MariadbShell.Storage
