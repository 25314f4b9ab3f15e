import MariadbShell.Storage.UploadedObject

/-!
# Requests of an upload

Which requests an uploader makes depends on the sizes of the data and on the answers alone. The
account of the requests tells which calls fail, and so when an object is created that lacks
data.
-/

namespace MariadbShell.Storage

open List
open ImportTable (Bytes)
open Lib MultipartUploadHelper

/-- The number of bytes in the buffer, whether there is an upload, and the requests made. -/
structure Traffic where
  buffered : Nat := 0
  active : Bool := false
  requests : Nat := 0
deriving DecidableEq, Repr

def Uploader.traffic (state : Uploader) : Traffic :=
  ⟨state.buffer.length, state.active, state.requests⟩

/-- The requests that succeed, of so many from a given one on, up to the first error. -/
def succeeding (answers : Answers) (first : Nat) : Nat → Nat
  | 0 => 0
  | count + 1 => if (answers first).isSome then 0 else succeeding answers (first + 1) count + 1

namespace Traffic

variable (config : Config) (answers : Answers) (traffic : Traffic)

/--
Parts are sent until the rest fits into a part, which is kept for the last one. If one fails,
the upload is cancelled; data that was to be sent together with the buffer stays in it.
-/
def sendParts (toSend : Nat) : Bool × Traffic :=
  let parts := (toSend - 1) / config.partSize
  let sent := succeeding answers traffic.requests parts
  if sent = parts then
    (false, ⟨toSend - parts * config.partSize, true, traffic.requests + parts⟩)
  else
    (true, ⟨if sent = 0 ∧ traffic.buffered ≠ 0 then config.partSize else 0, false,
      traffic.requests + sent + 2⟩)

/-- A call of `append` with so many bytes, and whether it fails. -/
def append (size : Nat) : Bool × Traffic :=
  let toSend := traffic.buffered + size
  if toSend ≤ config.partSize then (false, { traffic with buffered := toSend })
  else if traffic.active then traffic.sendParts config answers toSend
  else
    let created := { traffic with requests := traffic.requests + 1 }
    if (answers traffic.requests).isSome then (true, created)
    else created.sendParts config answers toSend

/-- Calls of `append`, and whether one of them fails. -/
def appendAll (goOn : Bool) : Traffic → List Nat → Bool × Traffic
  | traffic, [] => (false, traffic)
  | traffic, size :: sizes =>
    let (failed, traffic) := traffic.append config answers size
    if failed && !goOn then (true, traffic)
    else
      let (later, traffic) := appendAll goOn traffic sizes
      (failed || later, traffic)

/-- Whether `commit` returns normally. -/
def commits : Bool :=
  if traffic.active then
    (answers traffic.requests).isNone && (answers (traffic.requests + 1)).isNone
  else (answers traffic.requests).isNone

variable {config answers traffic} {toSend : Nat}

theorem sendParts_of_le (some_ : 0 < toSend) (last : toSend ≤ config.partSize) :
    traffic.sendParts config answers toSend = (false, ⟨toSend, true, traffic.requests⟩) := by
  have none_ : (toSend - 1) / config.partSize = 0 := Nat.div_eq_of_lt (by omega)
  simp [sendParts, none_, succeeding]

theorem sendParts_of_lt (more : config.partSize < toSend) :
    traffic.sendParts config answers toSend =
      if (answers traffic.requests).isSome then
        (true, ⟨if traffic.buffered ≠ 0 then config.partSize else 0, false, traffic.requests + 2⟩)
      else
        Traffic.sendParts config answers ⟨0, true, traffic.requests + 1⟩
          (toSend - config.partSize) := by
  have parts : (toSend - 1) / config.partSize =
      (toSend - config.partSize - 1) / config.partSize + 1 := by
    rw [← Nat.add_div_right _ config.positive]
    congr 1
    omega
  have size (parts : Nat) : toSend - (parts + 1) * config.partSize =
      toSend - config.partSize - parts * config.partSize := by
    rw [Nat.add_one_mul, Nat.add_comm, Nat.sub_sub]
  simp only [sendParts, parts, succeeding]
  split
  · simp
  · by_cases all : succeeding answers (traffic.requests + 1)
        ((toSend - config.partSize - 1) / config.partSize) =
          (toSend - config.partSize - 1) / config.partSize
    · simp [all, size]
      omega
    · simp [all]
      omega

end Traffic

namespace MultipartUploader

variable (config : Config) (answers : Answers)

/-- A call of `append` fails, and `commit` returns normally. -/
def CommitsAfterFailure (sizes : List Nat) : Prop :=
  let (failed, traffic) := Traffic.appendAll config answers true {} sizes
  failed = true ∧ traffic.commits answers = true

/-- A write to a compressed file fails, and its destructor closes the object. -/
def ClosesAfterFailure (sizes tail : List Nat) : Prop :=
  let (failed, traffic) := Traffic.appendAll config answers false {} sizes
  let (incomplete, traffic) := traffic.appendAll config answers false tail
  failed = true ∧ incomplete = false ∧ traffic.commits answers = true

/-! ## The requests of the code -/

variable {config answers}

/-- A part that cannot be sent is followed by the request that cancels the upload. -/
theorem sendPart_eq (part : Bytes) {state : Uploader} (active : state.active = true) :
    sendPart answers part state =
      match answers state.requests with
      | none => (.ok (), { state with
          parts := state.parts ++ [part], requests := state.requests + 1 })
      | some error => (.error error, { state with
          active := false, parts := [], requests := state.requests + 2 }) := by
  cases answered : answers state.requests with
  | none => simp [sendPart, Attempt.handle, uploadPart, request, answered]
  | some error =>
    cases cancelled : answers (state.requests + 1) <;>
      simp [sendPart, Attempt.handle, uploadPart, request, answered, maybeAbort, bind, Attempt.bind,
        Attempt.get, active, abort, cancelled, cleanup, Attempt.modify, Attempt.raise, pure,
        Attempt.pure]

theorem nextPart_eq {incoming : Bytes} {state : Uploader}
    (fits : state.buffer.length ≤ config.partSize)
    (more : config.partSize < state.buffer.length + incoming.length) :
    ∃ part rest kept, nextPart config incoming state = (.ok (part, rest), { state with
        buffer := kept }) ∧
      rest.length = state.buffer.length + incoming.length - config.partSize ∧
      kept.length = if state.buffer.length ≠ 0 then config.partSize else 0 := by
  by_cases empty : state.buffer = []
  · refine ⟨incoming.take config.partSize, incoming.drop config.partSize, state.buffer, ?_, ?_, ?_⟩
    · simp only [nextPart, bind, Attempt.bind, Attempt.get, List.isEmpty_iff.mpr empty, if_true]
      rfl
    · simp [empty]
    · simp [empty]
  · obtain ⟨filled, shape⟩ : ∃ filled, filled = state.buffer ++
        incoming.take (config.partSize - state.buffer.length) := ⟨_, rfl⟩
    have full : filled.length = config.partSize := by
      rw [shape, length_append, length_take]
      omega
    refine ⟨filled, incoming.drop (config.partSize - state.buffer.length), filled, ?_, ?_, ?_⟩
    · simp [nextPart, bind, Attempt.bind, Attempt.get, empty, pure, Attempt.pure, Attempt.modify,
        shape]
    · rw [length_drop]
      omega
    · rw [full, if_pos (by simpa using empty)]

/-- How the loop of `append` leaves the uploader, with the data behind the parts. -/
def left : Except Bytes Bytes × Uploader → Bool × Traffic
  | (.ok rest, later) => (false, ⟨later.buffer.length + rest.length, later.active, later.requests⟩)
  | (.error _, later) => (true, later.traffic)

theorem left_sendParts (rounds toSend : Nat) (incoming : Bytes) (state : Uploader)
    (enough : toSend ≤ rounds) (some_ : 0 < toSend) (active : state.active = true)
    (fits : state.buffer.length ≤ config.partSize)
    (count : toSend = state.buffer.length + incoming.length) :
    left (sendParts config answers rounds toSend incoming state) =
      state.traffic.sendParts config answers toSend := by
  induction rounds generalizing toSend incoming state with
  | zero => omega
  | succ rounds ih =>
    by_cases more : config.partSize < toSend
    · obtain ⟨part, rest, kept, selected, restLength, keptLength⟩ :=
        nextPart_eq fits (count ▸ more)
      have sent := @sendPart_eq answers part { state with buffer := kept } active
      have round : sendParts config answers (rounds + 1) toSend incoming state =
          match answers state.requests with
          | none => sendParts config answers rounds (toSend - config.partSize) rest
              { state with buffer := [], parts := state.parts ++ [part],
                           requests := state.requests + 1 }
          | some error => (.error error, { state with
              buffer := kept, active := false, parts := [], requests := state.requests + 2 }) := by
        rw [sendParts, if_pos more]
        simp only [bind, Attempt.bind, selected, sent]
        cases answers state.requests <;> rfl
      rw [round, Traffic.sendParts_of_lt more]
      cases answered : answers state.requests with
      | some error => simp [left, Uploader.traffic, keptLength, answered]
      | none =>
        refine (ih (toSend - config.partSize) rest { state with
          buffer := [], parts := state.parts ++ [part], requests := state.requests + 1 } ?_
          (by omega) active (Nat.zero_le _) ?_).trans ?_
        · have := config.positive
          omega
        · simp [restLength, count]
        · simp [Uploader.traffic, answered, active]
    · have last : toSend ≤ config.partSize := not_lt.mp more
      rw [MultipartUploader.sendParts_of_le _ _ last, Traffic.sendParts_of_le some_ last]
      simp [left, pure, Attempt.pure, active, count, Uploader.traffic]

theorem Kept.holding {lost : Bool} {passed : Bytes} {state : Uploader}
    (kept : Kept config lost passed state) :
    ∃ held, Holding config held state.buffer state.active state.parts := by
  cases lost with
  | false => exact ⟨passed, kept.2⟩
  | true =>
    obtain ⟨held, ready, -⟩ := kept
    exact ⟨held, ready.2⟩

/-- Whether a call fails, and how it leaves the uploader. -/
def traced {Value : Type} : Except Bytes Value × Uploader → Bool × Traffic
  | (.ok _, later) => (false, later.traffic)
  | (.error _, later) => (true, later.traffic)

theorem traced_append (data : Bytes) {state : Uploader}
    (fits : state.buffer.length ≤ config.partSize) :
    traced (append config answers data state) =
      state.traffic.append config answers data.length := by
  obtain ⟨toSend, count⟩ : ∃ toSend, toSend = state.buffer.length + data.length := ⟨_, rfl⟩
  have kept (started : Uploader) : traced ((do
      let rest ← sendParts config answers toSend toSend data
      Attempt.modify fun state => { state with buffer := state.buffer ++ rest } : Uploading Unit)
        started) = left (sendParts config answers toSend toSend data started) := by
    simp only [bind, Attempt.bind]
    rcases sendParts config answers toSend toSend data started with ⟨_ | _, later⟩
    · rfl
    · simp [traced, left, Attempt.modify, Uploader.traffic]
  have whole : append config answers data state = (do
      start config answers toSend
      let rest ← sendParts config answers toSend toSend data
      Attempt.modify fun state => { state with buffer := state.buffer ++ rest } : Uploading Unit)
        state := by
    rw [count]
    rfl
  rw [whole]
  by_cases more : config.partSize < toSend
  · cases active : state.active with
    | true =>
      have started : start config answers toSend state = (.ok (), state) := by
        simp [start, bind, Attempt.bind, Attempt.get, active, pure, Attempt.pure]
      rw [Attempt.bind_ok started, kept, left_sendParts _ _ _ _ le_rfl (by omega) active fits count]
      simp [Traffic.append, Uploader.traffic, active, ← count, more]
    | false =>
      cases answered : answers state.requests with
      | none =>
        have started : start config answers toSend state = (.ok (), { state with
            active := true, requests := state.requests + 1 }) := by
          simp [start, bind, Attempt.bind, Attempt.get, active, more, create, request, answered]
        rw [Attempt.bind_ok started, kept]
        refine (left_sendParts toSend toSend data { state with
          active := true, requests := state.requests + 1 } le_rfl (by omega) rfl fits
          count).trans ?_
        simp [Traffic.append, Uploader.traffic, active, ← count, not_le.mpr more, answered]
        rfl
      | some error =>
        simp [Traffic.append, Uploader.traffic, active, ← count, more, answered, traced, start,
          bind, Attempt.bind, Attempt.get, create, request]
  · have started : start config answers toSend state = (.ok (), state) := by
      simp [start, bind, Attempt.bind, Attempt.get, more, pure, Attempt.pure]
    rw [Attempt.bind_ok started, kept, sendParts_of_le _ _ (not_lt.mp more)]
    simp [Traffic.append, Uploader.traffic, left, pure, Attempt.pure, ← count, more]

theorem tryCommit_traffic {lost : Bool} {passed : Bytes} {state : Uploader}
    (kept : Kept config lost passed state) :
    (tryCommit answers state).1 = .ok (state.traffic.commits answers) := by
  have begun : state.active = true → state.buffer ≠ [] := fun active =>
    (kept.holding.choose_spec.begun active).2
  cases active : state.active with
  | false =>
    cases first : answers state.requests <;>
      simp [tryCommit, commit, finish, Attempt.handle, bind, Attempt.bind, Attempt.get, active,
        upload, request, first, Attempt.modify, maybeAbort, Attempt.raise, pure, Attempt.pure,
        Traffic.commits, Uploader.traffic]
  | true =>
    cases first : answers state.requests <;> cases second : answers (state.requests + 1) <;>
      cases third : answers (state.requests + 1 + 1) <;>
      simp [tryCommit, commit, finish, sendRest, Attempt.handle, bind, Attempt.bind, Attempt.get,
        active, begun active, uploadPart, MultipartUploadHelper.commit, abort, cleanup, request,
        first, second, third, Attempt.modify, maybeAbort, Attempt.raise, pure, Attempt.pure,
        Traffic.commits, Uploader.traffic]

/-- The calls of `append` are followed one by one. -/
theorem appendAll_traffic (goOn : Bool) (pieces : List Bytes) {lost : Bool} {passed : Bytes}
    {state : Uploader} (kept : Kept config lost passed state) :
    ∃ result later, appendAll config answers goOn pieces state = (.ok result, later) ∧
      (result.2, later.traffic) =
        state.traffic.appendAll config answers goOn (pieces.map length) := by
  induction pieces generalizing lost passed state with
  | nil => exact ⟨_, _, rfl, rfl⟩
  | cons data rest ih =>
    obtain ⟨held, holding⟩ := kept.holding
    have call := @traced_append config answers data state holding.fits
    have after := @append_kept config answers lost passed data state kept
    obtain ⟨failed, mid, lost, passed, called, kept, same⟩ : ∃ failed mid lost passed,
        Attempt.handle (do append config answers data; pure false) (fun _ => pure true) state =
          (.ok failed, mid) ∧ Kept config lost passed mid ∧
          (failed, mid.traffic) = state.traffic.append config answers data.length := by
      rw [← call]
      simp only [Attempt.handle, bind, Attempt.bind]
      rcases ran : append config answers data state with ⟨error | value, mid⟩
      · rw [ran] at after
        exact ⟨true, mid, _, _, rfl, after.2, rfl⟩
      · rw [ran] at after
        exact ⟨false, mid, _, _, rfl, after, rfl⟩
    rw [appendAll, Attempt.bind_ok called, map_cons, Traffic.appendAll, ← same]
    dsimp only
    split
    · exact ⟨_, _, rfl, rfl⟩
    · obtain ⟨result, later, ran, traffic⟩ := ih kept
      rw [Attempt.bind_ok ran, ← traffic]
      exact ⟨_, _, rfl, rfl⟩

theorem kept_of_appendAll (goOn : Bool) (pieces : List Bytes) {lost : Bool} {passed : Bytes}
    {state : Uploader} (kept : Kept config lost passed state) :
    ∃ result later, appendAll config answers goOn pieces state = (.ok result, later) ∧
      Kept config (lost || result.2) (passed ++ result.1) later ∧ (result.2, later.traffic) =
        state.traffic.appendAll config answers goOn (pieces.map length) := by
  obtain ⟨result, later, ran, same⟩ := @appendAll_traffic config answers goOn pieces _ _ _ kept
  have after := @appendAll_triple config answers goOn lost passed pieces state kept
  rw [ran] at after
  exact ⟨result, later, ran, after.1, same⟩

theorem tryCommit_eq {lost : Bool} {passed : Bytes} {state : Uploader}
    (kept : Kept config lost passed state) :
    ∃ later, tryCommit answers state = (.ok (state.traffic.commits answers), later) :=
  ⟨_, Prod.ext (tryCommit_traffic kept) rfl⟩

theorem writeObject_traffic (pieces : List Bytes) {outcome : Outcome} {state : Uploader}
    (ran : writeObject config answers pieces {} = (.ok outcome, state)) :
    outcome.failed = true ∧ outcome.committed = true ↔
      CommitsAfterFailure config answers (pieces.map length) := by
  obtain ⟨⟨passed, failed⟩, later, appended, kept, same⟩ :=
    @kept_of_appendAll config answers true pieces false [] {} kept_start
  obtain ⟨final, committed⟩ := @tryCommit_eq config answers _ _ _ kept
  have whole : writeObject config answers pieces {} =
      (.ok ⟨passed, failed, later.traffic.commits answers⟩, final) :=
    (Attempt.bind_ok appended).trans (Attempt.bind_ok committed)
  cases ran.symm.trans whole
  rw [CommitsAfterFailure, ← show _ = Traffic.appendAll config answers true {} _ from same]

theorem compressedFile_traffic (pieces tail : List Bytes) {outcome : Outcome} {state : Uploader}
    (ran : compressedFile config answers pieces tail {} = (.ok outcome, state)) :
    outcome.failed = true ∧ outcome.committed = true ↔
      ClosesAfterFailure config answers (pieces.map length) (tail.map length) := by
  obtain ⟨⟨passed, failed⟩, later, appended, kept, same⟩ :=
    @kept_of_appendAll config answers false pieces false [] {} kept_start
  obtain ⟨⟨rest, incomplete⟩, closed, written, kept, same'⟩ :=
    @kept_of_appendAll config answers false tail _ _ _ kept
  obtain ⟨final, committed⟩ := @tryCommit_eq config answers _ _ _ kept
  have finished (state : Uploader) : ∃ later, maybeAbort answers state = (.ok (), later) := by
    obtain ⟨_, later, ran, -⟩ := (@maybeAbort_triple answers (fun _ _ => True) False).returns
      (⟨trivial, nofun⟩ : True ∧ (False → state.active = true))
    exact ⟨later, ran⟩
  have close : closeFile config answers tail later =
      (.ok (rest, !incomplete && closed.traffic.commits answers),
        if incomplete then closed else final) := by
    rw [closeFile, Attempt.bind_ok written]
    cases incomplete with
    | true => rfl
    | false => exact (Attempt.bind_ok committed).trans (by simp [pure, Attempt.pure])
  obtain ⟨last, aborted⟩ := finished (if incomplete then closed else final)
  have whole : compressedFile config answers pieces tail {} = (.ok ⟨passed ++ rest, failed,
      !incomplete && closed.traffic.commits answers⟩, last) :=
    (Attempt.bind_ok appended).trans ((Attempt.bind_ok close).trans (Attempt.bind_ok aborted))
  cases ran.symm.trans whole
  rw [ClosesAfterFailure, ← show _ = Traffic.appendAll config answers false {} _ from same]
  dsimp only
  rw [← same']
  simp

/--
An object lacks data if and only if it is committed although a call failed, as the sizes of the
data and the answers tell.
-/
theorem intact_unless_committed_after_failure (config : Config) (answers : Answers)
    (pieces tail : List Bytes) :
    (∃ outcome state, writeObject config answers pieces {} = (.ok outcome, state) ∧
      outcome.passed = pieces.flatten ∧
      (Intact outcome state.object ↔
        ¬ CommitsAfterFailure config answers (pieces.map length))) ∧
    (∃ outcome state, compressedFile config answers pieces tail {} = (.ok outcome, state) ∧
      (Intact outcome state.object ↔
        ¬ ClosesAfterFailure config answers (pieces.map length) (tail.map length))) := by
  constructor
  · obtain ⟨outcome, state, run, all, ended, -⟩ :=
      (writeObject_triple pieces).returns (@kept_start config)
    exact ⟨outcome, state, run, all, ended.intact_iff.trans (writeObject_traffic pieces run).not⟩
  · obtain ⟨outcome, state, run, ended⟩ :=
      (compressedFile_triple pieces tail).returns (@kept_start config)
    exact ⟨outcome, state, run,
      ended.intact_iff.trans (compressedFile_traffic pieces tail run).not⟩

/--
The first part cannot be sent, and the destructor of the compressed file creates an object from
the end of the data.
-/
theorem destructor_commits_rest :
    compressedFile ⟨2, by decide⟩ (fun request => if request = 1 then some [] else none)
      [[1, 2, 3]] [[4]] {} =
        (.ok ⟨[1, 2, 3, 4], true, true⟩, { object := some (.single [4]), requests := 4 }) ∧
      ¬ Intact ⟨[1, 2, 3, 4], true, true⟩ (some (.single [4])) := by
  decide

end MultipartUploader

end MariadbShell.Storage
