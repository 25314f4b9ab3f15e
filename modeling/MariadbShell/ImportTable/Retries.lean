import MariadbShell.ImportTable.Transactions

/-!
# Rolled back statements

A worker sends a file, or a byte range of it, with one statement for each transaction. When a
statement is rolled back, the worker returns to its start and sends the same bytes again,
unless it has waited too long already. The committed statements hold the bytes of the file,
each of them once.
-/

namespace MariadbShell.ImportTable

open List Lib.MachineInt

/-! ## The worker -/

structure FileImportInfo where
  file : SourceFile
  rangeRead : Bool
  range : UInt64 × UInt64

def FileImportInfo.requested (entry : FileImportInfo) : Bytes :=
  if entry.rangeRead then
    (entry.file.bytes.drop entry.range.1.toNat).take (entry.range.2.toNat - entry.range.1.toNat)
  else entry.file.bytes.drop entry.range.1.toNat

/-- The state of the read callback. -/
structure FileInfo where
  buffer : TransactionBuffer
  rangeRead : Bool
  bytesLeft : Nat

namespace FileInfo

/-- An entry that was taken from the queue; a byte range ignores the transaction limit. -/
def ofImport (dialect : Dialect) (limit : UInt64) (entry : FileImportInfo) : FileInfo where
  buffer := TransactionBuffer.create dialect entry.file (if entry.rangeRead then 0 else limit)
    entry.range.1.toNat
  rangeRead := entry.rangeRead
  bytesLeft := if entry.rangeRead then (entry.range.2 - entry.range.1).toNat else 0

/-- The read callback of the client library, which counts down the bytes of a range. -/
def read (info : FileInfo) (length : UInt32) : Option Bytes × FileInfo :=
  let length :=
    if info.rangeRead then UInt32.ofNat (min length.toNat info.bytesLeft) else length
  match localInfileRead info.buffer length with
  | (none, buffer) => (none, { info with buffer })
  | (some copied, buffer) =>
    (some copied,
      { info with
        buffer
        bytesLeft :=
          if info.rangeRead then info.bytesLeft - copied.length else info.bytesLeft })

/-- The bytes of a statement that is not rolled back. -/
def query (sizes : Nat → UInt32) : Nat → FileInfo → Nat → Option (Bytes × FileInfo × Nat)
  | 0, _, _ => none
  | fuel + 1, info, call =>
    match info.read (sizes call) with
    | (none, _) => none
    | (some [], next) => some ([], next, call + 1)
    | (some copied, next) =>
      match query sizes fuel next (call + 1) with
      | none => none
      | some (transaction, final, lastCall) => some (copied ++ transaction, final, lastCall)

/-- A statement that the server rolls back after some reads, or when it has got all its data. -/
def rolledBack (sizes : Nat → UInt32) : Nat → FileInfo → Nat → Option (FileInfo × Nat)
  | 0, info, call => some (info, call)
  | reads + 1, info, call =>
    match info.read (sizes call) with
    | (none, _) => none
    | (some [], next) => some (next, call + 1)
    | (some (_ :: _), next) => rolledBack sizes reads next (call + 1)

/-- The time that a worker waits in all for statements that are rolled back. -/
def maxDeadlockRetryTimeMs : Nat := 30000

structure Backoff where
  sleepTimeMs : Nat := 200
  totalSleepTimeMs : Nat := 0
deriving DecidableEq, Repr

/-- The wait before the next attempt; the time is doubled, within the total. -/
def Backoff.wait (backoff : Backoff) : Backoff :=
  let sleepTime :=
    if maxDeadlockRetryTimeMs < backoff.totalSleepTimeMs + backoff.sleepTimeMs then
      maxDeadlockRetryTimeMs - backoff.totalSleepTimeMs
    else backoff.sleepTimeMs
  ⟨sleepTime * 2, backoff.totalSleepTimeMs + sleepTime⟩

/--
The attempts of a statement. The list has the number of reads of each attempt that is rolled
back; the attempt after these is committed.
-/
def attempts (sizes : Nat → UInt32) (fuel retryBytesLeft : Nat) :
    List Nat → Backoff → FileInfo → Nat → Option (Bytes × FileInfo × Nat)
  | [], _, info, call => query sizes fuel info call
  | reads :: rollbacks, backoff, info, call =>
    match rolledBack sizes reads info call with
    | none => none
    | some (failed, nextCall) =>
      if backoff.totalSleepTimeMs < maxDeadlockRetryTimeMs then
        match failed.buffer.tryRewindForRetry with
        | (false, _) => none
        | (true, buffer) =>
          attempts sizes fuel retryBytesLeft rollbacks backoff.wait
            { failed with buffer, bytesLeft := retryBytesLeft } nextCall
      else none

/-- The statements of a file that were committed, until there is no more data. -/
def load (sizes : Nat → UInt32) (rollbacks : Nat → List Nat) :
    Nat → Nat → FileInfo → Nat → Option (List Bytes)
  | 0, _, _, _ => none
  | fuel + 1, statement, info, call =>
    match attempts sizes fuel info.bytesLeft (rollbacks statement) {}
        { info with buffer := info.buffer.markRetryPoint } call with
    | none => none
    | some (transaction, next, nextCall) =>
      if next.buffer.flushDone.1 then
        match load sizes rollbacks fuel (statement + 1)
            { next with buffer := next.buffer.flushDone.2 } nextCall with
        | none => none
        | some transactions => some (transaction :: transactions)
      else some [transaction]

/-- The bytes that are still to be sent. -/
def window (info : FileInfo) : Bytes :=
  if info.rangeRead then info.buffer.unsent.take info.bytesLeft else info.buffer.unsent

end FileInfo

/-! ## What a request leaves as it is -/

variable {file : SourceFile}

/-- A read of a healthy file, whatever its size. -/
theorem SourceFile.read_any (healthy : file.Healthy) (count : Nat) :
    ∃ copied next, file.read count = (some copied, next) ∧ next.Healthy ∧
      file.rest = copied ++ next.rest ∧ copied.length ≤ count ∧
      (copied = [] → count = 0 ∨ next.rest = []) := by
  obtain ⟨copied, next, result, healthyNext⟩ := read_healthy healthy count
  have within : copied.length ≤ count := length_read_le (congrArg Prod.fst result)
  refine ⟨copied, next, result, healthyNext, read_split result, within, fun empty => ?_⟩
  rcases Nat.eq_zero_or_pos count with zero | positive
  · exact .inl zero
  · exact .inr ((read_some positive result).2.2.2.2 empty)

namespace TransactionBuffer

/-- A buffer that does not split the file reads from it directly, and buffers nothing. -/
theorem kept_localInfileRead {buffer next : TransactionBuffer} {length : UInt32}
    {copied : Option Bytes} (direct : buffer.Direct)
    (answer : localInfileRead buffer length = (copied, next)) : Kept buffer next := by
  have kept : Kept buffer (buffer.read length).2 := by
    unfold read
    split
    · next disabled =>
      cases result : buffer.file.read length.toNat with
      | mk copied file =>
        have appended := kept_append result
        refine ⟨rfl, rfl, appended.bytes_eq, appended.serve_eq, appended.seekable_eq, rfl, rfl,
          fun anchored => ?_⟩
        simp only [Anchored, unsent, position, direct disabled, nil_append,
          length_nil, Nat.sub_zero]
        exact ⟨Nat.zero_le _, rfl⟩
    · exact kept_readPasses _ _ _
  have cases := localInfileRead_snd buffer length
  rw [answer] at cases
  rcases cases with rfl | rfl
  · exact Kept.refl next
  · exact kept

/-- The retry point of a seekable file is its current position. -/
theorem markRetryPoint_eq {buffer : TransactionBuffer} (seekable : buffer.file.seekable = true) :
    buffer.markRetryPoint =
      { buffer with retryOffset := buffer.position, retryPointValid := true } := by
  simp only [markRetryPoint, SourceFile.tell, seekable, if_true, position]

theorem Kept.rewoundTo {buffer failed : TransactionBuffer} (kept : Kept buffer failed)
    (offset : Nat) : Kept buffer (failed.rewoundTo offset) :=
  { kept with anchored := fun _ => ⟨Nat.zero_le _, rfl⟩ }

/-- From its first byte on, a buffer of the same load has the same bytes to send. -/
theorem Kept.unsent_rewoundTo {buffer failed : TransactionBuffer} (kept : Kept buffer failed)
    (anchored : buffer.Anchored) (place : failed.retryOffset = buffer.position) :
    (failed.rewoundTo failed.retryOffset).unsent = buffer.unsent := by
  rw [anchored.2, ← kept.bytes_eq, ← place]
  rfl

end TransactionBuffer

/-! ## Attempts -/

namespace FileInfo

open SubChunking TransactionBuffer FileInfo Dialect SourceFile Option

/-- A statement in progress, of which `sent` was sent. -/
inductive Sending (info : FileInfo) (sent : Bytes) : Prop where
  | limited (whole : info.rangeRead = false) (core : Core info.buffer sent)
      (phase : Phase info.buffer sent)
  | unlimited (disabled : info.buffer.maxTrxSize = 0) (direct : info.buffer.data = [])
      (healthy : info.buffer.file.Healthy)

/-- A statement got all of its data: there is no more data, or it is not empty unless it stalls. -/
def Ended (info : FileInfo) (sent : Bytes) : Prop :=
  (info.buffer.flushDone.1 = false ∧ info.window = []) ∨
    (info.buffer.flushDone.1 = true ∧ (sent = [] → Narrowed info.buffer))

/-- The bytes `copied` of a statement were sent, after `sent`. -/
structure Advance (info : FileInfo) (sent copied : Bytes) (next : FileInfo) : Prop where
  sending : Sending next (sent ++ copied)
  window_eq : copied ++ next.window = info.window
  rangeRead_eq : next.rangeRead = info.rangeRead
  kept : Kept info.buffer next.buffer

theorem Advance.trans {first second third : FileInfo} {sent copied later : Bytes}
    (before : Advance first sent copied second)
    (after : Advance second (sent ++ copied) later third) :
    Advance first sent (copied ++ later) third := by
  refine ⟨?_, ?_, after.rangeRead_eq.trans before.rangeRead_eq, before.kept.trans after.kept⟩
  · rw [← append_assoc]
    exact after.sending
  · rw [append_assoc, after.window_eq]
    exact before.window_eq

variable {info : FileInfo}

theorem window_whole (whole : info.rangeRead = false) : info.window = info.buffer.unsent := by
  rw [window, whole, if_neg Bool.false_ne_true]

/-- A request is answered with the next bytes, or with none at the end of the statement. -/
def Answers (info : FileInfo) (sent : Bytes) (length : UInt32) : Prop :=
  ∃ copied next, info.read length = (some copied, next) ∧ Advance info sent copied next ∧
    (copied = [] → Ended next sent)

variable {sent : Bytes} {length : UInt32}

/-- A statement of a file that is split into transactions. -/
theorem read_limited (whole : info.rangeRead = false)
    (core : Core info.buffer sent) (phase : Phase info.buffer sent) (wide : 2 ≤ length.toNat)
    (short : length.toNat < 2 ^ 31) : Answers info sent length := by
  obtain ⟨copied, next, answer, spec⟩ := localInfileRead_spec core phase wide short
  have kept := kept_localInfileRead (fun disabled => absurd disabled core.enabled) answer
  refine ⟨copied, { info with buffer := next }, ?_,
    ⟨.limited whole spec.core spec.phase, ?_, rfl, kept⟩, fun empty => ?_⟩
  · simp only [read, whole, Bool.false_eq_true, if_false, answer]
  · rw [window_whole whole, @window_whole { info with buffer := next } whole]
    exact spec.unsent_eq
  · cases more : next.flushDone.1 with
    | false =>
      refine .inl ⟨more, ?_⟩
      rw [@window_whole { info with buffer := next } whole]
      exact spec.core.unsent_of_finished more
    | true =>
      have ends := (finished_transaction spec.core spec.phase (spec.finished empty)).2
      rw [empty, append_nil] at ends
      refine .inr ⟨more, fun nothing => ?_⟩
      rcases ends with endsRow | ended | narrowed
      · rw [nothing] at endsRow
        cases endsRow
      · exact absurd ended (not_atEnd_of_more more)
      · exact narrowed

/-- The size of a request within the bytes that are left of a range. -/
theorem requestSize (info : FileInfo) (length : UInt32) :
    (if info.rangeRead then UInt32.ofNat (min length.toNat info.bytesLeft) else length).toNat =
      if info.rangeRead then min length.toNat info.bytesLeft else length.toNat := by
  have bounded := length.toNat_lt
  split
  · exact UInt32.toNat_ofNat_of_lt' (Nat.lt_of_le_of_lt (Nat.min_le_left _ _) bounded)
  · rfl

/-- A statement of a file or a byte range that is sent in one transaction. -/
theorem read_unlimited (sent : Bytes) (disabled : info.buffer.maxTrxSize = 0)
    (direct : info.buffer.data = []) (healthy : info.buffer.file.Healthy)
    (positive : 0 < length.toNat) (short : length.toNat < 2 ^ 31) :
    Answers info sent length := by
  have size := info.requestSize length
  generalize request_eq :
    (if info.rangeRead then UInt32.ofNat (min length.toNat info.bytesLeft) else length) =
      request at size
  obtain ⟨copied, file, result, healthyNext, unread, within, exhausted⟩ :=
    read_any healthy request.toNat
  have atMost : request.toNat ≤ length.toNat := by
    rw [size]
    split <;> omega
  have answer : localInfileRead info.buffer request = (some copied, { info.buffer with file }) := by
    have reported : ¬ toInt32 (copied.length : Int) < 0 := by
      rw [toInt32_of_range (by omega) (by omega)]
      omega
    have pending : info.buffer.flushPending = false := by
      simp only [flushPending, disabled, ne_eq, not_true_eq_false, false_and, decide_false]
    unfold localInfileRead
    rw [pending, if_neg Bool.false_ne_true, TransactionBuffer.read, if_pos disabled, result]
    exact if_neg reported
  have kept := kept_localInfileRead (fun _ => direct) answer
  generalize next_eq : ({ info with
      buffer := { info.buffer with file }
      bytesLeft := if info.rangeRead then info.bytesLeft - copied.length else info.bytesLeft } :
        FileInfo) = next
  have window_eq : copied ++ next.window = info.window := by
    rw [← next_eq]
    simp only [window, unsent, direct, nil_append, unread]
    split
    · next ranged =>
      rw [if_pos ranged] at size
      have inRange : copied.length ≤ info.bytesLeft :=
        Nat.le_trans within (size ▸ Nat.min_le_right _ _)
      rw [take_append, take_of_length_le inRange]
    · rfl
  refine ⟨copied, next, ?_, ⟨?_, window_eq, ?_, ?_⟩, fun empty => .inl ⟨?_, ?_⟩⟩
  · rw [← next_eq]
    simp only [read, request_eq, answer]
  · rw [← next_eq]
    exact .unlimited disabled direct healthyNext
  · rw [← next_eq]
  · rw [← next_eq]
    exact kept
  · rw [← next_eq]
    simp only [flushDone, disabled, ne_eq, not_true_eq_false, false_and, decide_false]
  · have same : next.window = info.window := by
      rw [← window_eq, empty, nil_append]
    rw [same, window, unsent, direct, nil_append, unread, empty, nil_append]
    split
    · next ranged =>
      rw [if_pos ranged] at size
      rcases exhausted empty with nothing | ended
      · have zero : info.bytesLeft = 0 := by omega
        rw [zero, take_zero]
      · rw [ended, take_nil]
    · next whole =>
      rw [if_neg whole] at size
      exact (exhausted empty).resolve_left (by omega)

theorem Sending.read (sending : Sending info sent) (wide : 2 ≤ length.toNat)
    (short : length.toNat < 2 ^ 31) : Answers info sent length := by
  cases sending with
  | limited whole core phase => exact read_limited whole core phase wide short
  | unlimited disabled direct healthy =>
    exact read_unlimited sent disabled direct healthy (by omega) short

variable {sizes : Nat → UInt32}

/-- A statement that is not rolled back gets its data, however much fuel it is given. -/
theorem Sending.query (sizesOk : ReadSizes sizes) {info : FileInfo} (sending : Sending info sent)
    (call : Nat) :
    ∃ rest next nextCall,
      (∀ fuel, info.window.length < fuel →
        query sizes fuel info call = some (rest, next, nextCall)) ∧
      Advance info sent rest next ∧ Ended next (sent ++ rest) := by
  induction size : info.window.length using Nat.strong_induction_on
    generalizing info sent call with
  | _ bound ih =>
    obtain ⟨copied, next, answer, advance, ended⟩ := sending.read (sizesOk call).1 (sizesOk call).2
    cases copied with
    | nil =>
      refine ⟨[], next, call + 1, ?_, advance, ?_⟩
      · rintro (- | fuel) enough
        · cases enough
        simp only [FileInfo.query, answer]
      · rw [append_nil]
        exact ended rfl
    | cons first others =>
      have shorter : next.window.length < bound := by
        have moved := congrArg List.length advance.window_eq
        rw [length_append, length_cons, size] at moved
        omega
      obtain ⟨rest, final, finalCall, runs, later, endedFinal⟩ :=
        ih next.window.length shorter advance.sending (call + 1) rfl
      rw [append_assoc] at endedFinal
      refine ⟨first :: others ++ rest, final, finalCall, ?_, advance.trans later, endedFinal⟩
      rintro (- | fuel) enough
      · cases enough
      simp only [FileInfo.query, answer, runs fuel (by omega)]

/-- An attempt that is rolled back leaves a buffer of the same load. -/
theorem Sending.rolledBack (sizesOk : ReadSizes sizes) (reads : Nat) {info : FileInfo}
    (sending : Sending info sent) (call : Nat) :
    ∃ failed nextCall, rolledBack sizes reads info call = some (failed, nextCall) ∧
      failed.rangeRead = info.rangeRead ∧ Kept info.buffer failed.buffer := by
  induction reads generalizing info sent call with
  | zero => exact ⟨info, call, rfl, rfl, Kept.refl _⟩
  | succ reads ih =>
    obtain ⟨copied, next, answer, advance, -⟩ := sending.read (sizesOk call).1 (sizesOk call).2
    unfold FileInfo.rolledBack
    rw [answer]
    cases copied with
    | nil => exact ⟨next, call + 1, rfl, advance.rangeRead_eq, advance.kept⟩
    | cons first others =>
      obtain ⟨failed, nextCall, result, sameRange, kept⟩ := ih advance.sending (call + 1)
      exact ⟨failed, nextCall, result, sameRange.trans advance.rangeRead_eq,
        advance.kept.trans kept⟩

/-- Nothing was sent of the current statement. -/
inductive Fresh (info : FileInfo) : Prop where
  | limited (whole : info.rangeRead = false) (core : Core info.buffer [])
      (noEnd : info.buffer.trxEndOffset = 0) (noPart : info.buffer.partialRowSent = false)
  | unlimited (disabled : info.buffer.maxTrxSize = 0) (direct : info.buffer.data = [])
      (healthy : info.buffer.file.Healthy)

theorem Fresh.sending (fresh : Fresh info) : Sending info [] := by
  cases fresh with
  | limited whole core noEnd noPart =>
    exact .limited whole core (.boundary noEnd noPart (.inl rfl))
  | unlimited disabled direct healthy => exact .unlimited disabled direct healthy

/-- A statement at its retry point. -/
structure Marked (info : FileInfo) : Prop where
  fresh : Fresh info
  anchored : info.buffer.Anchored
  seekable : info.buffer.file.seekable = true
  valid : info.buffer.retryPointValid = true
  place : info.buffer.retryOffset = info.buffer.position

theorem Fresh.mark (fresh : Fresh info) (anchored : info.buffer.Anchored)
    (seekable : info.buffer.file.seekable = true) :
    Marked { info with buffer := info.buffer.markRetryPoint } := by
  rw [markRetryPoint_eq seekable]
  refine ⟨?_, anchored, seekable, rfl, rfl⟩
  cases fresh with
  | limited whole core noEnd noPart =>
    exact .limited whole { core with } noEnd noPart
  | unlimited disabled direct healthy => exact .unlimited disabled direct healthy

/-- The next statement starts with nothing sent. -/
theorem Sending.flushDone (sending : Sending info sent) :
    Fresh { info with buffer := info.buffer.flushDone.2 } := by
  cases sending with
  | limited whole core _ => exact .limited whole (flushDone_spec core).1 rfl rfl
  | unlimited disabled direct healthy => exact .unlimited disabled direct healthy

/-- Back at its first byte, a statement is fresh again. -/
theorem Fresh.rewoundTo {info failed : FileInfo} (fresh : Fresh info)
    (sameRange : failed.rangeRead = info.rangeRead) (kept : Kept info.buffer failed.buffer)
    {offset bytesLeft : Nat}
    (sameUnsent : (failed.buffer.rewoundTo offset).unsent = info.buffer.unsent) :
    Fresh { failed with buffer := failed.buffer.rewoundTo offset, bytesLeft } := by
  have healthy (before : info.buffer.file.Healthy) : failed.buffer.file.Healthy := by
    rw [SourceFile.Healthy, kept.serve_eq]
    exact before
  cases fresh with
  | limited whole core noEnd noPart =>
    have bounded := core.bounded
    have enabled := core.enabled
    rw [← kept.limit_eq] at enabled
    rw [← sameUnsent] at bounded
    exact .limited (sameRange.trans whole)
      ⟨kept.dialect_eq.trans core.dialect_eq, enabled, healthy core.healthy, rfl,
        fun ended => absurd ended Bool.false_ne_true, bounded⟩ rfl rfl
  | unlimited disabled direct health =>
    exact .unlimited (kept.limit_eq.trans disabled) rfl (healthy health)

/-- A retry starts again from the retry point, whatever the failed attempt has read. -/
theorem Marked.rewind {info failed : FileInfo} (marked : Marked info)
    (sameRange : failed.rangeRead = info.rangeRead) (kept : Kept info.buffer failed.buffer) :
    ∃ buffer, failed.buffer.tryRewindForRetry = (true, buffer) ∧ Kept info.buffer buffer ∧
      Marked { failed with buffer, bytesLeft := info.bytesLeft } ∧
      { failed with buffer, bytesLeft := info.bytesLeft }.window = info.window := by
  have place : failed.buffer.retryOffset = info.buffer.position :=
    kept.retryOffset_eq.trans marked.place
  have keptRewound := kept.rewoundTo failed.buffer.retryOffset
  have sameUnsent := kept.unsent_rewoundTo marked.anchored place
  refine ⟨_, tryRewindForRetry_eq (kept.retryPointValid_eq.trans marked.valid)
    (kept.seekable_eq.trans marked.seekable), keptRewound,
    ⟨marked.fresh.rewoundTo sameRange kept sameUnsent, keptRewound.anchored marked.anchored,
      keptRewound.seekable_eq.trans marked.seekable,
      keptRewound.retryPointValid_eq.trans marked.valid, rfl⟩, ?_⟩
  simp only [window, sameRange, sameUnsent]

/-! ## Whole files -/

/-- The state of a statement that has sent nothing, whatever the limits of the load are. -/
structure Untouched (info : FileInfo) : Prop where
  whole : info.rangeRead = false
  direct : info.buffer.maxTrxSize = 0 → info.buffer.data = []
  anchored : info.buffer.Anchored
  size_eq : info.buffer.trxSize = 0

theorem read_whole (whole : info.rangeRead = false) (length : UInt32) :
    info.read length = ((localInfileRead info.buffer length).1,
      { info with buffer := (localInfileRead info.buffer length).2 }) := by
  simp only [read, whole, Bool.false_eq_true, if_false]
  cases localInfileRead info.buffer length with
  | mk copied next => cases copied <;> rfl

/-- Without a byte range, a statement is a transaction of the buffer. -/
theorem query_whole (sizes : Nat → UInt32) (fuel : Nat) {info : FileInfo}
    (whole : info.rangeRead = false) (call : Nat) :
    query sizes fuel info call =
      (loadTransaction sizes fuel info.buffer call).map fun result =>
        (result.1, { info with buffer := result.2.1 }, result.2.2) := by
  induction fuel generalizing info call with
  | zero => rfl
  | succ fuel ih =>
    unfold query loadTransaction
    rw [read_whole whole]
    cases localInfileRead info.buffer (sizes call) with
    | mk copied next =>
      cases copied with
      | none => rfl
      | some copied =>
        cases copied with
        | nil => rfl
        | cons first others =>
          simp only [@ih { info with buffer := next } whole]
          cases loadTransaction sizes fuel next (call + 1) <;> rfl

/-- A statement that loads a whole file takes its bytes from the front of the unsent ones. -/
theorem query_conserves {fuel call nextCall : Nat} {info next : FileInfo} {transaction : Bytes}
    (whole : info.rangeRead = false) (direct : info.buffer.Direct)
    (result : query sizes fuel info call = some (transaction, next, nextCall)) :
    next.rangeRead = false ∧
      loadTransaction sizes fuel info.buffer call = some (transaction, next.buffer, nextCall) ∧
      Kept info.buffer next.buffer := by
  rw [query_whole sizes fuel whole] at result
  obtain ⟨loaded, loads, same⟩ := map_eq_some_iff.mp result
  cases same
  refine ⟨whole, loads, ?_⟩
  revert direct
  refine loadTransaction_induction (motive := fun buffer _ _ =>
    buffer.Direct → Kept buffer loaded.2.1)
    (fun _ answer direct => kept_localInfileRead direct answer)
    (fun _ answer later direct => ?_) loads
  exact (kept_localInfileRead direct answer).trans
    (later (localInfileRead_conserves direct answer).direct)

/-- An attempt that is rolled back leaves a buffer of the same load, at any rate. -/
theorem rolledBack_kept {reads call nextCall : Nat} {info failed : FileInfo}
    (whole : info.rangeRead = false) (direct : info.buffer.Direct)
    (result : rolledBack sizes reads info call = some (failed, nextCall)) :
    failed.rangeRead = false ∧ Kept info.buffer failed.buffer := by
  induction reads generalizing info call with
  | zero =>
    cases result
    exact ⟨whole, Kept.refl _⟩
  | succ reads ih =>
    unfold rolledBack at result
    rw [read_whole whole] at result
    cases answer : localInfileRead info.buffer (sizes call) with
    | mk copied after =>
      have kept := kept_localInfileRead direct answer
      rw [answer] at result
      cases copied with
      | none => cases result
      | some copied =>
        cases copied with
        | nil =>
          cases result
          exact ⟨whole, kept⟩
        | cons first others =>
          have directAfter := (localInfileRead_conserves direct answer).direct
          obtain ⟨wholeLater, keptLater⟩ :=
            @ih (call + 1) { info with buffer := after } whole directAfter result
          exact ⟨wholeLater, kept.trans keptLater⟩

/-- The retry point of a statement is the place of its first byte, if there is one. -/
theorem Untouched.mark (untouched : Untouched info) :
    Untouched { info with buffer := info.buffer.markRetryPoint } ∧
      (info.buffer.markRetryPoint.retryPointValid = true →
        info.buffer.markRetryPoint.retryOffset = info.buffer.markRetryPoint.position) ∧
      info.buffer.markRetryPoint.unsent = info.buffer.unsent := by
  obtain ⟨whole, direct, anchored, size⟩ := untouched
  cases place : info.buffer.file.tell with
  | none =>
    simp only [markRetryPoint, place]
    exact ⟨⟨whole, direct, anchored, size⟩, nofun, rfl⟩
  | some offset =>
    have seekable : info.buffer.file.seekable = true := by
      by_contra fixedPosition
      rw [SourceFile.tell, if_neg fixedPosition] at place
      cases place
    rw [markRetryPoint_eq seekable]
    exact ⟨⟨whole, direct, anchored, size⟩, fun _ => rfl, rfl⟩

/--
A statement that is committed in the end has taken its bytes from the front of the unsent
ones, however often it was rolled back.
-/
theorem Untouched.attempts {fuel bytesLeft call nextCall : Nat} {rollbacks : List Nat}
    {backoff : Backoff} {info next : FileInfo} {transaction : Bytes} (untouched : Untouched info)
    (marked : info.buffer.retryPointValid = true → info.buffer.retryOffset = info.buffer.position)
    (result : attempts sizes fuel bytesLeft rollbacks backoff info call =
      some (transaction, next, nextCall)) :
    transaction ++ next.buffer.unsent = info.buffer.unsent ∧
      (next.buffer.maxTrxSize ≠ 0 → next.buffer.trxSize = transaction.length) ∧
      Untouched { next with buffer := next.buffer.flushDone.2 } := by
  fun_induction FileInfo.attempts sizes fuel bytesLeft rollbacks backoff info call with
  | case1 =>
    obtain ⟨whole, loads, kept⟩ := query_conserves untouched.whole untouched.direct result
    obtain ⟨split, limit, direct, size⟩ := loadTransaction_conserves untouched.direct loads
    rw [← limit] at size
    rw [untouched.size_eq, Nat.zero_add] at size
    exact ⟨split, size, ⟨whole, direct, kept.anchored untouched.anchored, rfl⟩⟩
  | case2 | case3 | case5 => cases result
  | case4 _ _ _ info _ failed _ rolled _ buffer rewinds ih =>
    obtain ⟨whole, kept⟩ := rolledBack_kept untouched.whole untouched.direct rolled
    rcases failed.buffer.tryRewindForRetry_cases with refused | ⟨valid, rewound⟩
    · rw [refused] at rewinds
      cases rewinds
    · rw [rewound] at rewinds
      cases rewinds
      have place : failed.buffer.retryOffset = info.buffer.position := by
        rw [kept.retryOffset_eq]
        exact marked (kept.retryPointValid_eq.symm.trans valid)
      rw [← kept.unsent_rewoundTo untouched.anchored place]
      exact ih ⟨whole, fun _ => rfl, ⟨Nat.zero_le _, rfl⟩, rfl⟩ (fun _ => rfl) result

/-! ## Statements -/

/-- The wait leaves time for that many attempts that are rolled back. -/
def Backoff.Allows : Nat → Backoff → Prop
  | 0, _ => True
  | rollbacks + 1, backoff =>
    backoff.totalSleepTimeMs < maxDeadlockRetryTimeMs ∧ Backoff.Allows rollbacks backoff.wait

theorem Backoff.Allows.of_le {fewer more : Nat} {backoff : Backoff}
    (allowed : Backoff.Allows more backoff) (le : fewer ≤ more) : Backoff.Allows fewer backoff := by
  induction more generalizing fewer backoff with
  | zero =>
    rw [Nat.le_zero.mp le]
    trivial
  | succ more ih =>
    cases fewer with
    | zero => trivial
    | succ fewer => exact ⟨allowed.1, ih allowed.2 (Nat.le_of_succ_le_succ le)⟩

/-- Eight attempts of a statement may be rolled back, and not more. -/
theorem Backoff.allows_iff {rollbacks : Nat} : Backoff.Allows rollbacks {} ↔ rollbacks ≤ 8 := by
  have eight : Backoff.Allows 8 {} := ⟨by decide, by decide, by decide, by decide, by decide,
    by decide, by decide, by decide, trivial⟩
  refine ⟨fun allowed => ?_, eight.of_le⟩
  by_contra many
  obtain ⟨-, -, -, -, -, -, -, -, ninth, -⟩ := allowed.of_le (Nat.not_le.mp many)
  exact absurd ninth (by decide)

/-- A statement is committed, or given up after too many attempts. -/
theorem Marked.attempts (sizesOk : ReadSizes sizes) (rollbacks : List Nat) {info : FileInfo}
    (marked : Marked info) (backoff : Backoff) (call : Nat) :
    (∃ transaction next nextCall,
      (∀ fuel, info.window.length < fuel →
        attempts sizes fuel info.bytesLeft rollbacks backoff info call =
          some (transaction, next, nextCall)) ∧
      Advance info [] transaction next ∧ Ended next transaction) ∨
    ((∀ fuel, attempts sizes fuel info.bytesLeft rollbacks backoff info call = none) ∧
      ¬ Backoff.Allows rollbacks.length backoff) := by
  induction rollbacks generalizing info backoff call with
  | nil => exact .inl (marked.fresh.sending.query sizesOk call)
  | cons reads rollbacks ih =>
    obtain ⟨failed, nextCall, result, sameRange, kept⟩ :=
      marked.fresh.sending.rolledBack sizesOk reads call
    obtain ⟨buffer, rewound, keptRewound, markedAgain, sameWindow⟩ := marked.rewind sameRange kept
    by_cases timeLeft : backoff.totalSleepTimeMs < maxDeadlockRetryTimeMs
    · have again (fuel : Nat) :
          FileInfo.attempts sizes fuel info.bytesLeft (reads :: rollbacks) backoff info call =
            FileInfo.attempts sizes fuel info.bytesLeft rollbacks backoff.wait
              { failed with buffer, bytesLeft := info.bytesLeft } nextCall := by
        simp only [FileInfo.attempts, result, timeLeft, if_true, rewound]
      rcases ih markedAgain backoff.wait nextCall with
        ⟨transaction, next, lastCall, runs, advance, ended⟩ | ⟨fails, tooMany⟩
      · refine .inl ⟨transaction, next, lastCall, fun fuel enough => ?_,
          ⟨advance.sending, advance.window_eq.trans sameWindow,
            advance.rangeRead_eq.trans sameRange, keptRewound.trans advance.kept⟩, ended⟩
        rw [again]
        exact runs fuel (by rw [sameWindow]; exact enough)
      · refine .inr ⟨fun fuel => (again fuel).trans (fails fuel), fun allowed => ?_⟩
        exact tooMany allowed.2
    · refine .inr ⟨fun fuel => ?_, fun allowed => timeLeft allowed.1⟩
      simp only [FileInfo.attempts, result, timeLeft, if_false]

variable {rollbacks : Nat → List Nat}

theorem query_mono {fuel more call : Nat} {info : FileInfo} {result : Bytes × FileInfo × Nat}
    (le : fuel ≤ more) (done : query sizes fuel info call = some result) :
    query sizes more info call = some result := by
  induction fuel generalizing more info call result with
  | zero => cases done
  | succ fuel ih =>
    obtain ⟨more, rfl⟩ := Nat.exists_eq_succ_of_ne_zero (show more ≠ 0 by omega)
    unfold query at done ⊢
    split at done
    · cases done
    · exact done
    · split at done
      · cases done
      · next later =>
        have again := ih (Nat.le_of_succ_le_succ le) later
        simp only [again]
        exact done

/-- More fuel does not change the outcome of a statement. -/
theorem attempts_unique {fuel more retryBytesLeft call : Nat} {tries : List Nat}
    {backoff : Backoff} {info : FileInfo} {first second : Bytes × FileInfo × Nat}
    (done : attempts sizes fuel retryBytesLeft tries backoff info call = some first)
    (again : attempts sizes more retryBytesLeft tries backoff info call = some second) :
    first = second := by
  fun_induction FileInfo.attempts sizes fuel retryBytesLeft tries backoff info call with
  | case1 =>
    have one := query_mono (Nat.le_max_left fuel more) done
    have other := query_mono (Nat.le_max_right fuel more) again
    exact Option.some.inj (one.symm.trans other)
  | case2 | case3 | case5 => cases done
  | case4 _ _ _ _ _ _ _ rolled waits _ rewound ih =>
    simp only [FileInfo.attempts, rolled, if_pos waits, rewound] at again
    exact ih done again

/-- A worker in front of a statement. -/
structure Statement where
  number : Nat
  info : FileInfo
  call : Nat

/-- The bytes with which the statement is committed in the end. -/
def Statement.commit (sizes : Nat → UInt32) (rollbacks : Nat → List Nat) (fuel : Nat)
    (state : Statement) : Option (Bytes × FileInfo × Nat) :=
  attempts sizes fuel state.info.bytesLeft (rollbacks state.number) {}
    { state.info with buffer := state.info.buffer.markRetryPoint } state.call

/-- The statement is committed, and another one follows. -/
inductive Statement.Step (sizes : Nat → UInt32) (rollbacks : Nat → List Nat) (state : Statement) :
    Statement → Prop where
  | commits {fuel : Nat} {sent : Bytes} {ended : FileInfo} {nextCall : Nat}
      (committed : state.commit sizes rollbacks fuel = some (sent, ended, nextCall))
      (more : ended.buffer.flushDone.1 = true) :
      Step sizes rollbacks state
        ⟨state.number + 1, { ended with buffer := ended.buffer.flushDone.2 }, nextCall⟩

/-- The statements of a load. -/
abbrev Statement.Reaches (sizes : Nat → UInt32) (rollbacks : Nat → List Nat) :
    Statement → Statement → Prop :=
  Relation.ReflTransGen (Statement.Step sizes rollbacks)

/-- Although there is more, the statement gets no data: a row end is narrowed to `0`. -/
def Statement.Stalls (sizes : Nat → UInt32) (rollbacks : Nat → List Nat) (state : Statement) :
    Prop :=
  ∃ fuel ended nextCall, state.commit sizes rollbacks fuel = some ([], ended, nextCall) ∧
    ended.buffer.flushDone.1 = true ∧ Narrowed ended.buffer

/-- The worker can start the statement, and rewind to its first byte. -/
structure Statement.Ready (state : Statement) : Prop where
  fresh : Fresh state.info
  anchored : state.info.buffer.Anchored
  seekable : state.info.buffer.file.seekable = true

variable {state : Statement}

/-- A statement is committed with the next bytes, or given up after too many attempts. -/
theorem Statement.Ready.commit (sizesOk : ReadSizes sizes) (rollbacks : Nat → List Nat)
    (ready : state.Ready) :
    (∃ sent ended nextCall,
      (∀ fuel, state.info.window.length < fuel →
        state.commit sizes rollbacks fuel = some (sent, ended, nextCall)) ∧
      sent ++ ended.window = state.info.window ∧ Ended ended sent ∧
      ended.buffer.maxTrxSize = state.info.buffer.maxTrxSize ∧ Sending ended sent ∧
      Statement.Ready ⟨state.number + 1, { ended with buffer := ended.buffer.flushDone.2 },
        nextCall⟩) ∨
    ((∀ fuel, state.commit sizes rollbacks fuel = none) ∧
      ¬ (rollbacks state.number).length ≤ 8) := by
  have marked := ready.fresh.mark ready.anchored ready.seekable
  have sameWindow :
      { state.info with buffer := state.info.buffer.markRetryPoint }.window =
        state.info.window := by
    rw [markRetryPoint_eq ready.seekable]
    rfl
  rcases marked.attempts sizesOk (rollbacks state.number) {} state.call with
    ⟨sent, ended, nextCall, runs, advance, settled⟩ | ⟨fails, tooMany⟩
  · have window_eq := advance.window_eq
    rw [sameWindow] at window_eq runs
    have limit_eq := advance.kept.limit_eq
    rw [markRetryPoint_eq ready.seekable] at limit_eq
    exact .inl ⟨sent, ended, nextCall, runs, window_eq, settled, limit_eq, advance.sending,
      advance.sending.flushDone, advance.kept.anchored marked.anchored,
      advance.kept.seekable_eq.trans marked.seekable⟩
  · rw [Backoff.allows_iff] at tooMany
    exact .inr ⟨fails, tooMany⟩

/-- The committed statements of a load that finishes hold the bytes that are to be sent. -/
theorem Statement.Ready.flatten (sizesOk : ReadSizes sizes) {fuel : Nat} (ready : state.Ready)
    {transactions : List Bytes}
    (result : load sizes rollbacks fuel state.number state.info state.call = some transactions) :
    transactions.flatten = state.info.window := by
  induction fuel generalizing state transactions with
  | zero => cases result
  | succ fuel ih =>
    unfold load at result
    split at result
    · cases result
    · next sent ended nextCall committed =>
      rcases ready.commit sizesOk rollbacks with
        ⟨sent, ended, nextCall, runs, window_eq, settled, -, -, later⟩ | ⟨fails, -⟩
      · cases attempts_unique committed (runs _ (Nat.lt_succ_self _))
        split at result
        · split at result
          · cases result
          · next others rest =>
            cases result
            rw [flatten_cons, ih later rest]
            exact window_eq
        · next finished =>
          cases result
          have nothing := (settled.resolve_right fun more => finished more.1).2
          rw [nothing, append_nil] at window_eq
          rw [flatten_singleton, window_eq]
      · have failed := fails fuel
        rw [Statement.commit, committed] at failed
        cases failed

/-- The rest of a load that finishes before the statement number `total`. -/
def Statement.Finishes (sizes : Nat → UInt32) (rollbacks : Nat → List Nat) (total : Nat)
    (state : Statement) : Prop :=
  ∃ fuel others, load sizes rollbacks fuel state.number state.info state.call = some others ∧
    state.number + others.length ≤ total

theorem Statement.Finishes.commits {total : Nat}
    (finishes : state.Finishes sizes rollbacks total) :
    state.number < total ∧ ∃ fuel sent ended nextCall,
      state.commit sizes rollbacks fuel = some (sent, ended, nextCall) ∧
      (ended.buffer.flushDone.1 = true → Statement.Finishes sizes rollbacks total
        ⟨state.number + 1, { ended with buffer := ended.buffer.flushDone.2 }, nextCall⟩) := by
  obtain ⟨fuel, others, result, short⟩ := finishes
  cases fuel with
  | zero => cases result
  | succ fuel =>
    unfold load at result
    split at result
    · cases result
    · next sent ended nextCall committed =>
      split at result
      · split at result
        · cases result
        · next later rest =>
          cases result
          rw [length_cons] at short
          exact ⟨by omega, fuel, sent, ended, nextCall, committed, fun _ => ⟨fuel, later, rest, by
            simp only
            omega⟩⟩
      · next finished =>
        cases result
        rw [length_singleton] at short
        exact ⟨by omega, fuel, sent, ended, nextCall, committed, fun more => absurd more finished⟩

theorem Statement.Finishes.reaches {total : Nat} {later : Statement}
    (finishes : state.Finishes sizes rollbacks total)
    (reaches : state.Reaches sizes rollbacks later) : later.Finishes sizes rollbacks total := by
  induction reaches with
  | refl => exact finishes
  | tail _ step ih =>
    cases step with
    | commits committed more =>
      obtain ⟨-, fuel, sent, ended, nextCall, same, further⟩ := ih.commits
      cases attempts_unique committed same
      exact further more

/-- A load with few rollbacks finishes if only statements before `last` stall. -/
theorem Statement.Ready.load (sizesOk : ReadSizes sizes) {last : Nat} (ready : state.Ready)
    (few : ∀ later, state.Reaches sizes rollbacks later → (rollbacks later.number).length ≤ 8)
    (stalls : ∀ later, state.Reaches sizes rollbacks later → later.Stalls sizes rollbacks →
      later.number < last) :
    ∃ transactions, ∀ fuel, state.info.window.length + (last - state.number) + 1 < fuel →
      FileInfo.load sizes rollbacks fuel state.number state.info state.call =
        some transactions := by
  induction size : state.info.window.length + (last - state.number) using
    Nat.strong_induction_on generalizing state with
  | _ bound ih =>
    rcases ready.commit sizesOk rollbacks with
      ⟨sent, ended, nextCall, runs, window_eq, settled, -, -, ready'⟩ | ⟨-, tooMany⟩
    · have moved := congrArg List.length window_eq
      rw [length_append] at moved
      rcases settled with ⟨finished, -⟩ | ⟨more, stalled⟩
      · refine ⟨[sent], ?_⟩
        rintro (- | fuel) enough
        · cases enough
        have committed := runs fuel (by omega)
        rw [Statement.commit] at committed
        simp only [FileInfo.load, committed, finished, Bool.false_eq_true, if_false]
      · have step := Statement.Step.commits (runs _ (Nat.lt_succ_self _)) more
        have shorter : ended.window.length + (last - (state.number + 1)) < bound := by
          cases sent with
          | nil =>
            have before := stalls state .refl
              ⟨_, ended, nextCall, runs _ (Nat.lt_succ_self _), more, stalled rfl⟩
            rw [length_nil] at moved
            omega
          | cons first others =>
            rw [length_cons] at moved
            omega
        obtain ⟨transactions, rest⟩ := ih _ shorter ready'
          (fun later reaches => few later (.head step reaches))
          (fun later reaches => stalls later (.head step reaches)) rfl
        refine ⟨sent :: transactions, ?_⟩
        rintro (- | fuel) enough
        · cases enough
        have committed := runs fuel (by omega)
        rw [Statement.commit] at committed
        simp only [FileInfo.load, committed, more, if_true, rest fuel (by omega)]
    · exact absurd (few state .refl) tooMany

/-! ## A row of `2 ^ 32` bytes -/

/-- A file that can be moved to an offset starts there. -/
theorem skip_eq (fresh : file.offset = 0) (seekable : file.seekable = true) (skipBytes : Nat) :
    file.skip skipBytes = { file with offset := skipBytes } := by
  unfold skip
  split
  · next zero =>
    rw [zero, ← fresh]
  · rw [seek, if_pos seekable]

/-- The first statement for an entry of the queue. -/
def Statement.start (limit : UInt64) (entry : FileImportInfo) : Statement :=
  ⟨0, ofImport default_ limit entry, 0⟩

end FileInfo

end MariadbShell.ImportTable
