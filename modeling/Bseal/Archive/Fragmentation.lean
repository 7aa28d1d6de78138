import Bseal.Archive.ArchiveGrammar

/-! How the stream is cut into `consume` calls does not matter: the calls do what decoding
the whole stream at once and processing its records one after the other does. -/
namespace Bseal.Archive
open Effect

/-- The records in front of a byte stream, and what comes after them: an incomplete record, or
the error of a record prefix. At most `fuel` records are taken. -/
def decodeRecords : Nat → Bytes → List ArchiveRecord × Result Bytes
  | 0, bytes => ([], .ok bytes)
  | fuel + 1, bytes =>
    match encodedRecordSizeIfComplete bytes with
    | .error e => ([], .error e)
    | .ok none => ([], .ok bytes)
    | .ok (some recordSize) =>
      match parseRecord (bytes.take recordSize) with
      | .error e => ([], .error e)
      | .ok record =>
        let (records, ending) := decodeRecords fuel (bytes.drop recordSize)
        (record :: records, ending)

def decodeStream (bytes : Bytes) : List ArchiveRecord × Result Bytes :=
  decodeRecords (bytes.length + 1) bytes

theorem decodeRecords_record (fuel : Nat) (record : ArchiveRecord) (rest : Bytes)
    (small : record.payload.length ≤ kMaxRecordPayloadBytes) :
    decodeRecords (fuel + 1) (serializeRecord record ++ rest) =
      (record :: (decodeRecords fuel rest).1, (decodeRecords fuel rest).2) := by
  have size : encodedRecordSizeIfComplete (serializeRecord record ++ rest) =
      .ok (some (serializeRecord record).length) :=
    (encodedRecordSizeIfComplete_some _ _).mpr
      ⟨record, rest, rfl, small, serializeRecord_length record⟩
  have parsed : parseRecord (serializeRecord record) = .ok record :=
    (parseRecord_ok _ _).mpr ⟨rfl, small⟩
  rw [decodeRecords, size]
  simp only
  rw [List.take_left, parsed, List.drop_left]

theorem decodeRecords_fuel (fuel fuel' : Nat) (bytes : Bytes) (enough : bytes.length < fuel)
    (enough' : bytes.length < fuel') : decodeRecords fuel bytes = decodeRecords fuel' bytes := by
  induction fuel generalizing fuel' bytes with
  | zero => omega
  | succ fuel ih =>
    obtain ⟨fuel', rfl⟩ : ∃ k, fuel' = k + 1 := ⟨fuel' - 1, by omega⟩
    rcases size : encodedRecordSizeIfComplete bytes with e | (_ | n)
    · rw [decodeRecords, decodeRecords, size]
    · rw [decodeRecords, decodeRecords, size]
    · obtain ⟨record, rest, rfl, small, -⟩ := (encodedRecordSizeIfComplete_some _ _).mp size
      rw [List.length_append, serializeRecord_length, kRecordPrefixSize] at enough enough'
      rw [decodeRecords_record fuel record rest small, decodeRecords_record fuel' record rest small,
        ih fuel' rest (by omega) (by omega)]

theorem decodeStream_record (record : ArchiveRecord) (rest : Bytes)
    (small : record.payload.length ≤ kMaxRecordPayloadBytes) :
    decodeStream (serializeRecord record ++ rest) =
      (record :: (decodeStream rest).1, (decodeStream rest).2) := by
  have longer : rest.length < (serializeRecord record ++ rest).length := by
    rw [List.length_append, serializeRecord_length, kRecordPrefixSize]
    omega
  unfold decodeStream
  rw [decodeRecords_record _ record rest small,
    decodeRecords_fuel _ (rest.length + 1) rest longer (Nat.lt_succ_self _)]

theorem decodeStream_incomplete {bytes : Bytes}
    (incomplete : encodedRecordSizeIfComplete bytes = .ok none) :
    decodeStream bytes = ([], .ok bytes) := by
  rw [decodeStream, decodeRecords, incomplete]

theorem decodeStream_error {bytes : Bytes} {e : Failure}
    (broken : encodedRecordSizeIfComplete bytes = .error e) :
    decodeStream bytes = ([], .error e) := by
  rw [decodeStream, decodeRecords, broken]

theorem encodedRecordSizeIfComplete_error_append {bytes : Bytes} {e : Failure}
    (broken : encodedRecordSizeIfComplete bytes = .error e) (more : Bytes) :
    encodedRecordSizeIfComplete (bytes ++ more) = .error e := by
  cases bytes with
  | nil => cases broken
  | cons typeByte bytes =>
    rw [encodedRecordSizeIfComplete] at broken
    split_ifs at broken with short
    have whole : ¬(bytes ++ more).length < 8 := by
      rw [List.length_append]
      omega
    have same : (bytes ++ more).take 8 = bytes.take 8 :=
      List.take_append_of_le_length (Nat.le_of_not_lt short)
    rw [List.cons_append, encodedRecordSizeIfComplete, if_neg whole, same]
    cases valid : recordType? typeByte with
    | none => rwa [valid] at broken
    | some type =>
      rw [valid] at broken
      simp only at broken ⊢
      split_ifs at broken with large missing
      rw [if_pos large]
      exact broken

theorem decodeStream_append (front back : Bytes) :
    decodeStream (front ++ back) =
      match decodeStream front with
      | (records, .ok rest) =>
        (records ++ (decodeStream (rest ++ back)).1, (decodeStream (rest ++ back)).2)
      | (records, .error e) => (records, .error e) := by
  induction len : front.length using Nat.strong_induction_on generalizing front with
  | _ n ih =>
    rcases size : encodedRecordSizeIfComplete front with e | (_ | k)
    · rw [decodeStream_error size,
        decodeStream_error (encodedRecordSizeIfComplete_error_append size back)]
    · rw [decodeStream_incomplete size]
      rfl
    · obtain ⟨record, rest, rfl, small, -⟩ := (encodedRecordSizeIfComplete_some _ _).mp size
      have shorter : rest.length < n := by
        rw [← len, List.length_append, serializeRecord_length, kRecordPrefixSize]
        omega
      rw [List.append_assoc, decodeStream_record record (rest ++ back) small,
        decodeStream_record record rest small, ih _ shorter rest rfl]
      rcases decodeStream rest with ⟨records, e | last⟩
      · rfl
      · rfl

theorem decodeStream_rest {bytes rest : Bytes} {records : List ArchiveRecord}
    (decoded : decodeStream bytes = (records, .ok rest)) :
    encodedRecordSizeIfComplete rest = .ok none := by
  induction len : bytes.length using Nat.strong_induction_on generalizing bytes records with
  | _ n ih =>
    rcases size : encodedRecordSizeIfComplete bytes with e | (_ | k)
    · rw [decodeStream_error size] at decoded
      cases decoded
    · rw [decodeStream_incomplete size] at decoded
      cases decoded
      exact size
    · obtain ⟨record, last, rfl, small, -⟩ := (encodedRecordSizeIfComplete_some _ _).mp size
      have shorter : last.length < n := by
        rw [← len, List.length_append, serializeRecord_length, kRecordPrefixSize]
        omega
      rw [decodeStream_record record last small] at decoded
      exact ih _ shorter (Prod.ext rfl (Prod.mk.inj decoded).2) rfl

section Loop
variable {σ : Type} (ops : ExtractOps σ) (options : ArchiveReaderOptions) (tempRoot : OutPath)

/-- Calls of `consume` on one piece after the other; the first throw ends them. -/
def consumeAll : List Bytes → Effect Failure (ArchiveReader σ) Unit
  | [] => pure ()
  | piece :: pieces => do
    consume ops options tempRoot piece
    consumeAll pieces

def consumeRecordsLogged : Nat → Effect Failure (ArchiveReader σ × List ArchiveRecord) Unit
  | 0 => pure ()
  | fuel + 1 => do
    let (r, _) ← get
    let maybeSize ← lift (encodedRecordSizeIfComplete r.pending)
    match maybeSize with
    | none => pure ()
    | some recordSize => do
      let record ← lift (parseRecord (r.pending.take recordSize))
      modify fun (r, log) => ({ r with pending := r.pending.drop recordSize }, log ++ [record])
      zoom Prod.fst (fun r s => (r, s.2)) id
        (onExtraction (processRecord ops options tempRoot record))
      consumeRecordsLogged fuel

def consumeLogged (plaintext : Bytes) :
    Effect Failure (ArchiveReader σ × List ArchiveRecord) Unit := do
  let (r, _) ← get
  throwIf r.finished (invalid "cannot consume archive data after finish")
  modify fun (r, log) => ({ r with pending := r.pending ++ plaintext }, log)
  consumeRecordsLogged ops options tempRoot (r.pending.length + plaintext.length + 1)

def consumeAllLogged : List Bytes → Effect Failure (ArchiveReader σ × List ArchiveRecord) Unit
  | [] => pure ()
  | piece :: pieces => do
    consumeLogged ops options tempRoot piece
    consumeAllLogged pieces

def processedRecords (world : σ) (pieces : List Bytes) : List ArchiveRecord :=
  (exec (consumeAllLogged ops options tempRoot pieces) (.initial world, [])).2.2

theorem consumeRecordsLogged_record (fuel : Nat) (r : ArchiveReader σ) (log : List ArchiveRecord)
    (record : ArchiveRecord) (rest : Bytes) (pending : r.pending = serializeRecord record ++ rest)
    (small : record.payload.length ≤ kMaxRecordPayloadBytes) :
    exec (consumeRecordsLogged ops options tempRoot (fuel + 1)) (r, log) =
      match exec (processRecord ops options tempRoot record) r.extraction with
      | (.ok _, e) =>
        exec (consumeRecordsLogged ops options tempRoot fuel)
          ({ r with pending := rest, extraction := e }, log ++ [record])
      | (.error x, e) =>
        (.error x, { r with pending := rest, extraction := e }, log ++ [record]) := by
  have size : encodedRecordSizeIfComplete r.pending =
      .ok (some (serializeRecord record).length) := by
    rw [encodedRecordSizeIfComplete_some]
    exact ⟨record, rest, pending.symm, small, serializeRecord_length record⟩
  have parsed : parseRecord (r.pending.take (serializeRecord record).length) = .ok record := by
    rw [pending, List.take_left, parseRecord_ok]
    exact ⟨rfl, small⟩
  have dropped : r.pending.drop (serializeRecord record).length = rest := by
    rw [pending, List.drop_left]
  rw [consumeRecordsLogged, exec_bind_of_ok (exec_get (r, log))]
  simp only
  rw [exec_bind, exec_lift, size]
  simp only
  rw [exec_bind, exec_lift, parsed]
  simp only
  rw [exec_bind_of_ok (exec_modify _ (r, log)), exec_bind, exec_zoom, exec_onExtraction, dropped]
  rcases exec (processRecord ops options tempRoot record) r.extraction with ⟨e | a, t⟩
  · rfl
  · rfl

theorem consumeRecordsLogged_incomplete (fuel : Nat) (r : ArchiveReader σ)
    (log : List ArchiveRecord) (incomplete : encodedRecordSizeIfComplete r.pending = .ok none) :
    exec (consumeRecordsLogged ops options tempRoot (fuel + 1)) (r, log) = (.ok (), r, log) := by
  rw [consumeRecordsLogged, exec_bind_of_ok (exec_get (r, log))]
  simp only
  rw [exec_bind, exec_lift, incomplete]
  rfl

theorem consumeRecordsLogged_error (fuel : Nat) (r : ArchiveReader σ) (log : List ArchiveRecord)
    {e : Failure} (broken : encodedRecordSizeIfComplete r.pending = .error e) :
    exec (consumeRecordsLogged ops options tempRoot (fuel + 1)) (r, log) = (.error e, r, log) := by
  rw [consumeRecordsLogged, exec_bind_of_ok (exec_get (r, log))]
  simp only
  rw [exec_bind, exec_lift, broken]

theorem consumeRecords_error (fuel : Nat) (r : ArchiveReader σ) {e : Failure}
    (broken : encodedRecordSizeIfComplete r.pending = .error e) :
    exec (consumeRecords ops options tempRoot (fuel + 1)) r = (.error e, r) := by
  rw [consumeRecords, exec_bind_of_ok (exec_get r), exec_bind, exec_lift, broken]

theorem consumeRecordsLogged_reader (fuel : Nat) (r : ArchiveReader σ)
    (log : List ArchiveRecord) :
    exec (consumeRecords ops options tempRoot fuel) r =
      ((exec (consumeRecordsLogged ops options tempRoot fuel) (r, log)).1,
        (exec (consumeRecordsLogged ops options tempRoot fuel) (r, log)).2.1) := by
  induction fuel generalizing r log with
  | zero => rfl
  | succ fuel ih =>
    rcases size : encodedRecordSizeIfComplete r.pending with e | (_ | n)
    · rw [consumeRecords_error _ _ _ _ _ size, consumeRecordsLogged_error _ _ _ _ _ _ size]
    · rw [consumeRecords_incomplete _ _ _ _ _ size,
        consumeRecordsLogged_incomplete _ _ _ _ _ _ size]
    · obtain ⟨record, rest, pending, small, -⟩ := (encodedRecordSizeIfComplete_some _ _).mp size
      rw [consumeRecords_record ops options tempRoot fuel r record rest pending.symm small,
        consumeRecordsLogged_record ops options tempRoot fuel r log record rest pending.symm small]
      rcases exec (processRecord ops options tempRoot record) r.extraction with ⟨x | a, e⟩
      · rfl
      · exact ih _ _

theorem consumeLogged_reader (plaintext : Bytes) (r : ArchiveReader σ)
    (log : List ArchiveRecord) :
    exec (consume ops options tempRoot plaintext) r =
      ((exec (consumeLogged ops options tempRoot plaintext) (r, log)).1,
        (exec (consumeLogged ops options tempRoot plaintext) (r, log)).2.1) := by
  rw [consume, consumeLogged, exec_get_bind, exec_get_bind, exec_throwIf_bind, exec_throwIf_bind]
  by_cases closed : r.finished = true
  · rw [if_pos closed, if_pos closed]
  · rw [if_neg closed, if_neg closed, exec_bind_of_ok (exec_modify _ r),
      exec_bind_of_ok (exec_modify _ (r, log))]
    exact consumeRecordsLogged_reader ops options tempRoot _ _ log

theorem consumeAllLogged_reader (pieces : List Bytes) (r : ArchiveReader σ)
    (log : List ArchiveRecord) :
    exec (consumeAll ops options tempRoot pieces) r =
      ((exec (consumeAllLogged ops options tempRoot pieces) (r, log)).1,
        (exec (consumeAllLogged ops options tempRoot pieces) (r, log)).2.1) := by
  induction pieces generalizing r log with
  | nil => rfl
  | cons piece pieces ih =>
    rw [consumeAll, consumeAllLogged, exec_bind, exec_bind,
      consumeLogged_reader ops options tempRoot piece r log]
    rcases exec (consumeLogged ops options tempRoot piece) (r, log) with ⟨x | a, s, log'⟩
    · rfl
    · exact ih s log'

/-- What a run shows when it is over: its outcome, the state the handlers left and the
records they were called for. -/
structure Replay (σ : Type) where
  outcome : Result Unit
  extraction : Extraction σ
  processed : List ArchiveRecord

def replay : List ArchiveRecord → Result Bytes → Extraction σ → Replay σ
  | [], .ok _, e => ⟨.ok (), e, []⟩
  | [], .error x, e => ⟨.error x, e, []⟩
  | record :: records, ending, e =>
    match exec (processRecord ops options tempRoot record) e with
    | (.ok _, e') =>
      let later := replay records ending e'
      { later with processed := record :: later.processed }
    | (.error x, e') => ⟨.error x, e', [record]⟩

structure Agrees (run : Result Unit × ArchiveReader σ × List ArchiveRecord)
    (r : ArchiveReader σ) (log : List ArchiveRecord)
    (decoded : List ArchiveRecord × Result Bytes) : Prop where
  outcome : run.1 = (replay ops options tempRoot decoded.1 decoded.2 r.extraction).outcome
  extraction :
    run.2.1.extraction = (replay ops options tempRoot decoded.1 decoded.2 r.extraction).extraction
  processed :
    run.2.2 = log ++ (replay ops options tempRoot decoded.1 decoded.2 r.extraction).processed
  finished : run.2.1.finished = r.finished
  pending : run.1 = .ok () → decoded.2 = .ok run.2.1.pending

theorem consumeRecordsLogged_agrees (fuel : Nat) (r : ArchiveReader σ) (log : List ArchiveRecord)
    (enough : r.pending.length < fuel) :
    Agrees ops options tempRoot (exec (consumeRecordsLogged ops options tempRoot fuel) (r, log))
      r log (decodeStream r.pending) := by
  induction fuel generalizing r log with
  | zero => omega
  | succ fuel ih =>
    rcases size : encodedRecordSizeIfComplete r.pending with e | (_ | n)
    · rw [consumeRecordsLogged_error _ _ _ _ _ _ size, decodeStream_error size]
      exact ⟨rfl, rfl, (List.append_nil _).symm, rfl, fun no => by cases no⟩
    · rw [consumeRecordsLogged_incomplete _ _ _ _ _ _ size, decodeStream_incomplete size]
      exact ⟨rfl, rfl, (List.append_nil _).symm, rfl, fun _ => rfl⟩
    · obtain ⟨record, rest, pending, small, -⟩ := (encodedRecordSizeIfComplete_some _ _).mp size
      have len := congrArg List.length pending
      rw [List.length_append, serializeRecord_length, kRecordPrefixSize] at len
      rw [consumeRecordsLogged_record ops options tempRoot fuel r log record rest pending.symm
        small, ← pending, decodeStream_record record rest small]
      rcases step : exec (processRecord ops options tempRoot record) r.extraction with ⟨x | a, e⟩
      · have same : replay ops options tempRoot (record :: (decodeStream rest).1)
            (decodeStream rest).2 r.extraction = ⟨.error x, e, [record]⟩ := by
          rw [replay, step]
        refine ⟨?_, ?_, ?_, rfl, fun no => by cases no⟩
        all_goals rw [same]
      · have after := ih { r with pending := rest, extraction := e } (log ++ [record])
          (by simp only; omega)
        have same : replay ops options tempRoot (record :: (decodeStream rest).1)
            (decodeStream rest).2 r.extraction =
            { replay ops options tempRoot (decodeStream rest).1 (decodeStream rest).2 e with
              processed := record ::
                (replay ops options tempRoot (decodeStream rest).1
                  (decodeStream rest).2 e).processed } := by
          rw [replay, step]
        refine ⟨?_, ?_, ?_, after.finished, after.pending⟩
        · rw [same]
          exact after.outcome
        · rw [same]
          exact after.extraction
        · rw [same]
          exact after.processed.trans (List.append_assoc _ _ _)

theorem replay_append (records more : List ArchiveRecord) (rest : Bytes) (ending : Result Bytes)
    (e : Extraction σ) :
    replay ops options tempRoot (records ++ more) ending e =
      match replay ops options tempRoot records (.ok rest) e with
      | ⟨.ok _, e', log⟩ =>
        let later := replay ops options tempRoot more ending e'
        { later with processed := log ++ later.processed }
      | ⟨.error x, e', log⟩ => ⟨.error x, e', log⟩ := by
  induction records generalizing e with
  | nil => rfl
  | cons record records ih =>
    rw [List.cons_append, replay, replay]
    rcases exec (processRecord ops options tempRoot record) e with ⟨x | a, e'⟩
    · rfl
    · simp only
      rw [ih e']
      rcases replay ops options tempRoot records (.ok rest) e' with ⟨x | b, e'', log⟩
      · rfl
      · rfl

theorem consumeAllLogged_agrees (pieces : List Bytes) (r : ArchiveReader σ)
    (log : List ArchiveRecord) (opened : r.finished = false)
    (incomplete : encodedRecordSizeIfComplete r.pending = .ok none) :
    Agrees ops options tempRoot (exec (consumeAllLogged ops options tempRoot pieces) (r, log))
      r log (decodeStream (r.pending ++ pieces.flatten)) := by
  induction pieces generalizing r log with
  | nil =>
    rw [List.flatten_nil, List.append_nil, decodeStream_incomplete incomplete]
    exact ⟨rfl, rfl, (List.append_nil _).symm, rfl, fun _ => rfl⟩
  | cons piece pieces ih =>
    have called : exec (consumeLogged ops options tempRoot piece) (r, log) =
        exec (consumeRecordsLogged ops options tempRoot (r.pending.length + piece.length + 1))
          ({ r with pending := r.pending ++ piece }, log) := by
      rw [consumeLogged, exec_get_bind, exec_throwIf_bind, if_neg (by simp [opened]),
        exec_bind_of_ok (exec_modify _ (r, log))]
    have front := consumeRecordsLogged_agrees ops options tempRoot
      (r.pending.length + piece.length + 1) { r with pending := r.pending ++ piece } log (by simp)
    rw [← called] at front
    rw [List.flatten_cons, ← List.append_assoc, decodeStream_append, consumeAllLogged, exec_bind]
    rcases decoded : decodeStream (r.pending ++ piece) with ⟨records, x | rest⟩
    · -- the prefix that no piece can repair is in this piece
      rw [decoded] at front
      rcases ran : exec (consumeLogged ops options tempRoot piece) (r, log) with ⟨y | a, s⟩
      · rw [ran] at front
        exact ⟨front.outcome, front.extraction, front.processed, front.finished, front.pending⟩
      · rw [ran] at front
        cases front.pending rfl
    · rw [decoded] at front
      rcases ran : exec (consumeLogged ops options tempRoot piece) (r, log) with ⟨y | a, s, log'⟩
      · rw [ran] at front
        -- a handler threw, so the records of later pieces do not matter
        have same : replay ops options tempRoot
            (records ++ (decodeStream (rest ++ pieces.flatten)).1)
            (decodeStream (rest ++ pieces.flatten)).2 r.extraction =
            replay ops options tempRoot records (.ok rest) r.extraction := by
          rw [replay_append ops options tempRoot records _ rest]
          have threw := front.outcome
          simp only at threw
          rcases result : replay ops options tempRoot records (.ok rest) r.extraction with
            ⟨z | b, e, l⟩
          · rfl
          · rw [result] at threw
            cases threw
        refine ⟨?_, ?_, ?_, front.finished, fun no => by cases no⟩
        · rw [same]
          exact front.outcome
        · rw [same]
          exact front.extraction
        · rw [same]
          exact front.processed
      · rw [ran] at front
        have left : s.pending = rest := (Except.ok.inj (front.pending rfl)).symm
        have later := ih s log' (front.finished.trans opened)
          (left ▸ decodeStream_rest decoded)
        rw [left] at later
        have same : replay ops options tempRoot
            (records ++ (decodeStream (rest ++ pieces.flatten)).1)
            (decodeStream (rest ++ pieces.flatten)).2 r.extraction =
            { replay ops options tempRoot (decodeStream (rest ++ pieces.flatten)).1
                (decodeStream (rest ++ pieces.flatten)).2 s.extraction with
              processed :=
                (replay ops options tempRoot records (.ok rest) r.extraction).processed ++
                (replay ops options tempRoot (decodeStream (rest ++ pieces.flatten)).1
                  (decodeStream (rest ++ pieces.flatten)).2 s.extraction).processed } := by
          rw [replay_append ops options tempRoot records _ rest]
          have went := front.outcome
          have reached := front.extraction
          simp only at went reached
          rw [reached]
          rcases result : replay ops options tempRoot records (.ok rest) r.extraction with
            ⟨z | b, e, l⟩
          · rw [result] at went
            cases went
          · rfl
        refine ⟨?_, ?_, ?_, later.finished.trans front.finished, later.pending⟩
        · rw [same]
          exact later.outcome
        · rw [same]
          exact later.extraction
        · rw [same]
          refine later.processed.trans ?_
          have logged := front.processed
          simp only at logged
          rw [logged, List.append_assoc]

/-- Two ways of cutting one stream into calls hand the same records to `process_record`, throw
the same or not at all, and then leave the same reader; both agree with decoding the stream at
once. -/
theorem consumeAll_fragmentation (world : σ) (pieces others : List Bytes)
    (same : pieces.flatten = others.flatten) :
    processedRecords ops options tempRoot world pieces =
        processedRecords ops options tempRoot world others ∧
      (exec (consumeAll ops options tempRoot pieces) (.initial world)).1 =
        (exec (consumeAll ops options tempRoot others) (.initial world)).1 ∧
      (exec (consumeAll ops options tempRoot pieces) (.initial world)).2.extraction =
        (exec (consumeAll ops options tempRoot others) (.initial world)).2.extraction ∧
      ((exec (consumeAll ops options tempRoot pieces) (.initial world)).1 = .ok () →
        (exec (consumeAll ops options tempRoot pieces) (.initial world)).2 =
          (exec (consumeAll ops options tempRoot others) (.initial world)).2) ∧
      Agrees ops options tempRoot
        ((exec (consumeAll ops options tempRoot pieces) (.initial world)).1,
          (exec (consumeAll ops options tempRoot pieces) (.initial world)).2,
          processedRecords ops options tempRoot world pieces)
        (.initial world) [] (decodeStream pieces.flatten) := by
  have first := consumeAllLogged_agrees ops options tempRoot pieces (.initial world) [] rfl rfl
  have second := consumeAllLogged_agrees ops options tempRoot others (.initial world) [] rfl rfl
  have whole : decodeStream ((ArchiveReader.initial world).pending ++ others.flatten) =
      decodeStream pieces.flatten := by
    rw [same]
    rfl
  rw [whole] at second
  change Agrees ops options tempRoot _ _ _ (decodeStream pieces.flatten) at first
  rw [consumeAllLogged_reader ops options tempRoot pieces _ [],
    consumeAllLogged_reader ops options tempRoot others _ []]
  refine ⟨first.processed.trans second.processed.symm, first.outcome.trans second.outcome.symm,
    first.extraction.trans second.extraction.symm, ?_, first⟩
  intro fine
  have fine' : (exec (consumeAllLogged ops options tempRoot others) (.initial world, [])).1 =
      .ok () := second.outcome.trans (first.outcome.symm.trans fine)
  have pending := (first.pending fine).symm.trans (second.pending fine')
  have finished := first.finished.trans second.finished.symm
  have extraction := first.extraction.trans second.extraction.symm
  exact ArchiveReader.ext (Except.ok.inj pending) finished extraction

end Loop

/-- One record in three calls, its prefix cut and nothing in the second. -/
theorem consumeAll_fragmentation_begin :
    processedRecords quietOps linksOptions [ascii "tmp"] ()
        [(encodeRecords [beginRecord]).take 5, [], (encodeRecords [beginRecord]).drop 5] =
      processedRecords quietOps linksOptions [ascii "tmp"] () [encodeRecords [beginRecord]] ∧
    processedRecords quietOps linksOptions [ascii "tmp"] () [encodeRecords [beginRecord]] =
      [beginRecord] :=
  ⟨(consumeAll_fragmentation quietOps linksOptions [ascii "tmp"] () _ _ (by decide)).1, by decide⟩

end Bseal.Archive
