import Bseal.Io.ShardWriter

/-! `io/StdoutShardWriter`: one shard kept in memory and written to a stream at the end. A
stream write takes place as a whole or not at all, and a stream that failed stays bad. -/
namespace Bseal.Io
open Effect

structure OutStream where
  written : Bytes
  good : Bool
  attempts : Nat
  deriving DecidableEq, Repr

structure StdoutShardWriterOptions where
  globalHeader : GlobalPublicHeaderV1
  headerAuthenticationKey : Bytes
  perShardPublicHeaderHashes : List Bytes32

structure StdoutShardWriter where
  options : StdoutShardWriterOptions
  buffer : Bytes
  payloadOffset : UInt64
  chunkCount : UInt64
  nextExpectedChunkIndex : UInt64
  finalChunkPlaintextLen : UInt64
  finished : Bool
  aborted : Bool

/-- The members only `plan_chunk_frame` writes. -/
structure StdoutPlanner where
  plannedPayloadOffset : UInt64
  plannedNextChunkIndex : UInt64
  deriving DecidableEq, Repr

/-- The stream belongs to the caller, and is the same for every copy of the writer. -/
structure StdoutState where
  writer : StdoutShardWriter
  out : OutStream

def StdoutPlanner.fresh : StdoutPlanner := ⟨0, 0⟩

def StdoutShardWriter.validateOptions (o : StdoutShardWriterOptions) : Result Unit :=
  if o.globalHeader.chunkPlainSize = 0 then
    .error (.invalidArgument "StdoutShardWriter: global_header.chunk_plain_size is missing")
  else if allZero o.headerAuthenticationKey then
    .error (.invalidArgument "StdoutShardWriter: header_authentication_key is missing")
  else match o.perShardPublicHeaderHashes with
    | [hash] =>
      if allZero hash.toList then
        .error (.invalidArgument
          "StdoutShardWriter: per_shard_public_header_hashes[0] is all-zero")
      else .ok ()
    | _ => .error (.invalidArgument
        "StdoutShardWriter: per_shard_public_header_hashes must have exactly one entry")

def makeStdoutShardWriter (o : StdoutShardWriterOptions) : Result StdoutShardWriter := do
  StdoutShardWriter.validateOptions o
  .ok
    { options := o
      buffer := List.replicate 272 0
      payloadOffset := 0
      chunkCount := 0
      nextExpectedChunkIndex := 0
      finalChunkPlaintextLen := 0
      finished := false
      aborted := false }

def planStdoutChunkFrame (options : StdoutShardWriterOptions) (finished : Bool)
    (chunkIndex plaintextLen ciphertextLen : UInt64) (tagLen : UInt16) (finalChunk : Bool)
    (p : StdoutPlanner) : Result (PlannedChunkFrame × StdoutPlanner) :=
  if finished then .error (.error "cannot plan frame for finalized StdoutShardWriter")
  else if chunkIndex ≠ p.plannedNextChunkIndex then
    .error (.invalidArgument
      "StdoutShardWriter frame planner requires contiguous ascending chunk indexes")
  else if plaintextLen > options.globalHeader.chunkPlainSize.toUInt64 then
    .error (.invalidArgument "chunk plaintext_len exceeds archive chunk_plain_size")
  else if plaintextLen > 0xffffffff then
    .error (.invalidArgument "chunk plaintext_len does not fit ChunkFrameHeaderV1")
  else do
    let header : ChunkFrameHeaderV1 :=
      { frameFlags := if finalChunk then kChunkFrameFlagFinalChunk else 0
        shardIndex := 0
        globalChunkIndex := chunkIndex
        plaintextLen := plaintextLen.toUInt32
        ciphertextLen := ciphertextLen
        tagLen := tagLen }
    let frameSize ← chunkFrameV1EncodedSize header
    let headerBytes ← serializeChunkFrameHeaderV1 header
    pure (⟨⟨0, p.plannedPayloadOffset, chunkIndex⟩, header, headerBytes⟩,
      ⟨p.plannedPayloadOffset + frameSize, p.plannedNextChunkIndex + 1⟩)

def StdoutShardWriter.frameWritten (w : StdoutShardWriter) (header : ChunkFrameHeaderV1)
    (frame : Bytes) (frameSize : UInt64) : StdoutShardWriter :=
  { w with
    buffer := w.buffer ++ frame
    payloadOffset := w.payloadOffset + frameSize
    chunkCount := w.chunkCount + 1
    nextExpectedChunkIndex := w.nextExpectedChunkIndex + 1
    finalChunkPlaintextLen :=
      if header.frameFlags &&& kChunkFrameFlagFinalChunk ≠ 0 then header.plaintextLen.toUInt64
      else w.finalChunkPlaintextLen }

def writeStdoutChunkFrame (header : ChunkFrameHeaderV1) (headerBytes ciphertextAndTag : Bytes) :
    Effect Failure StdoutState ShardWritePosition := do
  let s ← get
  throwIf s.writer.finished (.error "cannot write to finalized StdoutShardWriter")
  throwIf (header.globalChunkIndex ≠ s.writer.nextExpectedChunkIndex)
    (.invalidArgument "StdoutShardWriter requires contiguous ascending frame chunk indexes")
  throwIf (header.plaintextLen > s.writer.options.globalHeader.chunkPlainSize)
    (.invalidArgument "chunk plaintext_len exceeds archive chunk_plain_size")
  throwIf (header.shardIndex ≠ 0)
    (.invalidArgument "StdoutShardWriter only handles shard_index 0")
  let expectedHeaderBytes ← lift (serializeChunkFrameHeaderV1 header)
  throwIf (headerBytes ≠ expectedHeaderBytes)
    (.invalidArgument "ChunkFrameHeaderV1 bytes do not match supplied header")
  let frameSize ← lift (chunkFrameV1EncodedSize header)
  throwIf (ciphertextAndTag.length ≠ (frameSize - 40).toNat)
    (.invalidArgument "ciphertext length does not match ChunkFrameHeaderV1")
  set { s with writer := s.writer.frameWritten header (headerBytes ++ ciphertextAndTag) frameSize }
  pure ⟨0, s.writer.payloadOffset, header.globalChunkIndex⟩

def StdoutShardWriter.finalGlobal (w : StdoutShardWriter) : Result GlobalPublicHeaderV1 :=
  let counted := { w.options.globalHeader with
    globalChunkCount := w.nextExpectedChunkIndex
    shardCount := 1 }
  if w.nextExpectedChunkIndex > 0 ∧ w.finalChunkPlaintextLen > 0 then do
    let full ← checkedMulU64 (w.nextExpectedChunkIndex - 1) counted.chunkPlainSize.toUInt64
      "StdoutShardWriter: padded plaintext size"
    let padded ← checkedAddU64 full w.finalChunkPlaintextLen
      "StdoutShardWriter: padded plaintext size"
    pure { counted with
      finalPlaintextChunkLen := w.finalChunkPlaintextLen.toUInt32
      paddedPlaintextSize := padded }
  else pure counted

section Stream
variable (faults : Nat → Bool)

/-- One operation of the stream; `bytes` is what a write adds. -/
def OutStream.attempt (out : OutStream) (bytes : Bytes) : OutStream :=
  if ¬out.good then out
  else if faults out.attempts then { out with good := false, attempts := out.attempts + 1 }
  else { out with written := out.written ++ bytes, attempts := out.attempts + 1 }

variable (hmacSha256 : Bytes → Bytes → Bytes32)

def streamOp (bytes : Bytes) (message : String) : Effect Failure StdoutState Unit := do
  modify fun s => { s with out := s.out.attempt faults bytes }
  let s ← get
  throwIf (¬s.out.good) (.error message)

/-- `finish`; the buffer of a writer with no key left is not reached. -/
def finishStdout : Effect Failure StdoutState Unit := do
  let s ← get
  if s.writer.finished then pure ()
  else do
    let finalGlobal ← lift s.writer.finalGlobal
    let header := shardHeader 0 0 s.writer.nextExpectedChunkIndex s.writer.payloadOffset
    let mac ← lift (computeShardHeaderMac hmacSha256 s.writer.options.headerAuthenticationKey
      finalGlobal header)
    let buffer := serializeGlobalPublicHeader finalGlobal ++
      serializeShardPublicHeader { header with headerMac := mac } ++ s.writer.buffer.drop 272
    set { s with writer := { s.writer with buffer := buffer } }
    streamOp faults buffer "StdoutShardWriter: failed to write shard to output stream"
    streamOp faults [] "StdoutShardWriter: failed to flush output stream"
    modify fun s => { s with writer := { s.writer with buffer := [], finished := true } }

def StdoutShardWriter.aborting (w : StdoutShardWriter) : StdoutShardWriter :=
  { w with aborted := true, buffer := [] }

def abortStdout (s : StdoutState) : StdoutState := { s with writer := s.writer.aborting }

/-- The destructor swallows what `finish` throws. -/
def destroyStdout (s : StdoutState) : StdoutState :=
  if ¬s.writer.finished ∧ ¬s.writer.aborted then (exec (finishStdout faults hmacSha256) s).2 else s

/-- What a move leaves behind: scalar members and the stream pointer are copied, the buffers
go to the new object. -/
def StdoutShardWriter.movedFrom (w : StdoutShardWriter) : StdoutShardWriter :=
  { w with
    options := { w.options with headerAuthenticationKey := [], perShardPublicHeaderHashes := [] }
    buffer := [] }

def writeStdoutFrames : List (ChunkFrameHeaderV1 × Bytes × Bytes) → Effect Failure StdoutState Unit
  | [] => pure ()
  | (header, headerBytes, body) :: frames => do
    let _ ← writeStdoutChunkFrame header headerBytes body
    writeStdoutFrames frames

def frameBytes (frames : List (ChunkFrameHeaderV1 × Bytes × Bytes)) : Bytes :=
  frames.flatMap fun frame => frame.2.1 ++ frame.2.2

theorem ends_writeStdoutChunkFrame (header : ChunkFrameHeaderV1) (headerBytes body : Bytes)
    (s : StdoutState) :
    Ends (writeStdoutChunkFrame header headerBytes body) s
      (fun _ t => t.out = s.out ∧ t.writer.finished = s.writer.finished ∧
        t.writer.buffer = s.writer.buffer ++ (headerBytes ++ body))
      fun _ t => t.out = s.out := by
  unfold writeStdoutChunkFrame
  rw [ends_get_bind]
  iterate 4 refine .throwIf_bind rfl fun _ => ?_
  refine .lift_bind (fun _ => rfl) fun _ _ => ?_
  refine .throwIf_bind rfl fun _ => ?_
  refine .lift_bind (fun _ => rfl) fun _ _ => ?_
  refine .throwIf_bind rfl fun _ => ?_
  rw [ends_set_bind, ends_pure]
  exact ⟨rfl, rfl, rfl⟩

theorem ends_writeStdoutFrames (frames : List (ChunkFrameHeaderV1 × Bytes × Bytes))
    (s : StdoutState) :
    Ends (writeStdoutFrames frames) s
      (fun _ t => t.out = s.out ∧ t.writer.finished = s.writer.finished ∧
        t.writer.buffer = s.writer.buffer ++ frameBytes frames)
      fun _ t => t.out = s.out := by
  induction frames generalizing s with
  | nil => exact ⟨rfl, rfl, (List.append_nil _).symm⟩
  | cons frame frames ih =>
    obtain ⟨header, headerBytes, body⟩ := frame
    refine (ends_bind _ _ s).mpr ((ends_writeStdoutChunkFrame header headerBytes body s).mono ?_
      fun _ _ => id)
    rintro _ t ⟨out, finished, buffer⟩
    refine (ih t).mono ?_ fun _ u same => same.trans out
    rintro _ u ⟨out', finished', buffer'⟩
    refine ⟨out'.trans out, finished'.trans finished, ?_⟩
    rw [buffer', buffer, List.append_assoc]
    rfl

def Sent (old written frames : Bytes) : Prop :=
  ∃ g h, written = old ++ (serializeGlobalPublicHeader g ++ serializeShardPublicHeader h ++ frames)

theorem ends_streamOp (bytes : Bytes) (message : String) (s : StdoutState) :
    Ends (streamOp faults bytes message) s
      (fun _ t => t.writer = s.writer ∧ t.out.written = s.out.written ++ bytes)
      fun _ t => t.out.written = s.out.written := by
  unfold streamOp
  rw [ends_modify_bind, ends_get_bind, ends_throwIf]
  simp only [OutStream.attempt]
  split_ifs <;> simp_all

/-- `finish` sends all of the buffer behind the headers, or nothing. -/
theorem ends_finishStdout (frames : Bytes) (s : StdoutState) (open_ : s.writer.finished = false)
    (buffer : s.writer.buffer = List.replicate 272 0 ++ frames) :
    Ends (finishStdout faults hmacSha256) s
      (fun _ t => Sent s.out.written t.out.written frames)
      fun _ t => t.out.written = s.out.written ∨ Sent s.out.written t.out.written frames := by
  unfold finishStdout
  rw [ends_get_bind, if_neg (by rw [open_]; exact Bool.false_ne_true)]
  refine .lift_bind (fun _ => .inl rfl) fun g _ => .lift_bind (fun _ => .inl rfl) fun mac _ => ?_
  rw [ends_set_bind, buffer, List.drop_left' (List.length_replicate ..)]
  refine (ends_bind _ _ _).mpr ((ends_streamOp faults _ _ _).mono ?_ fun _ _ => .inl)
  rintro _ t ⟨-, whole⟩
  have sent : Sent s.out.written t.out.written frames := ⟨g, _, whole⟩
  refine (ends_bind _ _ _).mpr ((ends_streamOp faults [] _ t).mono ?_ fun _ u same => .inr ?_)
  · rintro _ u ⟨-, same⟩
    rw [List.append_nil] at same
    rw [ends_modify]
    exact same ▸ sent
  · exact same ▸ sent

theorem destroyStdout_aborted (s : StdoutState) :
    destroyStdout faults hmacSha256 (abortStdout s) = abortStdout s :=
  if_neg fun live => live.2 rfl

/-- A writer that was moved from has no key left, so its destructor fails before it sends. -/
theorem destroyStdout_movedFrom (w : StdoutShardWriter) (out : OutStream) :
    (destroyStdout faults hmacSha256 ⟨w.movedFrom, out⟩).out = out := by
  unfold destroyStdout
  split
  · next live =>
    have stops : Keeps (fun t => t.out = out) (finishStdout faults hmacSha256)
        ⟨w.movedFrom, out⟩ := by
      unfold finishStdout
      refine .get_bind ?_
      rw [if_neg live.1]
      refine .lift_bind rfl fun g _ => .lift_bind rfl fun mac made => ?_
      cases made
    exact stops.final
  · rfl

/-- The stream gets the headers and all the frames, or nothing: nothing before `finish`, wherever a
write throws, and nothing from a writer that is aborted or moved from and then destroyed. -/
theorem stdout_all_or_nothing (o : StdoutShardWriterOptions) (w : StdoutShardWriter)
    (made : makeStdoutShardWriter o = .ok w)
    (frames : List (ChunkFrameHeaderV1 × Bytes × Bytes)) (out : OutStream) :
    Ends (do writeStdoutFrames frames; finishStdout faults hmacSha256) ⟨w, out⟩
        (fun _ t => Sent out.written t.out.written (frameBytes frames))
        (fun _ t => t.out.written = out.written ∨
          Sent out.written t.out.written (frameBytes frames)) ∧
      let s := (exec (writeStdoutFrames frames) ⟨w, out⟩).2
      (destroyStdout faults hmacSha256 (abortStdout s)).out = out ∧
        (destroyStdout faults hmacSha256 ⟨s.writer.movedFrom, s.out⟩).out = out := by
  have wrote := ends_writeStdoutFrames frames ⟨w, out⟩
  have fresh : w.finished = false ∧ w.buffer = List.replicate 272 0 := by
    unfold makeStdoutShardWriter at made
    obtain ⟨-, -, made⟩ := (Result.bind_eq_ok _ _ _).mp made
    obtain rfl := Except.ok.inj made
    exact ⟨rfl, rfl⟩
  constructor
  · refine (ends_bind _ _ _).mpr
      (wrote.mono ?_ fun _ t same => .inl (congrArg OutStream.written same))
    rintro _ t ⟨same, finished, buffer⟩
    rw [fresh.2] at buffer
    have ends := ends_finishStdout faults hmacSha256 (frameBytes frames) t
      (finished.trans fresh.1) buffer
    rwa [same] at ends
  · intro s
    have kept : s.out = out := (wrote.mono (fun _ _ met => met.1) fun _ _ => id).final
    rw [destroyStdout_aborted]
    exact ⟨kept, (destroyStdout_movedFrom faults hmacSha256 s.writer s.out).trans kept⟩

end Stream
end Bseal.Io
