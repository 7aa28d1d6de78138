import Bseal.Crypto.KeySchedule
import Bseal.Io.AnyShardWriter
import Bseal.Lib.OrderedWork
import Bseal.Pipeline.HeaderHash

/-! `pipeline/EncryptPipeline`: the producer cuts the archive records into chunks and plans
their frames, the workers encrypt them, and the main thread writes them in order. The chunk
counters of the threads are natural numbers; a frame and a nonce carry them in 64 bits. -/
namespace Bseal.Pipeline
open Crypto Effect Io OrderedPipeline

/-- The successive results of `next_record_bytes`, up to the end or an exception. -/
structure RecordStream where
  records : List Bytes
  ending : Option Failure

/-- `bytes_produced` of the archive writer at the end of its stream. -/
def RecordStream.bytesProduced (stream : RecordStream) : UInt64 :=
  UInt64.ofNat (stream.records.map List.length).sum

structure EncryptPipelineOptions where
  chunkPlainSize : UInt64
  archiveId : Bytes32
  perShardPublicHeaderHashes : List Bytes32
  publicHeaderHash : Bytes32
  emitFinalChunkWhenEmpty : Bool
  expectedPlaintextBytes : UInt64

namespace Encrypt

structure PlainChunk where
  index : Nat
  frameHeader : ChunkFrameHeaderV1
  frameHeaderBytes : Bytes
  bytes : Bytes
  deriving DecidableEq, Repr

structure CipherChunk where
  index : Nat
  frameHeader : ChunkFrameHeaderV1
  frameHeaderBytes : Bytes
  ciphertextAndTag : Bytes
  deriving DecidableEq, Repr

/-- The producer's variables. A full chunk is held back until it is known not to be the last. -/
structure Chunker (ρ : Type) where
  currentChunk : Bytes
  pendingFullChunk : Option Bytes
  nextChunkIndex : Nat
  planner : ρ

section Producer
variable {ρ ω : Type} (writer : AnyShardWriter ρ ω) (tagSize : UInt16)

abbrev Producer := Script PlainChunk Failure

def enqueuePlannedChunk (bytes : Bytes) (finalChunk : Bool) (c : Chunker ρ)
    (accepted refused : Chunker ρ → Producer) : Producer :=
  let plaintextLen := UInt64.ofNat bytes.length
  match writer.planChunkFrame (UInt64.ofNat c.nextChunkIndex) plaintextLen plaintextLen tagSize
    finalChunk c.planner with
  | .error e => .throw e
  | .ok (planned, planner) =>
    let c' := { c with nextChunkIndex := c.nextChunkIndex + 1, planner := planner }
    .push ⟨c.nextChunkIndex, planned.header, planned.headerBytes, bytes⟩ (accepted c') (refused c')

def flushPendingAsNonFinal (c : Chunker ρ) (next : Chunker ρ → Producer) : Producer :=
  match c.pendingFullChunk with
  | none => next c
  | some bytes =>
    enqueuePlannedChunk writer tagSize bytes false { c with pendingFullChunk := none } next
      fun _ => .done

/-- The copy loop, which takes at least one byte a round. -/
def appendRecordBytesToChunks (chunkSize : Nat) :
    Nat → Bytes → Chunker ρ → (Chunker ρ → Producer) → Producer
  | 0, _, c, next => next c
  | rounds + 1, record, c, next =>
    if record.isEmpty then next c
    else
      let toCopy := min record.length (chunkSize - c.currentChunk.length)
      let current := c.currentChunk ++ record.take toCopy
      if current.length = chunkSize then
        flushPendingAsNonFinal writer tagSize { c with currentChunk := current } fun c =>
          appendRecordBytesToChunks chunkSize rounds (record.drop toCopy)
            { c with pendingFullChunk := some c.currentChunk, currentChunk := [] } next
      else
        appendRecordBytesToChunks chunkSize rounds (record.drop toCopy)
          { c with currentChunk := current } next

def contentChanged (expected produced : UInt64) : Failure :=
  .invalidArgument ("archive content changed during encryption: expected " ++ toString expected ++
    " plaintext bytes but produced " ++ toString produced)

def checkProduced (options : EncryptPipelineOptions) (stream : RecordStream) : Producer :=
  if options.expectedPlaintextBytes > 0 ∧
      stream.bytesProduced ≠ options.expectedPlaintextBytes then
    .throw (contentChanged options.expectedPlaintextBytes stream.bytesProduced)
  else .done

/-- After the last record; the outcome of the last push is not looked at. -/
def enqueueFinalChunk (options : EncryptPipelineOptions) (stream : RecordStream) (c : Chunker ρ) :
    Producer :=
  let last (bytes : Bytes) (c : Chunker ρ) : Producer :=
    enqueuePlannedChunk writer tagSize bytes true c (fun _ => checkProduced options stream)
      fun _ => checkProduced options stream
  if ¬c.currentChunk.isEmpty then
    flushPendingAsNonFinal writer tagSize c fun c => last c.currentChunk c
  else match c.pendingFullChunk with
    | some bytes => last bytes c
    | none =>
      if options.emitFinalChunkWhenEmpty then last [] c
      else checkProduced options stream

def afterRecords (options : EncryptPipelineOptions) (stream : RecordStream) (c : Chunker ρ) :
    Producer :=
  .check (enqueueFinalChunk writer tagSize options stream c) .done

def recordLoop (options : EncryptPipelineOptions) (stream : RecordStream) (chunkSize : Nat) :
    List Bytes → Chunker ρ → Producer
  | [], c =>
    .check
      (match stream.ending with
      | some e => .throw e
      | none => afterRecords writer tagSize options stream c)
      (afterRecords writer tagSize options stream c)
  | record :: records, c =>
    .check
      (appendRecordBytesToChunks writer tagSize chunkSize record.length record c
        (recordLoop options stream chunkSize records))
      (afterRecords writer tagSize options stream c)

end Producer

section Numbered
variable {ρ ω : Type} (writer : AnyShardWriter ρ ω) (tagSize : UInt16)

def Continues (next : Chunker ρ → Producer) : Prop :=
  ∀ c k, c.nextChunkIndex = k → (next c).Numbered PlainChunk.index k

theorem enqueuePlannedChunk_numbered (bytes : Bytes) (finalChunk : Bool)
    {accepted refused : Chunker ρ → Producer} (front : Continues accepted)
    (back : Continues refused) :
    Continues fun c => enqueuePlannedChunk writer tagSize bytes finalChunk c accepted refused := by
  rintro c k rfl
  simp only [enqueuePlannedChunk]
  split
  · trivial
  · exact ⟨rfl, front _ _ rfl, back _ _ rfl⟩

theorem continues_done : Continues (fun _ : Chunker ρ => .done) := fun _ _ _ => trivial

theorem flushPendingAsNonFinal_numbered {next : Chunker ρ → Producer} (rest : Continues next) :
    Continues fun c => flushPendingAsNonFinal writer tagSize c next := by
  intro c k here
  simp only [flushPendingAsNonFinal]
  split
  · exact rest c k here
  · exact enqueuePlannedChunk_numbered writer tagSize _ _ rest continues_done _ k here

theorem appendRecordBytesToChunks_numbered (chunkSize rounds : Nat) (record : Bytes)
    {next : Chunker ρ → Producer} (rest : Continues next) :
    Continues fun c => appendRecordBytesToChunks writer tagSize chunkSize rounds record c next := by
  induction rounds generalizing record with
  | zero => exact rest
  | succ rounds ih =>
    intro c k here
    simp only [appendRecordBytesToChunks]
    split
    · exact rest c k here
    · split
      · have more : Continues fun c' : Chunker ρ =>
            appendRecordBytesToChunks writer tagSize chunkSize rounds
              (record.drop (min record.length (chunkSize - c.currentChunk.length)))
              { c' with pendingFullChunk := some c'.currentChunk, currentChunk := [] } next :=
          fun c' k' here' => ih _ _ k' here'
        exact flushPendingAsNonFinal_numbered writer tagSize more _ k here
      · exact ih _ _ k here

variable (options : EncryptPipelineOptions) (stream : RecordStream)

theorem continues_checkProduced :
    Continues fun _ : Chunker ρ => checkProduced options stream := by
  intro c k here
  simp only [checkProduced]
  split
  · trivial
  · trivial

theorem enqueueFinalChunk_numbered :
    Continues (enqueueFinalChunk writer tagSize options stream) := by
  intro c k here
  have last : ∀ bytes, Continues fun c => enqueuePlannedChunk writer tagSize bytes true c
      (fun _ => checkProduced options stream) fun _ => checkProduced options stream := fun bytes =>
    enqueuePlannedChunk_numbered writer tagSize bytes true (continues_checkProduced options stream)
      (continues_checkProduced options stream)
  simp only [enqueueFinalChunk]
  split
  · exact flushPendingAsNonFinal_numbered writer tagSize (fun c k here => last _ c k here) c k here
  · split
    · exact last _ c k here
    · split
      · exact last [] c k here
      · exact continues_checkProduced options stream c k here

theorem recordLoop_numbered (chunkSize : Nat) (records : List Bytes) :
    Continues (recordLoop writer tagSize options stream chunkSize records) := by
  have after : Continues (afterRecords writer tagSize options stream) := fun c k here =>
    ⟨enqueueFinalChunk_numbered writer tagSize options stream c k here, trivial⟩
  induction records with
  | nil =>
    intro c k here
    refine ⟨?_, after c k here⟩
    split
    · trivial
    · exact after c k here
  | cons record records ih =>
    intro c k here
    exact ⟨appendRecordBytesToChunks_numbered writer tagSize chunkSize _ record ih c k here,
      after c k here⟩

end Numbered

section Ending
variable {ρ ω : Type} (writer : AnyShardWriter ρ ω) (tagSize : UInt16)
  (options : EncryptPipelineOptions) (stream : RecordStream)

def Fails (next : Chunker ρ → Producer) : Prop := ∀ c, (next c).ending ≠ none

theorem enqueuePlannedChunk_fails (bytes : Bytes) (finalChunk : Bool)
    {accepted refused : Chunker ρ → Producer} (fails : Fails accepted) :
    Fails fun c => enqueuePlannedChunk writer tagSize bytes finalChunk c accepted refused := by
  intro c
  simp only [enqueuePlannedChunk]
  split
  · exact Option.some_ne_none _
  · exact fails _

theorem flushPendingAsNonFinal_fails {next : Chunker ρ → Producer} (fails : Fails next) :
    Fails fun c => flushPendingAsNonFinal writer tagSize c next := by
  intro c
  simp only [flushPendingAsNonFinal]
  split
  · exact fails c
  · exact enqueuePlannedChunk_fails writer tagSize _ _ fails _

theorem appendRecordBytesToChunks_fails (chunkSize rounds : Nat) (record : Bytes)
    {next : Chunker ρ → Producer} (fails : Fails next) :
    Fails fun c => appendRecordBytesToChunks writer tagSize chunkSize rounds record c next := by
  induction rounds generalizing record with
  | zero => exact fails
  | succ rounds ih =>
    intro c
    simp only [appendRecordBytesToChunks]
    split
    · exact fails c
    · split
      · exact flushPendingAsNonFinal_fails writer tagSize (fun _ => ih _ _) _
      · exact ih _ _

theorem enqueueFinalChunk_fails (fails : (checkProduced options stream).ending ≠ none) :
    Fails (enqueueFinalChunk writer tagSize options stream) := by
  intro c
  have last : ∀ bytes, Fails fun c => enqueuePlannedChunk writer tagSize bytes true c
      (fun _ => checkProduced options stream) fun _ => checkProduced options stream := fun bytes =>
    enqueuePlannedChunk_fails writer tagSize bytes true fun _ => fails
  simp only [enqueueFinalChunk]
  split
  · exact flushPendingAsNonFinal_fails writer tagSize (fun c => last _ c) c
  · split
    · exact last _ c
    · split
      · exact last [] c
      · exact fails

theorem recordLoop_fails (fails : (checkProduced options stream).ending ≠ none)
    (chunkSize : Nat) (records : List Bytes) :
    Fails (recordLoop writer tagSize options stream chunkSize records) := by
  induction records with
  | nil =>
    intro c
    simp only [recordLoop, Script.ending]
    split
    · exact Option.some_ne_none _
    · exact enqueueFinalChunk_fails writer tagSize options stream fails c
  | cons record records ih =>
    exact fun c => appendRecordBytesToChunks_fails writer tagSize chunkSize _ record ih c

end Ending

def checkedChunkSize (chunkPlainSize : UInt64) : Result Nat :=
  if chunkPlainSize = 0 then
    .error (.invalidArgument "chunk_plain_size must be greater than zero")
  else .ok chunkPlainSize.toNat

def checkedTagSize (backend : CryptoBackend) : Result UInt16 :=
  if backend.tagSize = 0 ∨ backend.tagSize > 65535 then
    .error (.invalidArgument "AEAD tag size does not fit ChunkFrameHeaderV1")
  else .ok (UInt16.ofNat backend.tagSize)

def producerMain {ρ ω : Type} (writer : AnyShardWriter ρ ω) (options : EncryptPipelineOptions)
    (tagSize : UInt16) (stream : RecordStream) : Producer :=
  match checkedChunkSize options.chunkPlainSize with
  | .error e => .throw e
  | .ok chunkSize =>
    recordLoop writer tagSize options stream chunkSize stream.records ⟨[], none, 0, writer.planner⟩

theorem producerMain_numbered {ρ ω : Type} (writer : AnyShardWriter ρ ω)
    (options : EncryptPipelineOptions) (tagSize : UInt16) (stream : RecordStream) :
    (producerMain writer options tagSize stream).Numbered PlainChunk.index 0 := by
  unfold producerMain
  split
  · trivial
  · exact recordLoop_numbered writer tagSize options stream _ _ _ 0 rfl

/-- A producer that expected another number of bytes than the stream has never ends well. -/
theorem producerMain_fails {ρ ω : Type} (writer : AnyShardWriter ρ ω)
    (options : EncryptPipelineOptions) (tagSize : UInt16) (stream : RecordStream)
    (expects : 0 < options.expectedPlaintextBytes)
    (differs : stream.bytesProduced ≠ options.expectedPlaintextBytes) :
    (producerMain writer options tagSize stream).ending ≠ none := by
  have fails : (checkProduced options stream).ending ≠ none := by
    rw [checkProduced, if_pos ⟨expects, differs⟩]
    exact Option.some_ne_none _
  unfold producerMain
  split
  · exact Option.some_ne_none _
  · exact recordLoop_fails writer tagSize options stream fails _ _ _

section Worker
variable (hkdf : Hkdf) (backend : CryptoBackend) (keys : ExpandedKeys)
  (options : EncryptPipelineOptions)

def makeAad (shardIndex : UInt32) (frameHeaderBytes : Bytes) : ChunkAad where
  publicHeaderHash := (selectPublicHeaderHash options.perShardPublicHeaderHashes
    options.publicHeaderHash shardIndex).toList
  chunkFrameHeader := frameHeaderBytes

def request (job : PlainChunk) (nonce : Bytes) : EncryptChunkRequest where
  key := keys.chunkEncryptionKey
  nonce := nonce
  plaintext := job.bytes
  aad := makeAad options job.frameHeader.shardIndex job.frameHeaderBytes

def jobNonce (job : PlainChunk) : Result Bytes :=
  deriveChunkNonce hkdf keys.nonceDerivationKey ⟨backend.suite, options.archiveId⟩
    (UInt64.ofNat job.index)

/-- One round of `encryption_worker_main`, with the `encrypt_chunk` calls it makes. -/
def encryptRound (job : PlainChunk) : Effect Failure (List EncryptChunkRequest) CipherChunk := do
  let nonce ← lift (jobNonce hkdf backend keys options job)
  let ciphertext ← noted backend.encryptChunk (request keys options job nonce)
  let expectedSize := job.frameHeader.ciphertextLen + job.frameHeader.tagLen.toUInt64
  throwIf (ciphertext.length ≠ expectedSize.toNat)
    (.error "AEAD backend returned ciphertext length inconsistent with ChunkFrameHeaderV1")
  pure ⟨job.index, job.frameHeader, job.frameHeaderBytes, ciphertext⟩

def encryptJob (job : PlainChunk) : Result CipherChunk :=
  (exec (encryptRound hkdf backend keys options job) []).1

def roundCalls (job : PlainChunk) : List EncryptChunkRequest :=
  (exec (encryptRound hkdf backend keys options job) []).2

variable {hkdf backend keys options} {job : PlainChunk}

theorem encryptJob_ok {chunk : CipherChunk} :
    encryptJob hkdf backend keys options job = .ok chunk ↔ ∃ nonce ciphertext,
      jobNonce hkdf backend keys options job = .ok nonce ∧
      backend.encryptChunk (request keys options job nonce) = .ok ciphertext ∧
      ciphertext.length =
        (job.frameHeader.ciphertextLen + job.frameHeader.tagLen.toUInt64).toNat ∧
      chunk = ⟨job.index, job.frameHeader, job.frameHeaderBytes, ciphertext⟩ := by
  constructor
  · intro worked
    have ran : exec (encryptRound hkdf backend keys options job) [] =
        (.ok chunk, roundCalls hkdf backend keys options job) := Prod.ext worked rfl
    obtain ⟨nonce, derived, rest⟩ := (exec_lift_bind_ok _ _ _ _ _).mp ran
    obtain ⟨ciphertext, encrypted, rest⟩ := (exec_noted_bind_ok _ _ _ _ _ _).mp rest
    obtain ⟨long, rest⟩ := (exec_throwIf_bind_ok _ _ _ _ _ _).mp rest
    exact ⟨nonce, ciphertext, derived, encrypted, not_not.mp long,
      ((exec_pure_ok _ _ _ _).mp rest).1.symm⟩
  · rintro ⟨nonce, ciphertext, derived, encrypted, long, rfl⟩
    have ran : exec (encryptRound hkdf backend keys options job) [] =
        (.ok ⟨job.index, job.frameHeader, job.frameHeaderBytes, ciphertext⟩,
          [request keys options job nonce]) :=
      (exec_lift_bind_ok _ _ _ _ _).mpr ⟨nonce, derived, (exec_noted_bind_ok _ _ _ _ _ _).mpr
        ⟨ciphertext, encrypted, (exec_throwIf_bind_ok _ _ _ _ _ _).mpr ⟨not_not.mpr long, rfl⟩⟩⟩
    exact congrArg Prod.fst ran

theorem roundCalls_eq : roundCalls hkdf backend keys options job =
    ((jobNonce hkdf backend keys options job).toOption.map (request keys options job)).toList := by
  unfold roundCalls encryptRound
  rw [exec_bind, exec_lift]
  rcases jobNonce hkdf backend keys options job with e | nonce
  · rfl
  · simp only
    rw [exec_bind, exec_noted]
    rcases backend.encryptChunk (request keys options job nonce) with e | ciphertext
    · rfl
    · simp only [exec_throwIf_bind]
      split
      · rfl
      · rfl

end Worker
end Encrypt

structure EncryptPipeline (ρ ω : Type) where
  options : EncryptPipelineOptions
  backend : CryptoBackend
  keys : ExpandedKeys
  stream : RecordStream
  shardWriter : AnyShardWriter ρ ω
  hkdf : Hkdf

namespace EncryptPipeline
variable {ρ ω : Type} (p : EncryptPipeline ρ ω)

def validateInputs : Result UInt16 := do
  let _ ← Encrypt.checkedChunkSize p.options.chunkPlainSize
  let tagSize ← Encrypt.checkedTagSize p.backend
  if p.keys.chunkEncryptionKey.length ≠ p.backend.keySize then
    .error (.invalidArgument "chunk encryption key size does not match selected AEAD backend")
  else if p.keys.nonceDerivationKey.isEmpty then
    .error (.invalidArgument "nonce derivation key must not be empty")
  else .ok tagSize

def writeFrame (chunk : Encrypt.CipherChunk) : Effect Failure ω Unit := do
  let _ ← p.shardWriter.writeChunkFrame chunk.frameHeader chunk.frameHeaderBytes
    chunk.ciphertextAndTag
  pure ()

def threads (tagSize : UInt16) (workers capacity : Nat) (workersPos : 0 < workers)
    (capacityPos : 0 < capacity) :
    OrderedPipeline.Pipeline Encrypt.PlainChunk Encrypt.CipherChunk Failure ω where
  workers := workers
  capacity := capacity
  workersPos := workersPos
  capacityPos := capacityPos
  script := Encrypt.producerMain p.shardWriter p.options tagSize p.stream
  work := Encrypt.encryptJob p.hkdf p.backend p.keys p.options
  index := Encrypt.CipherChunk.index
  consume := p.writeFrame
  finish := p.shardWriter.finish
  sinkCheck := fun _ => none
  stale := .error "encrypt pipeline received a stale encrypted chunk"
  duplicate := .error "encrypt pipeline received a duplicate encrypted chunk"
  missing := .error "encrypt pipeline ended with missing encrypted chunks"

end EncryptPipeline

/-- `hardware_concurrency` is what the platform detects, 0 when it cannot tell. -/
def resolveWorkerCount (requested hardwareConcurrency : UInt32) : UInt32 :=
  if requested ≠ 0 then requested
  else if hardwareConcurrency = 0 then 1
  else hardwareConcurrency

def resolveQueueDepth (requested : UInt64) (workerCount : UInt32) : UInt64 :=
  if requested ≠ 0 then requested
  else if 2 < workerCount.toUInt64 * 2 then workerCount.toUInt64 * 2
  else 2

theorem resolveWorkerCount_pos (requested hardwareConcurrency : UInt32) :
    0 < (resolveWorkerCount requested hardwareConcurrency).toNat := by
  unfold resolveWorkerCount
  split
  · exact u32_pos ‹_›
  · split
    · decide
    · exact u32_pos ‹_›

theorem resolveQueueDepth_pos (requested : UInt64) (workerCount : UInt32) :
    0 < (resolveQueueDepth requested workerCount).toNat := by
  unfold resolveQueueDepth
  split
  · exact u64_pos ‹_›
  · split
    · exact (Nat.zero_le _).trans_lt (UInt64.lt_iff_toNat_lt.mp ‹_›)
    · decide

end Bseal.Pipeline
