import Bseal.Crypto.KeySchedule
import Bseal.Io.ShardStream
import Bseal.Lib.OrderedDelivery
import Bseal.Pipeline.Encrypt

/-! `pipeline/DecryptPipeline`: the reader queues the records of the shard reader, the workers
authenticate and decrypt them, and the main thread hands the plaintexts to the archive reader
in order. -/
namespace Bseal.Pipeline
open Crypto Effect Io OrderedPipeline

/-- The successive results of `read_next_chunk_record`, up to the end or an exception. -/
structure ChunkStream where
  records : List ChunkRecord
  ending : Option Failure

/-- What the pipeline uses of an archive reader. -/
structure PlaintextReader (σ : Type) where
  consume : Bytes → Effect Failure σ Unit
  finish : Effect Failure σ Unit

structure DecryptPipelineOptions where
  chunkPlainSize : UInt64
  archiveId : Bytes32
  publicHeaderHash : Bytes32
  perShardPublicHeaderHashes : List Bytes32
  paddedPlaintextSize : UInt64

namespace Decrypt

structure CipherChunk where
  index : UInt64
  plaintextSize : UInt64
  shardIndex : UInt32
  frameHeaderBytes : Bytes
  ciphertextAndTag : Bytes
  deriving DecidableEq, Repr

structure PlainChunk where
  index : UInt64
  bytes : Bytes
  deriving DecidableEq, Repr

def PlainChunk.position (chunk : PlainChunk) : Nat := chunk.index.toNat

def queued (record : ChunkRecord) : CipherChunk where
  index := record.chunkIndex
  plaintextSize := record.plaintextSize
  shardIndex := record.shardIndex
  frameHeaderBytes := record.frameHeaderBytes
  ciphertextAndTag := record.ciphertext

/-- A refused push ends the reader. -/
def readerMain (ending : Option Failure) : List ChunkRecord → Script CipherChunk Failure
  | [] =>
    .check
      (match ending with
      | some e => .throw e
      | none => .done)
      .done
  | record :: records => .check (.push (queued record) (readerMain ending records) .done) .done

section Worker
variable (hkdf : Hkdf) (backend : CryptoBackend) (keys : ExpandedKeys)
  (options : DecryptPipelineOptions)

def makeAad (shardIndex : UInt32) (frameHeaderBytes : Bytes) : ChunkAad where
  publicHeaderHash := (selectPublicHeaderHash options.perShardPublicHeaderHashes
    options.publicHeaderHash shardIndex).toList
  chunkFrameHeader := frameHeaderBytes

def request (job : CipherChunk) (nonce : Bytes) : DecryptChunkRequest where
  key := keys.chunkEncryptionKey
  nonce := nonce
  ciphertextAndTag := job.ciphertextAndTag
  aad := makeAad options job.shardIndex job.frameHeaderBytes

def jobNonce (job : CipherChunk) : Result Bytes :=
  deriveChunkNonce hkdf keys.nonceDerivationKey ⟨backend.suite, options.archiveId⟩ job.index

/-- One round of `decryption_worker_main`, with the `decrypt_chunk` calls it makes. -/
def decryptRound (job : CipherChunk) : Effect Failure (List DecryptChunkRequest) PlainChunk := do
  let nonce ← lift (jobNonce hkdf backend keys options job)
  let plaintext ← noted backend.decryptChunk (request keys options job nonce)
  throwIf (plaintext.length ≠ job.plaintextSize.toNat)
    (.error "decrypted plaintext length does not match ChunkFrameHeaderV1")
  pure ⟨job.index, plaintext⟩

def decryptJob (job : CipherChunk) : Result PlainChunk :=
  (exec (decryptRound hkdf backend keys options job) []).1

def roundCalls (job : CipherChunk) : List DecryptChunkRequest :=
  (exec (decryptRound hkdf backend keys options job) []).2

variable {hkdf backend keys options} {job : CipherChunk}

theorem decryptJob_ok {chunk : PlainChunk} :
    decryptJob hkdf backend keys options job = .ok chunk ↔ ∃ nonce plaintext,
      jobNonce hkdf backend keys options job = .ok nonce ∧
      backend.decryptChunk (request keys options job nonce) = .ok plaintext ∧
      plaintext.length = job.plaintextSize.toNat ∧ chunk = ⟨job.index, plaintext⟩ := by
  constructor
  · intro worked
    have ran : exec (decryptRound hkdf backend keys options job) [] =
        (.ok chunk, roundCalls hkdf backend keys options job) := Prod.ext worked rfl
    obtain ⟨nonce, derived, rest⟩ := (exec_lift_bind_ok _ _ _ _ _).mp ran
    obtain ⟨plaintext, decrypted, rest⟩ := (exec_noted_bind_ok _ _ _ _ _ _).mp rest
    obtain ⟨long, rest⟩ := (exec_throwIf_bind_ok _ _ _ _ _ _).mp rest
    exact ⟨nonce, plaintext, derived, decrypted, not_not.mp long,
      ((exec_pure_ok _ _ _ _).mp rest).1.symm⟩
  · rintro ⟨nonce, plaintext, derived, decrypted, long, rfl⟩
    have ran : exec (decryptRound hkdf backend keys options job) [] =
        (.ok ⟨job.index, plaintext⟩, [request keys options job nonce]) :=
      (exec_lift_bind_ok _ _ _ _ _).mpr ⟨nonce, derived, (exec_noted_bind_ok _ _ _ _ _ _).mpr
        ⟨plaintext, decrypted, (exec_throwIf_bind_ok _ _ _ _ _ _).mpr ⟨not_not.mpr long, rfl⟩⟩⟩
    exact congrArg Prod.fst ran

theorem roundCalls_eq : roundCalls hkdf backend keys options job =
    ((jobNonce hkdf backend keys options job).toOption.map (request keys options job)).toList := by
  unfold roundCalls decryptRound
  rw [exec_bind, exec_lift]
  rcases jobNonce hkdf backend keys options job with e | nonce
  · rfl
  · simp only
    rw [exec_bind, exec_noted]
    rcases backend.decryptChunk (request keys options job nonce) with e | plaintext
    · rfl
    · simp only [exec_throwIf_bind]
      split
      · rfl
      · rfl

end Worker

/-- The variables of the ordered consumer that outlive an item. -/
structure Consumer (σ : Type) where
  archiveReader : σ
  totalPlaintextBytes : UInt64

def Consumer.count {σ : Type} (c : Consumer σ) (bytes : Bytes) : Consumer σ :=
  { c with totalPlaintextBytes := c.totalPlaintextBytes + UInt64.ofNat bytes.length }

section Consume
variable {σ : Type} (reader : PlaintextReader σ)

def onArchiveReader (x : Effect Failure σ Unit) : Effect Failure (Consumer σ) Unit :=
  Effect.zoom Consumer.archiveReader (fun w c => { c with archiveReader := w }) id x

def consumePlaintext (chunk : PlainChunk) : Effect Failure (Consumer σ) Unit := do
  modify fun c => c.count chunk.bytes
  onArchiveReader (reader.consume chunk.bytes)

/-- The check before `finish`; an expected size of 0 turns it off. -/
def checkTotal (expected total : UInt64) : Option Failure :=
  if expected ≠ 0 ∧ total ≠ expected then
    some (.invalidArgument
      "decrypted plaintext length does not match public header padded_plaintext_size")
  else none

end Consume
end Decrypt

structure DecryptPipeline (σ : Type) where
  options : DecryptPipelineOptions
  backend : CryptoBackend
  keys : ExpandedKeys
  stream : ChunkStream
  archiveReader : PlaintextReader σ
  hkdf : Hkdf

namespace DecryptPipeline
variable {σ : Type} (p : DecryptPipeline σ)

def validateInputs : Result Unit := do
  let _ ← Encrypt.checkedChunkSize p.options.chunkPlainSize
  if p.keys.chunkEncryptionKey.length ≠ p.backend.keySize then
    .error (.invalidArgument "chunk encryption key size does not match selected AEAD backend")
  else if p.keys.nonceDerivationKey.isEmpty then
    .error (.invalidArgument "nonce derivation key must not be empty")
  else .ok ()

def threads (workers capacity : Nat) (workersPos : 0 < workers) (capacityPos : 0 < capacity) :
    OrderedPipeline.Pipeline Decrypt.CipherChunk Decrypt.PlainChunk Failure
      (Decrypt.Consumer σ) where
  workers := workers
  capacity := capacity
  workersPos := workersPos
  capacityPos := capacityPos
  script := Decrypt.readerMain p.stream.ending p.stream.records
  work := Decrypt.decryptJob p.hkdf p.backend p.keys p.options
  index := Decrypt.PlainChunk.position
  consume := Decrypt.consumePlaintext p.archiveReader
  finish := Decrypt.onArchiveReader p.archiveReader.finish
  sinkCheck := fun c => Decrypt.checkTotal p.options.paddedPlaintextSize c.totalPlaintextBytes
  stale := .error "decrypt pipeline received a stale plaintext chunk"
  duplicate := .error "decrypt pipeline received a duplicate plaintext chunk"
  missing := .error "decrypt pipeline ended with missing plaintext chunks"

end DecryptPipeline
end Bseal.Pipeline
