import Bseal.Pipeline.DecryptDelivery

/-! A worker of the decrypt pipeline gets back what a worker of the encrypt pipeline was given, and
the archive reader gets those plaintexts in order. -/
namespace Bseal.Pipeline
open Crypto Io OrderedPipeline

section Job
variable {hkdf : Hkdf} {aead : Aead} {suite : CipherSuite} {keys : ExpandedKeys}
  {eo : EncryptPipelineOptions} {d : DecryptPipelineOptions}

/-- Both pipelines are about one archive. -/
structure SameArchive (eo : EncryptPipelineOptions) (d : DecryptPipelineOptions) : Prop where
  archiveId : d.archiveId = eo.archiveId
  hashes : d.perShardPublicHeaderHashes = eo.perShardPublicHeaderHashes
  fallback : d.publicHeaderHash = eo.publicHeaderHash
  few : eo.perShardPublicHeaderHashes.length < 2 ^ 32

def recordOf (chunk : Encrypt.CipherChunk) : ChunkRecord :=
  ⟨chunk.frameHeader.globalChunkIndex, chunk.frameHeader.shardIndex,
    chunk.frameHeader.plaintextLen.toUInt64, chunk.frameHeader.frameFlags, chunk.frameHeaderBytes,
    chunk.ciphertextAndTag⟩

structure Encrypt.PlainChunk.Describes (job : Encrypt.PlainChunk) : Prop where
  index : job.frameHeader.globalChunkIndex = UInt64.ofNat job.index
  plaintextLen : job.frameHeader.plaintextLen.toNat = job.bytes.length
  ciphertextLen : job.frameHeader.ciphertextLen = job.frameHeader.plaintextLen.toUInt64
  tagLen : job.frameHeader.tagLen = 16

theorem makeAad_eq (same : SameArchive eo d) (shardIndex : UInt32) (frameHeaderBytes : Bytes) :
    Decrypt.makeAad d shardIndex frameHeaderBytes =
      Encrypt.makeAad eo shardIndex frameHeaderBytes := by
  unfold Decrypt.makeAad Encrypt.makeAad
  rw [same.hashes, same.fallback, Decrypt.selectPublicHeaderHash_eq _ _ _ same.few]

theorem jobNonce_recordOf {backend : CryptoBackend} (same : SameArchive eo d)
    {job : Encrypt.PlainChunk} (describes : job.Describes) {chunk : Encrypt.CipherChunk}
    (header : chunk.frameHeader = job.frameHeader) :
    Decrypt.jobNonce hkdf backend keys d (Decrypt.queued (recordOf chunk)) =
      Encrypt.jobNonce hkdf backend keys eo job := by
  unfold Decrypt.jobNonce Encrypt.jobNonce
  rw [same.archiveId]
  change deriveChunkNonce _ _ _ chunk.frameHeader.globalChunkIndex = _
  rw [header, describes.index]

theorem encryptJob_length {backend : CryptoBackend} {job : Encrypt.PlainChunk}
    {chunk : Encrypt.CipherChunk} (describes : job.Describes)
    (worked : Encrypt.encryptJob hkdf backend keys eo job = .ok chunk) :
    chunk.ciphertextAndTag.length = job.bytes.length + 16 := by
  obtain ⟨_, ciphertext, -, -, length, rfl⟩ := Encrypt.encryptJob_ok.mp worked
  have small := job.frameHeader.plaintextLen.toNat_lt
  rw [length, describes.ciphertextLen, describes.tagLen, UInt64.toNat_add, UInt32.toNat_toUInt64,
    describes.plaintextLen]
  rw [describes.plaintextLen] at small
  change (job.bytes.length + 16) % 2 ^ 64 = _
  omega

/-- What a worker has encrypted, a worker with the same keys decrypts. -/
theorem decryptJob_encryptJob
    (decrypts : ∀ key nonce plaintext aad,
      aead.decrypt suite key nonce (aead.encrypt suite key nonce plaintext aad) aad =
        some plaintext)
    (same : SameArchive eo d) {job : Encrypt.PlainChunk} {chunk : Encrypt.CipherChunk}
    (describes : job.Describes)
    (worked : Encrypt.encryptJob hkdf (aeadBackend aead suite) keys eo job = .ok chunk) :
    Decrypt.decryptJob hkdf (aeadBackend aead suite) keys d (Decrypt.queued (recordOf chunk)) =
      .ok ⟨UInt64.ofNat job.index, job.bytes⟩ := by
  have long := encryptJob_length describes worked
  have small := job.frameHeader.plaintextLen.toNat_lt
  rw [describes.plaintextLen] at small
  obtain ⟨nonce, ciphertext, derived, encrypted, -, rfl⟩ := Encrypt.encryptJob_ok.mp worked
  change ciphertext.length = _ at long
  change aeadEncryptChunk aead suite _ = _ at encrypted
  unfold aeadEncryptChunk at encrypted
  obtain ⟨_, valid, rest⟩ := (Result.bind_eq_ok _ _ _).mp encrypted
  obtain ⟨aad, serialized, rest⟩ := (Result.bind_eq_ok _ _ _).mp rest
  obtain ⟨_, sized, result⟩ := (Result.bind_eq_ok _ _ _).mp rest
  have sealed := (Except.ok.inj result).symm
  have nonce' : Decrypt.jobNonce hkdf (aeadBackend aead suite) keys d
      (Decrypt.queued (recordOf ⟨job.index, job.frameHeader, job.frameHeaderBytes, ciphertext⟩)) =
      .ok nonce := (jobNonce_recordOf same describes rfl).trans derived
  have opened : (aeadBackend aead suite).decryptChunk (Decrypt.request keys d
      (Decrypt.queued (recordOf ⟨job.index, job.frameHeader, job.frameHeaderBytes, ciphertext⟩))
      nonce) = .ok job.bytes := by
    have bound : serializeChunkAadV1 (Decrypt.makeAad d job.frameHeader.shardIndex
        job.frameHeaderBytes) = .ok aad := by
      rw [makeAad_eq same]
      exact serialized
    refine aeadDecryptChunk_ok valid (by change 16 ≤ ciphertext.length; omega)
      (by change ciphertext.length < 2 ^ 64; omega) bound ?_ ?_
    · change checkedSize suite (ciphertext.length - 16) _ = _
      rw [long, Nat.add_sub_cancel]
      exact sized
    · rw [sealed]
      exact decrypts _ _ _ _
  refine Decrypt.decryptJob_ok.mpr ⟨nonce, job.bytes, nonce', opened, ?_, ?_⟩
  · rw [← describes.plaintextLen]
    exact (UInt32.toNat_toUInt64 _).symm
  · rw [← describes.index]
    rfl

end Job

end Bseal.Pipeline
