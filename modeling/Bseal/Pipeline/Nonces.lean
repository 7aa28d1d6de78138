import Bseal.Pipeline.DecryptDelivery

/-! The nonces of an encryption run: one for every `encrypt_chunk` call, and the one the decrypt
pipeline derives again. -/
namespace Bseal.Pipeline
open Crypto Io OrderedPipeline

def DecryptPipeline.decryptCalls {σ : Type} (p : DecryptPipeline σ) (record : ChunkRecord) :
    List DecryptChunkRequest :=
  Decrypt.roundCalls p.hkdf p.backend p.keys p.options (Decrypt.queued record)

namespace EncryptPipeline
variable {ρ ω : Type} (p : EncryptPipeline ρ ω)

/-- The `encrypt_chunk` calls that the workers' rounds for these jobs make. -/
def encryptCalls (jobs : List Encrypt.PlainChunk) : List EncryptChunkRequest :=
  jobs.flatMap (Encrypt.roundCalls p.hkdf p.backend p.keys p.options)

theorem mem_encryptCalls {jobs : List Encrypt.PlainChunk} {call : EncryptChunkRequest} :
    call ∈ p.encryptCalls jobs ↔ ∃ job ∈ jobs, ∃ nonce,
      Encrypt.jobNonce p.hkdf p.backend p.keys p.options job = .ok nonce ∧
        call = Encrypt.request p.keys p.options job nonce := by
  rw [encryptCalls, List.mem_flatMap]
  refine exists_congr fun job => and_congr_right fun _ => ?_
  rw [Encrypt.roundCalls_eq]
  cases Encrypt.jobNonce p.hkdf p.backend p.keys p.options job with
  | error e => simp [Except.toOption]
  | ok nonce => simp [Except.toOption]

/-- Jobs with different 64-bit indices get different nonces. -/
theorem encryptCalls_nonces_nodup {jobs : List Encrypt.PlainChunk}
    (distinct : (jobs.map Encrypt.PlainChunk.index).Nodup)
    (few : ∀ job ∈ jobs, job.index < 2 ^ 64) :
    ((p.encryptCalls jobs).map EncryptChunkRequest.nonce).Nodup := by
  induction jobs with
  | nil => exact List.nodup_nil
  | cons job jobs ih =>
    rw [List.map_cons, List.nodup_cons] at distinct
    have rest := ih distinct.2 fun job member => few job (List.mem_cons_of_mem _ member)
    have calls : p.encryptCalls (job :: jobs) =
        Encrypt.roundCalls p.hkdf p.backend p.keys p.options job ++ p.encryptCalls jobs :=
      List.flatMap_cons
    rw [calls, List.map_append, Encrypt.roundCalls_eq]
    cases derived : Encrypt.jobNonce p.hkdf p.backend p.keys p.options job with
    | error e => exact rest
    | ok nonce =>
      refine List.nodup_cons.mpr ⟨fun again => ?_, rest⟩
      obtain ⟨other, called, same⟩ := List.mem_map.mp again
      obtain ⟨job', member, nonce', derived', rfl⟩ := p.mem_encryptCalls.mp called
      have equal : nonce' = nonce := same
      subst equal
      have indices := congrArg UInt64.toNat (deriveChunkNonce_injective derived derived')
      rw [UInt64.toNat_ofNat_of_lt' (few job List.mem_cons_self),
        UInt64.toNat_ofNat_of_lt' (few job' (List.mem_cons_of_mem _ member))] at indices
      exact distinct.1 (indices ▸ List.mem_map_of_mem member)

variable (tagSize : UInt16) (workers capacity : Nat) (workersPos : 0 < workers)
  (capacityPos : 0 < capacity)

/-- In a run whose chunk counter stays within 64 bits, no nonce is used twice, each has the
suite's length, and decryption derives the same one from the index. -/
theorem nonces_unique (exact : ∀ ikm salt info len, (p.hkdf ikm salt info len).length = len)
    (start : ω) (jobs : List Encrypt.PlainChunk)
    (s : State (p.threads tagSize workers capacity workersPos capacityPos))
    (run : Works (init _ start) jobs s) (few : ∀ job ∈ jobs, job.index < 2 ^ 64) :
    ((p.encryptCalls jobs).map EncryptChunkRequest.nonce).Nodup ∧
    (∀ call ∈ p.encryptCalls jobs, call.key = p.keys.chunkEncryptionKey ∧
      call.nonce.length = p.backend.suite.nonceBytes) ∧
    ∀ {σ : Type} (d : DecryptPipeline σ), d.hkdf = p.hkdf → d.backend.suite = p.backend.suite →
      d.keys = p.keys → d.options.archiveId = p.options.archiveId →
      ∀ job ∈ jobs, ∀ record : ChunkRecord, record.chunkIndex.toNat = job.index →
        (d.decryptCalls record).map DecryptChunkRequest.nonce =
          (p.encryptCalls [job]).map EncryptChunkRequest.nonce := by
  refine ⟨?_, fun call made => ?_, fun d hkdf suite keys archive job _ record index => ?_⟩
  · exact p.encryptCalls_nonces_nodup (run.keys_nodup
      (Encrypt.producerMain_numbered p.shardWriter p.options tagSize p.stream)) few
  · obtain ⟨job, _, nonce, derived, rfl⟩ := p.mem_encryptCalls.mp made
    exact ⟨rfl, deriveChunkNonce_length exact derived⟩
  · have same : Decrypt.jobNonce d.hkdf d.backend d.keys d.options (Decrypt.queued record) =
        Encrypt.jobNonce p.hkdf p.backend p.keys p.options job := by
      rw [Decrypt.jobNonce, Encrypt.jobNonce, hkdf, suite, keys, archive, ← index,
        UInt64.ofNat_toNat]
      rfl
    rw [DecryptPipeline.decryptCalls, encryptCalls, List.flatMap_singleton, Decrypt.roundCalls_eq,
      Encrypt.roundCalls_eq, same]
    cases Encrypt.jobNonce p.hkdf p.backend p.keys p.options job with
    | error e => rfl
    | ok nonce => rfl

end EncryptPipeline

theorem nonces_unique_fiveBytes : ∃ s : State (fiveBytesThreads 5), ∃ jobs,
    Works (init _ fiveBytesStart) jobs s ∧ ((fiveBytesPipeline 5).encryptCalls jobs).length = 1 ∧
      ∀ call ∈ (fiveBytesPipeline 5).encryptCalls jobs, call.nonce.length = 24 := by
  have ran : (runLogged [] (init (fiveBytesThreads 5) fiveBytesStart) oneAfterTheOther).any
      (fun result => decide (result.1.map Encrypt.PlainChunk.index = [0])) = true := by
    decide +kernel
  obtain ⟨⟨jobs, s⟩, same, indices⟩ := (Option.any_eq_true _ _).mp ran
  have run := works_runLogged .refl same
  have index := of_decide_eq_true indices
  have few : ∀ job ∈ jobs, job.index < 2 ^ 64 := by
    intro job member
    have listed : job.index ∈ jobs.map Encrypt.PlainChunk.index := List.mem_map_of_mem member
    rw [index, List.mem_singleton] at listed
    rw [listed]
    decide
  obtain ⟨job, rfl⟩ := List.length_eq_one_iff.mp
    (show jobs.length = 1 by simpa using congrArg List.length index)
  have calls : (fiveBytesPipeline 5).encryptCalls [job] = _ :=
    (List.flatMap_singleton _ _).trans Encrypt.roundCalls_eq
  exact ⟨s, _, run, by rw [calls]; rfl,
    fun call made => ((EncryptPipeline.nonces_unique (fiveBytesPipeline 5) 16 1
    1 Nat.one_pos Nat.one_pos (fun _ _ _ _ => List.length_replicate) fiveBytesStart _ s run
    few).2.1 call made).2⟩

end Bseal.Pipeline
