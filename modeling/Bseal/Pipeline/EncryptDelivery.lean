import Bseal.Io.HeaderCounts
import Bseal.Pipeline.Encrypt

/-! What a run of the encrypt pipeline hands to the shard writer. -/
namespace Bseal.Pipeline
open Crypto Io OrderedPipeline

namespace EncryptPipeline
variable {ρ ω : Type} (p : EncryptPipeline ρ ω)

/-- The chunk is the encryption of the job's plaintext under the job's own frame header, its
shard's public header hash and its own nonce. -/
structure Encryption (job : Encrypt.PlainChunk) (chunk : Encrypt.CipherChunk) : Prop where
  index : chunk.index = job.index
  frameHeader : chunk.frameHeader = job.frameHeader
  frameHeaderBytes : chunk.frameHeaderBytes = job.frameHeaderBytes
  encrypted : ∃ nonce, Encrypt.jobNonce p.hkdf p.backend p.keys p.options job = .ok nonce ∧
    p.backend.encryptChunk (Encrypt.request p.keys p.options job nonce) =
      .ok chunk.ciphertextAndTag

theorem encryption_of_encryptJob {job : Encrypt.PlainChunk} {chunk : Encrypt.CipherChunk}
    (worked : Encrypt.encryptJob p.hkdf p.backend p.keys p.options job = .ok chunk) :
    p.Encryption job chunk := by
  obtain ⟨nonce, ciphertext, derived, encrypted, -, rfl⟩ := Encrypt.encryptJob_ok.mp worked
  exact ⟨rfl, rfl, rfl, nonce, derived, encrypted⟩

variable (tagSize : UInt16) (workers capacity : Nat) (workersPos : 0 < workers)
  (capacityPos : 0 < capacity)

/-- The chunks the producer plans when nothing fails. -/
def planned : List Encrypt.PlainChunk :=
  (Encrypt.producerMain p.shardWriter p.options tagSize p.stream).items

theorem planned_index :
    (p.planned tagSize).map Encrypt.PlainChunk.index = List.range (p.planned tagSize).length := by
  rw [planned, (Encrypt.producerMain_numbered p.shardWriter p.options tagSize p.stream).items,
    List.range_eq_range']

variable {p tagSize workers capacity workersPos capacityPos}

theorem completed_encryption {start : ω}
    {s : State (p.threads tagSize workers capacity workersPos capacityPos)}
    {out : List Encrypt.CipherChunk} {mid : ω} (done : Completed start s out mid) :
    List.Forall₂ p.Encryption (p.planned tagSize) out := by
  have agree : ∀ job chunk, Encrypt.encryptJob p.hkdf p.backend p.keys p.options job = .ok chunk →
      chunk.index = job.index := fun job chunk worked => (p.encryption_of_encryptJob worked).index
  exact (done.in_order Encrypt.PlainChunk.index agree (p.planned_index tagSize)).imp
    fun job chunk worked => p.encryption_of_encryptJob worked

variable (p tagSize workers capacity workersPos capacityPos)

/-- The frames a normal run gives to the shard writer, and the runs that never finish it. -/
theorem encrypts_once_in_order (start : ω)
    (s : State (p.threads tagSize workers capacity workersPos capacityPos))
    (run : Reaches (init _ start) s) :
    (s.main = .returned → s.failure = none → ∃ frames mid u,
      s.calls = frames.map .consume ++ [.finish] ∧
      List.Forall₂ p.Encryption (p.planned tagSize) frames ∧
      frames.map Encrypt.CipherChunk.index = List.range (p.planned tagSize).length ∧
      Effect.exec ((p.threads tagSize workers capacity workersPos capacityPos).consumeAll frames)
        start = (.ok (), mid) ∧
      Effect.exec p.shardWriter.finish mid = (.ok u, s.sink)) ∧
    (¬s.Quiet → Call.finish ∉ s.calls → ∀ t, Reaches s t →
      Call.finish ∉ t.calls ∧ (t.main = .returned → t.failure ≠ none)) ∧
    (0 < p.options.expectedPlaintextBytes →
      p.stream.bytesProduced ≠ p.options.expectedPlaintextBytes →
      Call.finish ∉ s.calls ∧ (s.main = .returned → s.failure ≠ none)) := by
  refine ⟨fun returned fine => ?_, fun troubled unfinished t later => ?_,
    fun expects differs => ?_⟩
  · obtain ⟨frames, mid, done, u, asked⟩ := run.completed_of_returned returned fine
    have matched := completed_encryption done
    refine ⟨frames, mid, u, done.calls, matched, ?_, done.consumed, ?_⟩
    · rw [matched.length_eq]
      exact done.order
    · rw [done.sink]
      exact Prod.ext asked rfl
  · obtain ⟨unfinished', _, returned⟩ := run.no_finish_after_failure unfinished troubled later
    refine ⟨unfinished', fun back fine => ?_⟩
    have failed := returned back
    rw [State.failed, fine] at failed
    cases failed
  · have wrong := Encrypt.producerMain_fails p.shardWriter p.options tagSize p.stream
      expects differs
    have unfinished : Call.finish ∉ s.calls := fun asked => by
      obtain ⟨_, _, done⟩ := run.completed_of_finish asked
      exact wrong done.ending
    refine ⟨unfinished, fun returned fine => ?_⟩
    obtain ⟨_, _, done, _⟩ := run.completed_of_returned returned fine
    exact unfinished (by rw [done.calls]; simp)

end EncryptPipeline

def plainAead : Aead where
  encrypt _ _ _ plaintext _ := plaintext ++ List.replicate 16 0
  decrypt _ _ _ ciphertextAndTag _ :=
    some (ciphertextAndTag.take (ciphertextAndTag.length - 16))

def fiveBytesOptions : StdoutShardWriterOptions where
  globalHeader := fiveByteHeader 1
  headerAuthenticationKey := [1]
  perShardPublicHeaderHashes := [List.Vector.replicate 32 1]

def fiveBytesPipeline (expected : UInt64) : EncryptPipeline StdoutPlanner StdoutState where
  options :=
    { chunkPlainSize := 65536
      archiveId := List.Vector.replicate 32 7
      perShardPublicHeaderHashes := [List.Vector.replicate 32 1]
      publicHeaderHash := List.Vector.replicate 32 1
      emitFinalChunkWhenEmpty := true
      expectedPlaintextBytes := expected }
  backend := aeadBackend plainAead .xChaCha20Poly1305
  keys := ⟨List.replicate 32 1, [], [1]⟩
  stream := ⟨[[1, 2, 3, 4, 5]], none⟩
  shardWriter := stdoutWriter (fun _ => false) (fun _ _ => zeroMac) fiveBytesOptions
  hkdf := fun _ _ _ outputLen => List.replicate outputLen 0

def fiveBytesStart : StdoutState where
  writer := ⟨fiveBytesOptions, List.replicate 272 0, 0, 0, 0, 0, false, false⟩
  out := ⟨[], true, 0⟩

abbrev fiveBytesThreads (expected : UInt64) :=
  (fiveBytesPipeline expected).threads 16 1 1 Nat.one_pos Nat.one_pos

def oneAfterTheOther : List (Action 1 Failure) :=
  List.replicate 5 .source ++ List.replicate 6 (.worker 0) ++ [.joiner] ++ List.replicate 11 .main

def finishedWell {ρ ω : Type} {p : EncryptPipeline ρ ω} {tagSize : UInt16}
    {workers capacity : Nat} {workersPos : 0 < workers} {capacityPos : 0 < capacity}
    (s : State (p.threads tagSize workers capacity workersPos capacityPos)) : Bool :=
  decide (s.main = .returned) && s.failure.isNone && decide (Call.finish ∈ s.calls)

theorem encrypts_once_in_order_fiveBytes : ∃ s : State (fiveBytesThreads 5),
    Reaches (init _ fiveBytesStart) s ∧ ∃ frames : List Encrypt.CipherChunk,
      s.calls = frames.map .consume ++ [.finish] ∧
      frames.map Encrypt.CipherChunk.index = [0] := by
  have ran : (runActions (init (fiveBytesThreads 5) fiveBytesStart) oneAfterTheOther).any
      finishedWell = true := by decide +kernel
  obtain ⟨s, run, well⟩ := reaches_of_any ran
  simp only [finishedWell, Bool.and_eq_true, decide_eq_true_eq, Option.isNone_iff_eq_none] at well
  obtain ⟨frames, _, _, calls, _, index, _⟩ := (EncryptPipeline.encrypts_once_in_order
    (fiveBytesPipeline 5) 16 1 1 Nat.one_pos Nat.one_pos fiveBytesStart s run).1 well.1.1 well.1.2
  exact ⟨s, run, frames, calls, index.trans (by decide +kernel)⟩

/-- With 0 as the expected number of bytes the check is off, and five bytes go through. -/
theorem unexpected_bytes_finish : ∃ s : State (fiveBytesThreads 0),
    Reaches (init _ fiveBytesStart) s ∧
      (fiveBytesPipeline 0).stream.bytesProduced ≠
        (fiveBytesPipeline 0).options.expectedPlaintextBytes ∧
      Call.finish ∈ s.calls ∧ s.main = .returned ∧ s.failure = none := by
  have ran : (runActions (init (fiveBytesThreads 0) fiveBytesStart) oneAfterTheOther).any
      finishedWell = true := by decide +kernel
  obtain ⟨s, run, well⟩ := reaches_of_any ran
  simp only [finishedWell, Bool.and_eq_true, decide_eq_true_eq, Option.isNone_iff_eq_none] at well
  exact ⟨s, run, by decide, well.2, well.1.1, well.1.2⟩

end Bseal.Pipeline
