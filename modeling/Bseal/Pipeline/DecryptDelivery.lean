import Bseal.Lib.OrderedTermination
import Bseal.Pipeline.Decrypt
import Bseal.Pipeline.EncryptDelivery

/-! What a run of the decrypt pipeline hands to the archive reader before it asks it to
finish. -/
namespace Bseal.Pipeline
open Crypto Io OrderedPipeline

def PlaintextReader.consumeAll {σ : Type} (reader : PlaintextReader σ) :
    List Bytes → Effect Failure σ Unit
  | [] => pure ()
  | bytes :: rest => do
    reader.consume bytes
    reader.consumeAll rest

namespace Decrypt

theorem readerMain_items (ending : Option Failure) (records : List ChunkRecord) :
    (readerMain ending records).items = records.map queued := by
  induction records with
  | nil => cases ending <;> rfl
  | cons record records ih =>
    rw [readerMain, Script.items, Script.items, ih, List.map_cons]

theorem readerMain_ending (ending : Option Failure) (records : List ChunkRecord) :
    (readerMain ending records).ending = ending := by
  induction records with
  | nil => cases ending <;> rfl
  | cons record records ih => exact ih

theorem exec_consumePlaintext_ok {σ : Type} (reader : PlaintextReader σ) (chunk : PlainChunk)
    (c d : Consumer σ) (u : Unit) :
    Effect.exec (consumePlaintext reader chunk) c = (.ok u, d) ↔
      ∃ archive, Effect.exec (reader.consume chunk.bytes) c.archiveReader = (.ok u, archive) ∧
        d = ⟨archive, c.totalPlaintextBytes + UInt64.ofNat chunk.bytes.length⟩ := by
  unfold consumePlaintext onArchiveReader
  rw [Effect.exec_bind_of_ok (Effect.exec_modify _ _), Effect.exec_zoom_ok]
  simp only [Consumer.count, eq_comm]

theorem checkTotal_eq_none {expected : UInt64} (sized : expected ≠ 0) (total : UInt64) :
    checkTotal expected total = none ↔ total = expected := by
  unfold checkTotal
  rw [ite_eq_right_iff, and_iff_right sized]
  simp

end Decrypt

namespace DecryptPipeline
variable {σ : Type} (p : DecryptPipeline σ)

/-- The record was authenticated under its index's nonce, its shard's public header hash and its
own frame header, and this is its plaintext. -/
structure Decryption (record : ChunkRecord) (chunk : Decrypt.PlainChunk) : Prop where
  index : chunk.index = record.chunkIndex
  length : chunk.bytes.length = record.plaintextSize.toNat
  authenticated : ∃ nonce,
    Decrypt.jobNonce p.hkdf p.backend p.keys p.options (Decrypt.queued record) = .ok nonce ∧
    p.backend.decryptChunk (Decrypt.request p.keys p.options (Decrypt.queued record) nonce) =
      .ok chunk.bytes

theorem decryption_of_decryptJob {record : ChunkRecord} {chunk : Decrypt.PlainChunk}
    (worked : Decrypt.decryptJob p.hkdf p.backend p.keys p.options (Decrypt.queued record) =
      .ok chunk) : p.Decryption record chunk := by
  obtain ⟨nonce, plaintext, derived, authenticated, length, rfl⟩ :=
    Decrypt.decryptJob_ok.mp worked
  exact ⟨rfl, length, nonce, derived, authenticated⟩

variable {p} {workers capacity : Nat} {workersPos : 0 < workers} {capacityPos : 0 < capacity}

theorem decryptJob_index {job : Decrypt.CipherChunk} {chunk : Decrypt.PlainChunk}
    (worked : Decrypt.decryptJob p.hkdf p.backend p.keys p.options job = .ok chunk) :
    chunk.position = job.index.toNat := by
  obtain ⟨_, _, -, -, -, rfl⟩ := Decrypt.decryptJob_ok.mp worked
  rfl

theorem perm_queued {jobs : List Decrypt.CipherChunk} {records : List ChunkRecord}
    (perm : jobs.Perm (records.map Decrypt.queued)) :
    ∃ ordered : List ChunkRecord, ordered.Perm records ∧ jobs = ordered.map Decrypt.queued := by
  have each : List.Forall₂ (fun job record => job = Decrypt.queued record)
      (records.map Decrypt.queued) records := by
    rw [List.forall₂_map_left_iff]
    exact List.forall₂_same.mpr fun record _ => rfl
  obtain ⟨ordered, matched, same⟩ := List.perm_comp_forall₂ perm each
  have equal : List.Forall₂ (· = ·) jobs (ordered.map Decrypt.queued) := by
    rwa [List.forall₂_map_right_iff]
  exact ⟨ordered, same, by rwa [List.forall₂_eq_eq_eq] at equal⟩

theorem consumeAll_ok (chunks : List Decrypt.PlainChunk) (c d : Decrypt.Consumer σ)
    (consumed : Effect.exec
      ((p.threads workers capacity workersPos capacityPos).consumeAll chunks) c = (.ok (), d)) :
    Effect.exec (p.archiveReader.consumeAll (chunks.map Decrypt.PlainChunk.bytes))
        c.archiveReader = (.ok (), d.archiveReader) ∧
      d.totalPlaintextBytes = c.totalPlaintextBytes +
        UInt64.ofNat ((chunks.map fun chunk => chunk.bytes.length).sum) := by
  induction chunks generalizing c with
  | nil =>
    cases consumed
    exact ⟨rfl, (UInt64.add_zero _).symm⟩
  | cons chunk chunks ih =>
    obtain ⟨_, mid, first, rest⟩ := (Effect.exec_bind_ok _ _ _ _ _).mp consumed
    obtain ⟨archive, took, rfl⟩ := (Decrypt.exec_consumePlaintext_ok _ _ _ _ _).mp first
    obtain ⟨later, total⟩ := ih _ rest
    refine ⟨(Effect.exec_bind_of_ok took).trans later, ?_⟩
    rw [total, List.map_cons, List.sum_cons, UInt64.ofNat_add, UInt64.add_assoc]

theorem consumeAll_of_reader (chunks : List Decrypt.PlainChunk) (c : Decrypt.Consumer σ)
    {archive : σ} (consumed : Effect.exec
      (p.archiveReader.consumeAll (chunks.map Decrypt.PlainChunk.bytes)) c.archiveReader =
        (.ok (), archive)) :
    Effect.exec ((p.threads workers capacity workersPos capacityPos).consumeAll chunks) c =
      (.ok (), ⟨archive, c.totalPlaintextBytes +
        UInt64.ofNat (chunks.map fun chunk => chunk.bytes.length).sum⟩) := by
  induction chunks generalizing c with
  | nil =>
    cases consumed
    exact congrArg (fun total => (Except.ok (), Decrypt.Consumer.mk _ total))
      (UInt64.add_zero _).symm
  | cons chunk chunks ih =>
    obtain ⟨_, mid, first, rest⟩ := (Effect.exec_bind_ok _ _ _ _ _).mp consumed
    have took := (Decrypt.exec_consumePlaintext_ok p.archiveReader chunk c _ ()).mpr
      ⟨mid, first, rfl⟩
    refine (Effect.exec_bind_of_ok took).trans ((ih _ rest).trans ?_)
    rw [List.map_cons, List.sum_cons, UInt64.ofNat_add, UInt64.add_assoc]

structure Opens (p : DecryptPipeline σ) (chunks : List Decrypt.PlainChunk) : Prop where
  ending : p.stream.ending = none
  decrypts : List.Forall₂ (fun record chunk =>
    Decrypt.decryptJob p.hkdf p.backend p.keys p.options (Decrypt.queued record) = .ok chunk)
    p.stream.records chunks
  order : chunks.map Decrypt.PlainChunk.position = List.range chunks.length
  total : UInt64.ofNat (chunks.map fun chunk => chunk.bytes.length).sum =
    p.options.paddedPlaintextSize

section Opens
variable {chunks : List Decrypt.PlainChunk} (workers capacity workersPos capacityPos)

theorem Opens.sound (opens : p.Opens chunks) {start mid stop : σ}
    (consumed : Effect.exec (p.archiveReader.consumeAll (chunks.map Decrypt.PlainChunk.bytes))
      start =
      (.ok (), mid)) (finished : Effect.exec p.archiveReader.finish mid = (.ok (), stop)) :
    Sound (p.threads workers capacity workersPos capacityPos) ⟨start, 0⟩ chunks
      ⟨mid, p.options.paddedPlaintextSize⟩ ⟨stop, p.options.paddedPlaintextSize⟩ where
  ending := (Decrypt.readerMain_ending _ _).trans opens.ending
  results := by
    have items : (p.threads workers capacity workersPos capacityPos).script.items =
        p.stream.records.map Decrypt.queued := Decrypt.readerMain_items _ _
    have each : List.Forall₂ (· = ·) ((p.stream.records.map Decrypt.queued).map
        (p.threads workers capacity workersPos capacityPos).work) (chunks.map Except.ok) := by
      rw [List.forall₂_map_left_iff, List.forall₂_map_left_iff, List.forall₂_map_right_iff]
      exact opens.decrypts
    rw [List.forall₂_eq_eq_eq] at each
    rw [items, Multiset.map_coe, Multiset.map_coe, each]
  order := opens.order
  consumed := by
    rw [consumeAll_of_reader chunks ⟨start, 0⟩ consumed, opens.total, UInt64.zero_add]
  checked := by
    change Decrypt.checkTotal _ _ = none
    rw [Decrypt.checkTotal, if_neg (by simp)]
  finished := (Effect.exec_zoom_ok _ _ _ _ _ _ _).mpr ⟨stop, finished, rfl⟩

/-- Whatever is thrown in a run, the archive reader finishes only after these chunks. -/
theorem Opens.only (opens : p.Opens chunks) {start : σ}
    {s : State (p.threads workers capacity workersPos capacityPos)}
    (run : Reaches (init _ ⟨start, 0⟩) s) (asked : Call.finish ∈ s.calls) :
    s.calls = chunks.map .consume ++ [.finish] := by
  obtain ⟨out, mid, done⟩ := run.completed_of_finish asked
  have items : (p.threads workers capacity workersPos capacityPos).script.items =
      p.stream.records.map Decrypt.queued := Decrypt.readerMain_items _ _
  have each : List.Forall₂ (fun job chunk =>
      (p.threads workers capacity workersPos capacityPos).work job = .ok chunk)
      (p.threads workers capacity workersPos capacityPos).script.items chunks := by
    rw [items, List.forall₂_map_left_iff]
    exact opens.decrypts
  have indices : (p.threads workers capacity workersPos capacityPos).script.items.map
      (fun job => job.index.toNat) = List.range
        (p.threads workers capacity workersPos capacityPos).script.items.length := by
    rw [each.length_eq, ← opens.order]
    have same : List.Forall₂ (· = ·) ((p.threads workers capacity workersPos
        capacityPos).script.items.map fun job => job.index.toNat)
        (chunks.map Decrypt.PlainChunk.position) := by
      rw [List.forall₂_map_left_iff, List.forall₂_map_right_iff]
      exact each.imp fun job chunk worked => (decryptJob_index worked).symm
    rwa [List.forall₂_eq_eq_eq] at same
  have delivered := done.in_order (fun job => job.index.toNat)
    (fun job chunk worked => decryptJob_index worked) indices
  have unique : Relator.RightUnique fun job chunk =>
      (p.threads workers capacity workersPos capacityPos).work job = .ok chunk :=
    fun _ _ _ left right => Except.ok.inj (left.symm.trans right)
  rw [done.calls, unique.forall₂ delivered each]

end Opens

theorem decryption_lengths {records : List ChunkRecord}
    {chunks : List Decrypt.PlainChunk} (decrypted : List.Forall₂ p.Decryption records chunks) :
    chunks.map (fun chunk => chunk.bytes.length) =
      records.map fun record => record.plaintextSize.toNat := by
  induction decrypted with
  | nil => rfl
  | cons one _ ih => rw [List.map_cons, List.map_cons, ih, one.length]

def declaredBytes (p : DecryptPipeline σ) : Nat :=
  (p.stream.records.map fun record => record.plaintextSize.toNat).sum

/-- The archive reader has got the whole authenticated stream in order, and has been asked to
finish. -/
structure Delivered (start : σ) (s : State (p.threads workers capacity workersPos capacityPos))
    (records : List ChunkRecord) (chunks : List Decrypt.PlainChunk) (mid : σ) : Prop where
  ending : p.stream.ending = none
  perm : records.Perm p.stream.records
  indices : records.map (fun record => record.chunkIndex.toNat) = List.range records.length
  decrypted : List.Forall₂ p.Decryption records chunks
  calls : s.calls = chunks.map .consume ++ [.finish]
  consumed : Effect.exec (p.archiveReader.consumeAll (chunks.map Decrypt.PlainChunk.bytes)) start =
    (.ok (), mid)
  finished : s.sink.archiveReader = (Effect.exec p.archiveReader.finish mid).2
  counted : UInt64.ofNat (chunks.map fun chunk => chunk.bytes.length).sum =
    p.options.paddedPlaintextSize

section Finish
variable {start : σ} {s : State (p.threads workers capacity workersPos capacityPos)}

theorem delivered_of_finish (sized : p.options.paddedPlaintextSize ≠ 0)
    (run : Reaches (init _ ⟨start, 0⟩) s) (asked : Call.finish ∈ s.calls) :
    ∃ records chunks mid, Delivered start s records chunks mid := by
  obtain ⟨chunks, mid, done⟩ := run.completed_of_finish asked
  obtain ⟨jobs, perm, matched, indices⟩ :=
    done.sorted (fun job => job.index.toNat) fun job chunk worked => decryptJob_index worked
  have listed : (p.threads workers capacity workersPos capacityPos).script.items =
      p.stream.records.map Decrypt.queued := Decrypt.readerMain_items _ _
  rw [listed] at perm
  obtain ⟨records, reordered, rfl⟩ := perm_queued perm
  obtain ⟨consumed, total⟩ := consumeAll_ok chunks _ _ done.consumed
  have decrypted : List.Forall₂ p.Decryption records chunks := by
    rw [List.forall₂_map_left_iff] at matched
    exact matched.imp fun record chunk worked => decryption_of_decryptJob p worked
  refine ⟨records, chunks, mid.archiveReader,
    ⟨?_, reordered, ?_, decrypted, done.calls, consumed, ?_, ?_⟩⟩
  · exact (Decrypt.readerMain_ending _ _).symm.trans done.ending
  · rw [List.map_map] at indices
    rw [decrypted.length_eq]
    exact indices
  · have finish : Effect.exec (p.threads workers capacity workersPos capacityPos).finish mid =
        _ := Effect.exec_zoom ..
    rw [done.sink, finish]
  · rw [← (Decrypt.checkTotal_eq_none sized _).mp done.checked, total, UInt64.zero_add]

variable {records : List ChunkRecord} {chunks : List Decrypt.PlainChunk} {mid : σ}

theorem Delivered.total (delivered : Delivered start s records chunks mid) :
    (chunks.map fun chunk => chunk.bytes.length).sum = p.declaredBytes := by
  rw [decryption_lengths delivered.decrypted]
  exact (delivered.perm.map _).sum_eq

theorem Delivered.total_iff (delivered : Delivered start s records chunks mid) :
    (chunks.map fun chunk => chunk.bytes.length).sum = p.options.paddedPlaintextSize.toNat ↔
      p.declaredBytes < 2 ^ 64 := by
  have counted := congrArg UInt64.toNat delivered.counted
  rw [UInt64.toNat_ofNat', delivered.total] at counted
  have small := p.options.paddedPlaintextSize.toNat_lt
  rw [delivered.total]
  omega

/-- What the frame headers announce adds up to the size in the public header, modulo `2^64`. -/
theorem declared_of_finish (sized : p.options.paddedPlaintextSize ≠ 0)
    (run : Reaches (init _ ⟨start, 0⟩) s) (asked : Call.finish ∈ s.calls) :
    UInt64.ofNat p.declaredBytes = p.options.paddedPlaintextSize := by
  obtain ⟨records, chunks, mid, delivered⟩ := delivered_of_finish sized run asked
  rw [← delivered.total]
  exact delivered.counted

end Finish

variable (p workers capacity workersPos capacityPos)

/-- The archive reader is asked to finish only behind the whole authenticated stream, and never
after a failure. The bytes are as many as the header says when 64 bits can count them, and only
then. -/
theorem finishes_authenticated (start : σ) (sized : p.options.paddedPlaintextSize ≠ 0)
    (s : State (p.threads workers capacity workersPos capacityPos))
    (run : Reaches (init _ ⟨start, 0⟩) s) :
    (Call.finish ∈ s.calls → p.stream.ending = none ∧ ∃ records chunks mid,
      records.Perm p.stream.records ∧
      records.map (fun record => record.chunkIndex.toNat) = List.range records.length ∧
      List.Forall₂ p.Decryption records chunks ∧
      s.calls = chunks.map .consume ++ [.finish] ∧
      Effect.exec (p.archiveReader.consumeAll (chunks.map Decrypt.PlainChunk.bytes)) start =
        (.ok (), mid) ∧
      s.sink.archiveReader = (Effect.exec p.archiveReader.finish mid).2 ∧
      UInt64.ofNat (chunks.map fun chunk => chunk.bytes.length).sum =
        p.options.paddedPlaintextSize ∧
      ((chunks.map fun chunk => chunk.bytes.length).sum = p.options.paddedPlaintextSize.toNat ↔
        p.declaredBytes < 2 ^ 64)) ∧
    (¬s.Quiet → Call.finish ∉ s.calls → ∀ t, Reaches s t →
      Call.finish ∉ t.calls ∧ (t.main = .returned → t.failure ≠ none)) := by
  refine ⟨fun asked => ?_, fun troubled unfinished t later => ?_⟩
  · obtain ⟨records, chunks, mid, all⟩ := delivered_of_finish sized run asked
    exact ⟨all.ending, records, chunks, mid, all.perm, all.indices, all.decrypted, all.calls,
      all.consumed, all.finished, all.counted, all.total_iff⟩
  · obtain ⟨unfinished', _, returned⟩ := run.no_finish_after_failure unfinished troubled later
    refine ⟨unfinished', fun back fine => ?_⟩
    have failed := returned back
    rw [State.failed, fine] at failed
    cases failed

end DecryptPipeline

def fiveBytesRecord : ChunkRecord where
  chunkIndex := 0
  shardIndex := 0
  plaintextSize := 5
  frameFlags := kChunkFrameFlagFinalChunk
  frameHeaderBytes := encodeChunkFrameHeaderV1 ⟨kChunkFrameFlagFinalChunk, 0, 0, 5, 5, 16⟩
  ciphertext := [1, 2, 3, 4, 5] ++ List.replicate 16 0

def keepingReader : PlaintextReader Bytes where
  consume bytes := modify (· ++ bytes)
  finish := pure ()

def fiveBytesDecryption : DecryptPipeline Bytes where
  options :=
    { chunkPlainSize := 65536
      archiveId := List.Vector.replicate 32 7
      publicHeaderHash := List.Vector.replicate 32 1
      perShardPublicHeaderHashes := [List.Vector.replicate 32 1]
      paddedPlaintextSize := 5 }
  backend := aeadBackend plainAead .xChaCha20Poly1305
  keys := ⟨List.replicate 32 1, [], [1]⟩
  stream := ⟨[fiveBytesRecord], none⟩
  archiveReader := keepingReader
  hkdf := fun _ _ _ outputLen => List.replicate outputLen 0

abbrev fiveBytesDecryptThreads := fiveBytesDecryption.threads 1 1 Nat.one_pos Nat.one_pos

def untilFinish : List (Action 1 Failure) :=
  List.replicate 4 .source ++ List.replicate 6 (.worker ⟨0, Nat.one_pos⟩) ++ [.joiner] ++
    List.replicate 9 .main

theorem finishes_authenticated_fiveBytes : ∃ s : State fiveBytesDecryptThreads,
    Reaches (init _ ⟨[], 0⟩) s ∧ Call.finish ∈ s.calls ∧
      ∃ chunks : List Decrypt.PlainChunk, s.calls = chunks.map .consume ++ [.finish] ∧
        (chunks.map fun chunk => chunk.bytes.length).sum = 5 := by
  have ran : (runActions (init fiveBytesDecryptThreads ⟨[], 0⟩) untilFinish).any
      (fun s => decide (Call.finish ∈ s.calls)) = true := by decide +kernel
  obtain ⟨s, run, asked⟩ := reaches_of_any ran
  rw [decide_eq_true_eq] at asked
  obtain ⟨_, _, chunks, _, _, _, _, calls, _, _, _, total⟩ :=
    (DecryptPipeline.finishes_authenticated fiveBytesDecryption 1 1 Nat.one_pos Nat.one_pos []
      (by decide) s run).1 asked
  exact ⟨s, run, asked, chunks, calls, total.mpr (by decide)⟩

def zeroRecord (frameFlags : UInt16) (index size : Nat) : ChunkRecord where
  chunkIndex := .ofNat index
  shardIndex := 0
  plaintextSize := .ofNat size
  frameFlags := frameFlags
  frameHeaderBytes :=
    encodeChunkFrameHeaderV1 ⟨frameFlags, 0, .ofNat index, .ofNat size, .ofNat size, 16⟩
  ciphertext := List.replicate (size + 16) 0

/-- A stream of `n` full chunks and five more bytes, under a header that declares five. -/
def zeroDecryption (n : Nat) : DecryptPipeline Bytes :=
  { fiveBytesDecryption with
    stream := ⟨(List.range n).map (zeroRecord 0 · 65536) ++
      [zeroRecord kChunkFrameFlagFinalChunk n 5], none⟩ }

def zeroChunks (n : Nat) : List Decrypt.PlainChunk :=
  (List.range n).map (fun i => ⟨.ofNat i, List.replicate 65536 0⟩) ++
    [⟨.ofNat n, List.replicate 5 0⟩]

theorem decryptJob_zeroRecord (n : Nat) (frameFlags : UInt16) (index : Nat) {size : Nat}
    (small : size ≤ 65536) : Decrypt.decryptJob (zeroDecryption n).hkdf (zeroDecryption n).backend
      (zeroDecryption n).keys (zeroDecryption n).options
      (Decrypt.queued (zeroRecord frameFlags index size)) =
        .ok ⟨.ofNat index, List.replicate size 0⟩ := by
  have length : (zeroRecord frameFlags index size).ciphertext.length = size + 16 :=
    List.length_replicate
  obtain ⟨nonce, derived⟩ : ∃ nonce, Decrypt.jobNonce (zeroDecryption n).hkdf
      (zeroDecryption n).backend (zeroDecryption n).keys (zeroDecryption n).options
      (Decrypt.queued (zeroRecord frameFlags index size)) = .ok nonce := ⟨_, rfl⟩
  have aad : serializeChunkAadV1 (Decrypt.makeAad (zeroDecryption n).options 0
      (zeroRecord frameFlags index size).frameHeaderBytes) = .ok _ :=
    (if_neg (not_not.mpr rfl)).trans
      (if_neg (not_not.mpr (encodeChunkFrameHeaderV1_length _)))
  have opened : aeadDecryptChunk plainAead .xChaCha20Poly1305 (Decrypt.request
      (zeroDecryption n).keys (zeroDecryption n).options
      (Decrypt.queued (zeroRecord frameFlags index size)) nonce) = .ok (List.replicate size 0) := by
    refine aeadDecryptChunk_ok ?_ ?_ ?_ aad ?_ ?_
    · exact (if_neg (not_not.mpr rfl)).trans (if_neg (not_not.mpr
        (deriveChunkNonce_length (fun _ _ _ _ => List.length_replicate) derived)))
    · exact length ▸ Nat.le_add_left 16 size
    · change (zeroRecord frameFlags index size).ciphertext.length < 2 ^ 64
      omega
    · refine if_neg ?_
      change ¬(zeroRecord frameFlags index size).ciphertext.length - 16 > 18446744073709551615
      omega
    · refine congrArg some ?_
      change (zeroRecord frameFlags index size).ciphertext.take
        ((zeroRecord frameFlags index size).ciphertext.length - 16) = _
      rw [length, Nat.add_sub_cancel]
      exact List.take_replicate.trans (by rw [Nat.min_eq_left (Nat.le_add_right size 16)])
  refine Decrypt.decryptJob_ok.mpr ⟨nonce, List.replicate size 0, derived, opened, ?_, rfl⟩
  rw [List.length_replicate]
  exact (UInt64.toNat_ofNat_of_lt' (show size < 2 ^ 64 by omega)).symm

theorem zeroChunks_length (n : Nat) :
    ((zeroChunks n).map fun chunk => chunk.bytes.length).sum = n * 65536 + 5 := by
  have full : ((List.range n).map fun _ => (List.replicate 65536 (0 : Byte)).length) =
      List.replicate n 65536 := by
    rw [List.map_const', List.length_range, List.length_replicate]
  rw [zeroChunks, List.map_append, List.map_map, List.sum_append]
  exact congrArg₂ _ ((congrArg List.sum full).trans (List.sum_replicate_nat ..)) rfl

theorem zeroDecryption_opens {n : Nat} (few : n < 2 ^ 64)
    (wraps : UInt64.ofNat (n * 65536 + 5) = 5) : (zeroDecryption n).Opens (zeroChunks n) where
  ending := rfl
  decrypts := by
    refine List.rel_append ?_ (.cons (decryptJob_zeroRecord n _ n (by decide)) .nil)
    rw [List.forall₂_map_left_iff, List.forall₂_map_right_iff]
    exact List.forall₂_same.mpr fun i _ => decryptJob_zeroRecord n 0 i (Nat.le_refl _)
  order := by
    have front : ∀ i ∈ List.range n, (UInt64.ofNat i).toNat = i := fun i member =>
      UInt64.toNat_ofNat_of_lt' ((List.mem_range.mp member).trans few)
    have positions : ((List.range n).map fun i => (UInt64.ofNat i).toNat) = List.range n :=
      (List.map_congr_left front).trans (List.map_id' _)
    rw [zeroChunks, List.map_append, List.map_map, List.length_append, List.length_map,
      List.length_range, List.length_singleton, List.range_succ]
    exact congrArg₂ _ positions (congrArg (fun i => [i]) (UInt64.toNat_ofNat_of_lt' few))
  total := by
    rw [zeroChunks_length]
    exact wraps

theorem exec_keepingReader (pieces : List Bytes) (kept : Bytes) :
    Effect.exec (keepingReader.consumeAll pieces) kept = (.ok (), kept ++ pieces.flatten) := by
  induction pieces generalizing kept with
  | nil => exact congrArg (Prod.mk _) (List.append_nil _).symm
  | cons piece pieces ih =>
    refine (Effect.exec_bind_of_ok (Effect.exec_modify _ _)).trans ((ih _).trans ?_)
    rw [List.flatten_cons, List.append_assoc]

theorem zeroDecryption_finishes {n : Nat} (few : n < 2 ^ 64)
    (wraps : UInt64.ofNat (n * 65536 + 5) = 5) :
    ∃ s : State ((zeroDecryption n).threads 1 1 Nat.one_pos Nat.one_pos),
      Reaches (init _ ⟨[], 0⟩) s ∧ s.calls = (zeroChunks n).map .consume ++ [.finish] := by
  obtain ⟨s, run, -, -, calls, -⟩ := exists_finish ((zeroDecryption_opens few wraps).sound 1 1
    Nat.one_pos Nat.one_pos (exec_keepingReader _ []) (Effect.exec_pure _ _))
  exact ⟨s, run, calls⟩

/-- The consumer's counter wraps: `2^64 + 5` bytes are promoted under a header that says 5. -/
theorem wrapped_total_finishes :
    (zeroDecryption (2 ^ 48)).options.paddedPlaintextSize = 5 ∧
    ∃ s : State ((zeroDecryption (2 ^ 48)).threads 1 1 Nat.one_pos Nat.one_pos),
      Reaches (init _ ⟨[], 0⟩) s ∧ ∃ chunks : List Decrypt.PlainChunk,
        s.calls = chunks.map .consume ++ [.finish] ∧
        (chunks.map fun chunk => chunk.bytes.length).sum = 2 ^ 64 + 5 := by
  obtain ⟨s, run, calls⟩ := zeroDecryption_finishes (n := 2 ^ 48) (by decide) (by decide)
  exact ⟨rfl, s, run, zeroChunks (2 ^ 48), calls, (zeroChunks_length _).trans (by decide)⟩

end Bseal.Pipeline
