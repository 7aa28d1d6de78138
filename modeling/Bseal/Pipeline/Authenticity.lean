import Bseal.Lib.OrderedPrefix
import Bseal.Pipeline.ChunkRoundTrip
import Bseal.Pipeline.Nonces
import Bseal.Pipeline.PlannedFrames

/-! What the decrypt pipeline hands out of files that anybody may have written, as long as the AEAD
accepts nothing but what one encryption has sealed. -/
namespace Bseal.Pipeline
open App Crypto Io OrderedPipeline Platform

section Yield
variable (files : Files)

inductive Yields : ShardReader → ChunkStream → Prop where
  | finish {r r' : ShardReader} : readNextChunkRecord files r = .ok (none, r') →
      Yields r ⟨[], none⟩
  | error {r : ShardReader} {e : Failure} : readNextChunkRecord files r = .error e →
      Yields r ⟨[], some e⟩
  | record {r r' : ShardReader} {c : ChunkRecord} {stream : ChunkStream} :
      readNextChunkRecord files r = .ok (some c, r') → Yields r' stream →
      Yields r ⟨c :: stream.records, stream.ending⟩

structure HeaderOf (record : ChunkRecord) (h : ChunkFrameHeaderV1) : Prop where
  chunkIndex : record.chunkIndex = h.globalChunkIndex
  frameFlags : record.frameFlags = h.frameFlags
  frameHeaderBytes : record.frameHeaderBytes = encodeChunkFrameHeaderV1 h

variable {files}

theorem readFrame_headerOf {shard : ShardInfo} {cursor : ShardCursor} {r r' : ShardReader}
    {record : ChunkRecord} (read : readFrame shard cursor r = .ok (record, r')) :
    ∃ h, HeaderOf record h := by
  unfold readFrame at read
  obtain ⟨⟨bytes, rest⟩, taken, read⟩ := (Result.bind_eq_ok _ _ _).mp read
  obtain ⟨h, parsed, read⟩ := (Result.bind_eq_ok _ _ _).mp read
  obtain ⟨_, -, read⟩ := (Result.bind_eq_ok _ _ _).mp read
  obtain ⟨_, -, read⟩ := (Result.bind_eq_ok _ _ _).mp read
  obtain ⟨_, -, read⟩ := (Result.bind_eq_ok _ _ _).mp read
  obtain ⟨_, -, read⟩ := (Result.bind_eq_ok _ _ _).mp read
  cases read
  obtain ⟨-, back, same⟩ := (parseChunkFrameHeaderV1_ok bytes h).mp parsed
  have length := ((readExact_ok _ _ _ _ _ _).mp taken).1
  refine ⟨h, rfl, rfl, (eq_of_append_length same ?_).symm⟩
  rw [length, encodeChunkFrameHeaderV1_length]

theorem readFrom_headerOf {shards : List ShardInfo} {r r' : ShardReader} {record : ChunkRecord}
    (read : readFrom files shards r = .ok (some record, r')) : ∃ h, HeaderOf record h := by
  induction shards generalizing r with
  | nil =>
    obtain ⟨_, -, finished⟩ := (Result.bind_eq_ok _ _ _).mp read
    cases finished
  | cons shard later ih =>
    rw [readFrom] at read
    obtain ⟨cursor, -, read⟩ := (Result.bind_eq_ok _ _ _).mp read
    split at read
    · obtain ⟨_, -, read⟩ := (Result.bind_eq_ok _ _ _).mp read
      exact ih read
    · obtain ⟨⟨record', next⟩, frame, finished⟩ := (Result.bind_eq_ok _ _ _).mp read
      cases finished
      exact readFrame_headerOf frame

theorem Yields.headerOf {r : ShardReader} {stream : ChunkStream} (yields : Yields files r stream) :
    ∀ record ∈ stream.records, ∃ h, HeaderOf record h := by
  induction yields with
  | finish | error => exact fun _ member => absurd member List.not_mem_nil
  | record read _ ih =>
    intro record member
    rcases List.mem_cons.mp member with rfl | later
    · exact readFrom_headerOf read
    · exact ih record later

theorem Yields.reads {r : ShardReader} {stream : ChunkStream} (yields : Yields files r stream)
    (whole : stream.ending = none) : Reads files r stream.records := by
  induction yields with
  | finish read => exact .finish read
  | error => cases whole
  | record read _ ih => exact .record read (ih whole)

theorem yields_of_reads {r : ShardReader} {records : List ChunkRecord}
    (reads : Reads files r records) : Yields files r ⟨records, none⟩ := by
  induction reads with
  | finish read => exact .finish read
  | record read _ ih => exact .record read ih

theorem reads_last {total : UInt64} {shards : List ShardInfo} {records : List ChunkRecord}
    (covers : Covers shards 0 total.toNat) (shardFiles : ∀ s ∈ shards, ShardFile files s)
    (some : 0 < total.toNat) (reads : Reads files (.start shards total) records) :
    ∃ record ∈ records, record.chunkIndex.toNat + 1 = records.length ∧
      record.frameFlags &&& kChunkFrameFlagFinalChunk ≠ 0 := by
  rw [ShardReader.start_eq shards some] at reads
  obtain ⟨groups, rfl, all⟩ := (reads_iff files total shards 0 records covers shardFiles).mp reads
  have indices := holds_indices all covers
  rw [Nat.sub_zero, ← List.range_eq_range'] at indices
  have number := congrArg List.length indices
  rw [List.length_map, List.length_range] at number
  have last : total.toNat - 1 ∈ groups.flatten.map fun f => f.header.globalChunkIndex.toNat := by
    rw [indices, List.mem_range]
    omega
  obtain ⟨f, member, index⟩ := List.mem_map.mp last
  obtain ⟨shard, -, rules⟩ := holds_mem all f member
  refine ⟨f.record, List.mem_map_of_mem member, ?_, ?_⟩
  · change f.header.globalChunkIndex.toNat + 1 = _
    rw [List.length_map, number]
    omega
  · exact rules.final.mpr (by omega)

end Yield

theorem serializeChunkAadV1_inj {a b : ChunkAad} {bytes : Bytes}
    (left : serializeChunkAadV1 a = .ok bytes) (right : serializeChunkAadV1 b = .ok bytes) :
    a = b := by
  unfold serializeChunkAadV1 at left right
  simp only [Result.guard_eq_ok, not_not, Except.ok.injEq] at left right
  obtain ⟨hash, -, rfl⟩ := left
  obtain ⟨hash', -, same⟩ := right
  simp only [List.append_assoc] at same
  obtain ⟨hashes, headers⟩ := List.append_inj (List.append_cancel_left same) (hash'.trans hash.symm)
  cases a
  cases b
  rw [ChunkAad.mk.injEq]
  exact ⟨hashes.symm, headers.symm⟩

theorem aeadDecryptChunk_inv {aead : Aead} {suite : CipherSuite} {request : DecryptChunkRequest}
    {plaintext : Bytes} (opened : aeadDecryptChunk aead suite request = .ok plaintext) :
    ∃ aad, serializeChunkAadV1 request.aad = .ok aad ∧
      aead.decrypt suite request.key request.nonce request.ciphertextAndTag aad =
        some plaintext := by
  unfold aeadDecryptChunk at opened
  obtain ⟨_, -, opened⟩ := (Result.bind_eq_ok _ _ _).mp opened
  split at opened
  · cases opened
  obtain ⟨aad, serialized, opened⟩ := (Result.bind_eq_ok _ _ _).mp opened
  obtain ⟨_, -, opened⟩ := (Result.bind_eq_ok _ _ _).mp opened
  split at opened
  · next decrypted =>
    cases opened
    exact ⟨aad, serialized, decrypted⟩
  · cases opened

/-- The AEAD authenticates no record of the stream but what these calls have sealed: for the same
suite and key, under the nonce and the associated data that belong to the record. -/
def DecryptPipeline.Unforged {σ : Type} (d : DecryptPipeline σ) (aead : Aead) (suite : CipherSuite)
    (calls : List EncryptChunkRequest) : Prop :=
  ∀ record ∈ d.stream.records, ∀ nonce aad plaintext,
    Decrypt.jobNonce d.hkdf d.backend d.keys d.options (Decrypt.queued record) = .ok nonce →
    serializeChunkAadV1 (Decrypt.makeAad d.options record.shardIndex record.frameHeaderBytes) =
      .ok aad →
    aead.decrypt d.backend.suite d.keys.chunkEncryptionKey nonce record.ciphertext aad =
      some plaintext →
    ∃ call ∈ calls, suite = d.backend.suite ∧ call.key = d.keys.chunkEncryptionKey ∧
      call.nonce = nonce ∧ serializeChunkAadV1 call.aad = .ok aad ∧
      aead.encrypt suite call.key call.nonce call.plaintext aad = record.ciphertext

section Opened
variable {aead : Aead} {suite : CipherSuite} {ρ ω σ : Type} {p : EncryptPipeline ρ ω}
  {d : DecryptPipeline σ} {l : ChunkLayout} {jobs : List Encrypt.PlainChunk}

structure Original (l : ChunkLayout) (jobs : List Encrypt.PlainChunk) (record : ChunkRecord)
    (chunk : Decrypt.PlainChunk) (i : Nat) : Prop where
  header : HeaderOf record (l.frameHeader i)
  position : chunk.position = i
  bytes : (jobs.map Encrypt.PlainChunk.bytes)[i]? = some chunk.bytes

/-- The encryption behind a decryption: its chunks are those of the layout, and the AEAD of the
stream accepts nothing else. -/
structure Behind (p : EncryptPipeline ρ ω) (l : ChunkLayout) (jobs : List Encrypt.PlainChunk)
    (aead : Aead) (suite : CipherSuite) (d : DecryptPipeline σ) : Prop where
  number : jobs.length = l.n
  planned : ∀ k (inside : k < jobs.length), Encrypt.PlainChunk.Of l k jobs[k]
  framed : ∀ record ∈ d.stream.records, ∃ h, HeaderOf record h
  decryptChunk : d.backend.decryptChunk = aeadDecryptChunk aead d.backend.suite
  decrypts : ∀ key nonce plaintext aad,
    aead.decrypt suite key nonce (aead.encrypt suite key nonce plaintext aad) aad = some plaintext
  unforged : d.Unforged aead suite (p.encryptCalls jobs)

theorem Behind.original (behind : Behind p l jobs aead suite d) {record : ChunkRecord}
    (member : record ∈ d.stream.records) {chunk : Decrypt.PlainChunk}
    (worked : Decrypt.decryptJob d.hkdf d.backend d.keys d.options (Decrypt.queued record) =
      .ok chunk) : ∃ i < l.n, Original l jobs record chunk i := by
  obtain ⟨index, -, nonce, derived, authenticated⟩ := d.decryption_of_decryptJob worked
  rw [behind.decryptChunk] at authenticated
  obtain ⟨aad, serialized, decrypted⟩ := aeadDecryptChunk_inv authenticated
  obtain ⟨call, made, same, key, nonce', bound, ciphertext⟩ :=
    behind.unforged record member nonce aad _ derived serialized decrypted
  obtain ⟨job, among, _, -, rfl⟩ := p.mem_encryptCalls.mp made
  obtain ⟨i, inside, rfl⟩ := List.getElem_of_mem among
  have planned := behind.planned i inside
  -- the associated data binds the header of the frame, and with it the index
  have headers : jobs[i].frameHeaderBytes = record.frameHeaderBytes :=
    congrArg ChunkAad.chunkFrameHeader (serializeChunkAadV1_inj bound serialized)
  obtain ⟨h, framed⟩ := behind.framed record member
  obtain rfl : h = l.frameHeader i := encodeChunkFrameHeaderV1_injective
    (framed.frameHeaderBytes.symm.trans (headers.symm.trans planned.frameHeaderBytes))
  have below : i < l.n := behind.number ▸ inside
  have small := l.n_lt
  refine ⟨i, below, framed, ?_, ?_⟩
  · rw [Decrypt.PlainChunk.position, index, framed.chunkIndex]
    exact UInt64.toNat_ofNat_of_lt' (by simp only [UInt64.size]; omega)
  · change aead.decrypt _ d.keys.chunkEncryptionKey nonce record.ciphertext aad = _ at decrypted
    rw [← ciphertext, ← same, ← key, nonce', behind.decrypts] at decrypted
    rw [List.getElem?_map, List.getElem?_eq_getElem inside]
    exact decrypted

variable {workers capacity : Nat} {workersPos : 0 < workers} {capacityPos : 0 < capacity}
  {start : σ} {s : State (d.threads workers capacity workersPos capacityPos)}

theorem readerMain_pushes {ending : Option Failure} {records : List ChunkRecord}
    {job : Decrypt.CipherChunk} (pushes : (Decrypt.readerMain ending records).Pushes job) :
    ∃ record ∈ records, job = Decrypt.queued record := by
  induction records with
  | nil =>
    cases ending with
    | none => exact pushes.elim False.elim False.elim
    | some e => exact pushes.elim False.elim False.elim
  | cons record records ih =>
    rcases pushes with (rfl | later | stop) | stop
    · exact ⟨record, List.mem_cons_self, rfl⟩
    · obtain ⟨other, member, same⟩ := ih later
      exact ⟨other, List.mem_cons_of_mem _ member, same⟩
    · exact False.elim stop
    · exact False.elim stop

theorem Behind.delivered (behind : Behind p l jobs aead suite d)
    (run : Reaches (init (d.threads workers capacity workersPos capacityPos) ⟨start, 0⟩) s) :
    s.delivered.map Decrypt.PlainChunk.bytes =
      (jobs.map Encrypt.PlainChunk.bytes).take s.delivered.length := by
  have genuine := run.genuine
  have each : ∀ k (inside : k < s.delivered.length),
      (jobs.map Encrypt.PlainChunk.bytes)[k]? = some s.delivered[k].bytes := by
    intro k inside
    obtain ⟨job, pushed, worked⟩ := genuine.delivered_mem (List.getElem_mem inside)
    obtain ⟨record, member, rfl⟩ := readerMain_pushes pushed
    obtain ⟨i, -, original⟩ := behind.original member worked
    have position : s.delivered[k].position = k := by
      have place := List.getElem_of_eq genuine.order (i := k) (by rwa [List.length_map])
      rwa [List.getElem_map, List.getElem_range] at place
    obtain rfl : i = k := original.position.symm.trans position
    exact original.bytes
  refine List.ext_getElem? fun k => ?_
  rw [List.getElem?_map]
  by_cases inside : k < s.delivered.length
  · rw [List.getElem?_eq_getElem inside, List.getElem?_take_of_lt inside, each k inside]
    rfl
  · rw [List.getElem?_eq_none (by omega), List.getElem?_eq_none (by rw [List.length_take]; omega)]
    rfl

theorem frameFlags_final {i : Nat}
    (final : (l.frameHeader i).frameFlags &&& kChunkFrameFlagFinalChunk ≠ 0) : i + 1 = l.n := by
  by_contra more
  refine final ?_
  rw [ChunkLayout.frameHeader, ChunkLayout.headerIn, if_neg more]
  exact UInt16.zero_and

/-- When it is asked to finish it has got all of them: a stream that ends earlier has no final
frame. -/
theorem Behind.finished (behind : Behind p l jobs aead suite d)
    (last : d.stream.ending = none → ∃ record ∈ d.stream.records,
      record.chunkIndex.toNat + 1 = d.stream.records.length ∧
        record.frameFlags &&& kChunkFrameFlagFinalChunk ≠ 0)
    (run : Reaches (init (d.threads workers capacity workersPos capacityPos) ⟨start, 0⟩) s)
    (asked : Call.finish ∈ s.calls) :
    s.delivered.map Decrypt.PlainChunk.bytes = jobs.map Encrypt.PlainChunk.bytes := by
  obtain ⟨out, mid, done⟩ := run.completed_of_finish asked
  have items : (d.threads workers capacity workersPos capacityPos).script.items =
      d.stream.records.map Decrypt.queued := Decrypt.readerMain_items _ _
  obtain ⟨jobs', perm, matched, -⟩ :=
    done.sorted (fun job => job.index.toNat) fun _ _ => DecryptPipeline.decryptJob_index
  rw [items] at perm
  obtain ⟨record, member, index, final⟩ :=
    last ((Decrypt.readerMain_ending _ _).symm.trans done.ending)
  have among : Decrypt.queued record ∈ jobs' := perm.mem_iff.mpr (List.mem_map_of_mem member)
  obtain ⟨chunk, -, worked⟩ := forall₂_mem_right matched.flip _ among
  obtain ⟨i, below, original⟩ := behind.original member worked
  have ends : i + 1 = l.n := frameFlags_final (original.header.frameFlags ▸ final)
  have here : record.chunkIndex.toNat = i := by
    rw [original.header.chunkIndex]
    have small := l.n_lt
    exact UInt64.toNat_ofNat_of_lt' (by simp only [UInt64.size]; omega)
  have length : s.delivered.length = jobs.length := by
    rw [done.delivered, ← matched.length_eq, perm.length_eq, List.length_map, behind.number]
    omega
  rw [behind.delivered run, length, List.take_of_length_le (by rw [List.length_map])]

theorem unforged_of_encrypted (hkdf : d.hkdf = p.hkdf)
    (sealing : p.backend = aeadBackend aead suite) (opening : d.backend = aeadBackend aead suite)
    (keys : d.keys = p.keys) (same : SameArchive p.options d.options)
    (describes : ∀ job ∈ jobs, job.Describes) {chunks : List Encrypt.CipherChunk}
    (records : d.stream.records = chunks.map recordOf)
    (worked : List.Forall₂ (fun job chunk =>
      Encrypt.encryptJob p.hkdf p.backend p.keys p.options job = .ok chunk) jobs chunks) :
    d.Unforged aead suite (p.encryptCalls jobs) := by
  intro record member nonce aad plaintext derived serialized _
  rw [records] at member
  obtain ⟨chunk, made, rfl⟩ := List.mem_map.mp member
  obtain ⟨job, among, work⟩ := forall₂_mem_right worked chunk made
  obtain ⟨-, header, headerBytes, nonce', derived', encrypted⟩ := p.encryption_of_encryptJob work
  have nonces : nonce' = nonce := by
    rw [hkdf, opening, keys, jobNonce_recordOf same (describes job among) header, ← sealing,
      derived'] at derived
    exact Except.ok.inj derived
  subst nonces
  have bound : serializeChunkAadV1 (Encrypt.request p.keys p.options job nonce').aad = .ok aad := by
    rw [makeAad_eq same] at serialized
    change serializeChunkAadV1 (Encrypt.makeAad _ chunk.frameHeader.shardIndex
      chunk.frameHeaderBytes) = _ at serialized
    rwa [header, headerBytes] at serialized
  refine ⟨_, p.mem_encryptCalls.mpr ⟨job, among, nonce', derived', rfl⟩, by rw [opening]; rfl,
    congrArg ExpandedKeys.chunkEncryptionKey keys.symm, rfl, bound, ?_⟩
  rw [sealing] at encrypted
  change aeadEncryptChunk aead suite _ = _ at encrypted
  unfold aeadEncryptChunk at encrypted
  obtain ⟨_, -, encrypted⟩ := (Result.bind_eq_ok _ _ _).mp encrypted
  obtain ⟨_, again, encrypted⟩ := (Result.bind_eq_ok _ _ _).mp encrypted
  obtain ⟨_, -, encrypted⟩ := (Result.bind_eq_ok _ _ _).mp encrypted
  cases bound.symm.trans again
  exact Except.ok.inj encrypted

end Opened

end Bseal.Pipeline
