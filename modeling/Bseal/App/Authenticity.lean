import Bseal.App.DirectoryRoundTrip
import Bseal.Pipeline.Authenticity

/-! `core_decrypt` on shard files that anybody may have changed, removed or made up after
`core_encrypt` has written them. -/
namespace Bseal.App
open Archive Crypto Effect FileTree Io OrderedPipeline Pipeline Platform

section Session
variable {c : Primitives} {files : Files} {q : DecryptRequest} {listing : Option (List Bytes)}
  {session : DecryptSession}

theorem coreDecrypt_ok (opened : coreDecrypt c files q listing = .ok session) :
    ∃ suite shards sorted total validation key, session.backend = aeadBackend c.aead suite ∧
      session.reader = .start sorted total ∧ discover c.blake3 files q.input listing = .ok shards ∧
      validateShards c.hmacSha256 validation key shards = .ok (sorted, total) := by
  unfold coreDecrypt at opened
  obtain ⟨_, -, opened⟩ := (Result.bind_eq_ok _ _ _).mp opened
  obtain ⟨shards, found, opened⟩ := (Result.bind_eq_ok _ _ _).mp opened
  obtain ⟨context, -, opened⟩ := (Result.bind_eq_ok _ _ _).mp opened
  obtain ⟨_, -, opened⟩ := (Result.bind_eq_ok _ _ _).mp opened
  obtain ⟨keys, -, opened⟩ := (Result.bind_eq_ok _ _ _).mp opened
  obtain ⟨_, -, opened⟩ := (Result.bind_eq_ok _ _ _).mp opened
  obtain ⟨reader, started, opened⟩ := (Result.bind_eq_ok _ _ _).mp opened
  cases opened
  unfold openShardReader at started
  rw [Result.guard_eq_ok] at started
  obtain ⟨⟨sorted, total⟩, valid, started⟩ := (Result.bind_eq_ok _ _ _).mp started.2
  cases started
  exact ⟨context.suite, shards, sorted, total, _, _, rfl, rfl, found, valid⟩

theorem last_of_coreDecrypt (opened : coreDecrypt c files q listing = .ok session)
    (sized : ∀ path content, files path = some content → content.length < 2 ^ 64)
    {stream : ChunkStream} (yields : Yields files session.reader stream)
    (whole : stream.ending = none) :
    ∃ record ∈ stream.records, record.chunkIndex.toNat + 1 = stream.records.length ∧
      record.frameFlags &&& kChunkFrameFlagFinalChunk ≠ 0 := by
  obtain ⟨_, shards, sorted, total, _, _, -, reader, found, valid⟩ := coreDecrypt_ok opened
  obtain ⟨-, g, -, -, rules, count, covers, shardFiles⟩ := accepted_set _ _ _ _ sized found valid
  have reads := yields.reads whole
  rw [reader] at reads
  exact reads_last covers shardFiles (count ▸ u64_pos rules.globalChunkCount) reads

end Session

/-- Whatever a run does, the archive reader is given a front of this plaintext, cut into pieces, and
all of it before it is asked to finish. -/
structure Authentic {σ : Type} (d : DecryptPipeline σ) (plaintext : Bytes) : Prop where
  front : ∀ (workers capacity : Nat) (workersPos : 0 < workers) (capacityPos : 0 < capacity)
    (start : σ) (s : State (d.threads workers capacity workersPos capacityPos)),
    Reaches (init _ ⟨start, 0⟩) s →
    (s.delivered.map Decrypt.PlainChunk.bytes).flatten <+: plaintext
  whole : ∀ (workers capacity : Nat) (workersPos : 0 < workers) (capacityPos : 0 < capacity)
    (start : σ) (s : State (d.threads workers capacity workersPos capacityPos)),
    Reaches (init _ ⟨start, 0⟩) s → Call.finish ∈ s.calls →
    (s.delivered.map Decrypt.PlainChunk.bytes).flatten = plaintext

section Tampered
variable {c : Primitives} {sys : System} {r : EncryptRequest} {archiveId kdfSalt : Bytes32}
  {records : RecordStream} {start : Disk} {p : EncryptPipeline ShardPlanner ShardWriter}
  {w : ShardWriter} {l : ChunkLayout} {gh : GlobalPublicHeaderV1} {keys : ExpandedKeys}
  {padded : UInt64} {jobs : List Encrypt.PlainChunk} {chunks : List Encrypt.CipherChunk}
  {files : Files} {q : DecryptRequest} {listing : Option (List Bytes)} {session : DecryptSession}
  {stream : ChunkStream} {σ : Type} {archiveReader : PlaintextReader σ}

theorem Encrypted.authentic (encrypted : Encrypted p l records jobs chunks) (lawful : c.Lawful)
    (opened : coreDecrypt c files q listing = .ok session)
    (sized : ∀ path content, files path = some content → content.length < 2 ^ 64)
    (yields : Yields files session.reader stream)
    (unforged : (session.pipeline stream archiveReader).Unforged c.aead r.params.suite
      (p.encryptCalls jobs)) :
    Authentic (session.pipeline stream archiveReader) records.records.flatten := by
  obtain ⟨suite, _, _, _, _, _, backend, -⟩ := coreDecrypt_ok opened
  have behind : Behind p l jobs c.aead r.params.suite (session.pipeline stream archiveReader) := by
    refine ⟨encrypted.number, encrypted.planned, yields.headerOf, ?_, lawful.aead _, unforged⟩
    change session.backend.decryptChunk = aeadDecryptChunk _ session.backend.suite
    rw [backend]
    rfl
  constructor
  · intro workers capacity workersPos capacityPos begin s run
    rw [behind.delivered run, ← encrypted.plaintext]
    exact (List.take_prefix _ _).flatten
  · intro workers capacity workersPos capacityPos begin s run asked
    rw [behind.finished (last_of_coreDecrypt opened sized yields) run asked, encrypted.plaintext]

theorem Encrypted.unforged (encrypted : Encrypted p l records jobs chunks)
    (prepared : Prepared c sys r archiveId kdfSalt records start p w l gh keys padded)
    (reader : ShardReader) : ((sessionOf c r gh keys (plannedHashes c.blake3 l gh) reader).pipeline
      ⟨chunks.map recordOf, none⟩ archiveReader).Unforged c.aead r.params.suite
      (p.encryptCalls jobs) := by
  have same := prepared.sameArchive reader
  refine unforged_of_encrypted ?_ ?_ rfl ?_ same (fun job member => ?_) rfl encrypted.worked
  · rw [prepared.pipeline]
    rfl
  · rw [prepared.pipeline]
  · rw [prepared.pipeline]
    rfl
  · obtain ⟨i, inside, rfl⟩ := List.getElem_of_mem member
    exact describes_of_planned (encrypted.planned i inside)

end Tampered

/-- The threads of an encryption have returned without a failure, and these are the calls by which
they encrypt what they planned. -/
inductive Seals (c : Primitives) (sys : System) (r : EncryptRequest) (archiveId kdfSalt : Bytes32)
    (raw : UInt64) (records : RecordStream) (start : Disk) : List EncryptChunkRequest → Prop where
  | returned {p : EncryptPipeline ShardPlanner ShardWriter} {w : ShardWriter} {tagSize : UInt16}
      {workers capacity : Nat} {workersPos : 0 < workers} {capacityPos : 0 < capacity}
      {s : State (p.threads tagSize workers capacity workersPos capacityPos)}
      (prepared : coreEncrypt c sys r archiveId kdfSalt raw records start = .ok (p, w))
      (validated : p.validateInputs = .ok tagSize) (run : Reaches (init _ w) s)
      (returned : s.main = .returned) (fine : s.failure = none) :
      Seals c sys r archiveId kdfSalt raw records start (p.encryptCalls (p.planned tagSize))

section Tampered
variable {c : Primitives} {sys : System} {r : EncryptRequest} {archiveId kdfSalt : Bytes32}
  {raw : UInt64} {records : RecordStream} {start : Disk} {calls : List EncryptChunkRequest}
  {files : Files} {q : DecryptRequest} {listing : Option (List Bytes)} {session : DecryptSession}
  {stream : ChunkStream} {σ : Type} {archiveReader : PlaintextReader σ}

theorem Seals.authentic (seals : Seals c sys r archiveId kdfSalt raw records start calls)
    (lawful : c.Lawful) (some : 1 ≤ raw) (small : records.records.flatten.length < 2 ^ 64)
    (opened : coreDecrypt c files q listing = .ok session)
    (sized : ∀ path content, files path = .some content → content.length < 2 ^ 64)
    (yields : Yields files session.reader stream)
    (unforged : (session.pipeline stream archiveReader).Unforged c.aead r.params.suite calls) :
    Authentic (session.pipeline stream archiveReader) records.records.flatten := by
  cases seals with
  | returned prepared validated run returned fine =>
    obtain ⟨l, gh, keys, padded, prepared⟩ := coreEncrypt_ok some prepared
    obtain ⟨chunks, _, _, encrypted, -⟩ := prepared.encrypted small validated run returned fine
    exact encrypted.authentic lawful opened sized yields unforged

theorem Seals.validChunkSize (seals : Seals c sys r archiveId kdfSalt raw records start calls) :
    ValidChunkSize r.params.chunkSize := by
  cases seals with
  | returned prepared => exact validChunkSize_of_prepared prepared

end Tampered

/-- Nothing gets out of an archive but what was put into it. Whoever can change the files, but not
make the AEAD accept what the encryption did not seal, decides at most how much of the plaintext
the archive reader is given; a reader that is asked to finish has got all of it. -/
theorem decrypts_what_was_encrypted (c : Primitives) (lawful : c.Lawful) (sys : System)
    (r : EncryptRequest) (archiveId kdfSalt : Bytes32) (raw : UInt64) (some : 1 ≤ raw)
    (records : RecordStream) (small : records.records.flatten.length < 2 ^ 64) (start : Disk)
    (calls : List EncryptChunkRequest)
    (seals : Seals c sys r archiveId kdfSalt raw records start calls) (files : Files)
    (sized : ∀ path content, files path = .some content → content.length < 2 ^ 64)
    (q : DecryptRequest) (listing : Option (List Bytes)) (session : DecryptSession)
    (opened : coreDecrypt c files q listing = .ok session) (stream : ChunkStream)
    (yields : Yields files session.reader stream) (σ : Type) (archiveReader : PlaintextReader σ)
    (unforged : (session.pipeline stream archiveReader).Unforged c.aead r.params.suite calls) :
    Authentic (session.pipeline stream archiveReader) records.records.flatten :=
  seals.authentic lawful some small opened sized yields unforged

/-- An encryption, and its own files read to the end. -/
structure Rereads (c : Primitives) (sys : System) (r : EncryptRequest) (archiveId kdfSalt : Bytes32)
    (raw : UInt64) (records : RecordStream) (start : Disk) (q : DecryptRequest)
    (calls : List EncryptChunkRequest) (files : Files) (paths : List Bytes)
    (session : DecryptSession) (stream : ChunkStream) : Prop where
  seals : Seals c sys r archiveId kdfSalt raw records start calls
  sized : ∀ path content, files path = some content → content.length < 2 ^ 64
  opened : coreDecrypt c files q (some paths) = .ok session
  yields : Yields files session.reader stream
  whole : stream.ending = none
  unforged : ∀ {σ : Type} (archiveReader : PlaintextReader σ),
    (session.pipeline stream archiveReader).Unforged c.aead r.params.suite calls

theorem exists_rereads {raw : UInt64} {records : RecordStream} {actions : List (Action 1 Failure)}
    (some : 1 ≤ raw) (small : records.records.flatten.length < 2 ^ 64)
    (ran : (coreEncrypt plainPrimitives oneName fiveBytesRequest zeroMac zeroMac raw records
      emptyDisk).toOption.any (fun x => x.1.validateInputs.toOption == Option.some 16 &&
        (runActions (init (x.1.threads 16 1 1 Nat.one_pos Nat.one_pos) x.2) actions).any
          finishedWell) = true) :
    ∃ calls files paths session stream, Rereads plainPrimitives oneName fiveBytesRequest zeroMac
      zeroMac raw records emptyDisk ⟨[46], [112], [], {}⟩ calls files paths session stream := by
  obtain ⟨p, w, prepared, validated, s, run, returned, fine⟩ := exists_returned ran
  obtain ⟨l, gh, keys, padded, known⟩ := coreEncrypt_ok some prepared
  obtain ⟨paths, nodup, listed, sized⟩ := exists_listing known plainPrimitives_lawful small
    validated drawn_oneName run returned fine (fun _ => rfl) (by decide)
  have opener : Opener plainPrimitives fiveBytesRequest ⟨[46], [112], [], {}⟩ :=
    ⟨rfl, rfl, rfl, rfl⟩
  obtain ⟨chunks, reader, encrypted, opened, reads⟩ := known.reread plainPrimitives_lawful small
    validated drawn_oneName run returned fine opener ⟨nodup, fun _ _ _ => rfl, listed, sized⟩
  exact ⟨_, _, paths, _, _, .returned prepared validated run returned fine, sized, opened,
    yields_of_reads reads, rfl, fun _ => encrypted.unforged known reader⟩

def taggedAead : Aead :=
  { plainAead with
    decrypt := fun suite key nonce sealed aad =>
      if sealed.drop (sealed.length - 16) = List.replicate 16 0 then
        plainAead.decrypt suite key nonce sealed aad
      else none }

def taggedPrimitives : Primitives := { plainPrimitives with aead := taggedAead }

theorem taggedPrimitives_lawful : taggedPrimitives.Lawful where
  hkdf := plainPrimitives_lawful.hkdf
  aead suite key nonce plaintext aad := by
    have tag : (plaintext ++ List.replicate 16 (0 : Byte)).drop
        ((plaintext ++ List.replicate 16 (0 : Byte)).length - 16) = List.replicate 16 0 := by
      rw [List.length_append, List.length_replicate, Nat.add_sub_cancel, List.drop_left]
    exact (if_pos tag).trans (plainPrimitives_lawful.aead suite key nonce plaintext aad)

/-- The last byte of every file, which is the tag's, is another one. -/
def tampered (files : Files) : Files :=
  fun path => (files path).map fun content => content.dropLast ++ [1]

def readsForged (files : Files) : Bool :=
  (coreDecrypt taggedPrimitives files ⟨[46], [112], [], {}⟩ (some [ascii "./x.bin"])).toOption.any
    fun session => match readNextChunkRecord files session.reader with
      | .ok (some record, r) =>
        decide (record.ciphertext.drop (record.ciphertext.length - 16) ≠ List.replicate 16 0) &&
          match readNextChunkRecord files r with
          | .ok (none, _) => true
          | _ => false
      | _ => false

theorem yields_of_readsForged {files : Files} (reads : readsForged files = true) :
    ∃ session record, coreDecrypt taggedPrimitives files ⟨[46], [112], [], {}⟩
        (some [ascii "./x.bin"]) = .ok session ∧ Yields files session.reader ⟨[record], none⟩ ∧
      record.ciphertext.drop (record.ciphertext.length - 16) ≠ List.replicate 16 0 := by
  unfold readsForged at reads
  rcases opened : coreDecrypt taggedPrimitives files ⟨[46], [112], [], {}⟩
      (some [ascii "./x.bin"]) with e | session
  · rw [opened] at reads
    cases reads
  rw [opened] at reads
  simp only [Except.toOption, Option.any_some] at reads
  split at reads
  · next record r first =>
    obtain ⟨tag, last⟩ := Bool.and_eq_true_iff.mp reads
    split at last
    · next r' none =>
      exact ⟨session, record, rfl, .record first (.finish none), of_decide_eq_true tag⟩
    · cases last
  · cases reads

/-- The tag of the one record of an archive has been changed. -/
theorem decrypts_what_was_encrypted_tampered : ∃ files session record,
    coreDecrypt taggedPrimitives (tampered files) ⟨[46], [112], [], {}⟩ (some [ascii "./x.bin"]) =
        .ok session ∧
      Yields (tampered files) session.reader ⟨[record], none⟩ ∧
      Authentic (session.pipeline ⟨[record], none⟩ keepingReader) [1, 2, 3, 4, 5] := by
  have small : ([[1, 2, 3, 4, 5]] : List Bytes).flatten.length < 2 ^ 64 := by decide
  obtain ⟨p, w, prepared, validated, s, run, returned, fine, reads⟩ :=
    @exists_files (coreEncrypt taggedPrimitives oneName fiveBytesRequest zeroMac zeroMac 5
      ⟨[[1, 2, 3, 4, 5]], none⟩ emptyDisk) oneAfterTheOther
      (fun files => readsForged (tampered files))
      (by decide +kernel)
  obtain ⟨l, gh, keys, padded, known⟩ := coreEncrypt_ok (by decide) prepared
  obtain ⟨paths, nodup, listed, sized⟩ := exists_listing known taggedPrimitives_lawful small
    validated drawn_oneName run returned fine (fun _ => rfl) (by decide)
  obtain ⟨session, record, opened, yields, tag⟩ := yields_of_readsForged reads
  refine ⟨s.sink.disk.files, session, record, opened, yields,
    decrypts_what_was_encrypted taggedPrimitives taggedPrimitives_lawful oneName fiveBytesRequest
      zeroMac zeroMac 5 (by decide) _ small emptyDisk _
      (.returned prepared validated run returned fine)
      _ (fun path content there => ?_) _ _ session opened _ yields _ keepingReader ?_⟩
  · obtain ⟨whole, here, rfl⟩ := Option.map_eq_some_iff.mp there
    have small := sized path whole here
    rw [List.length_append, List.length_dropLast, List.length_singleton]
    omega
  · intro other member nonce aad plaintext _ _ accepted
    obtain rfl := List.mem_singleton.mp member
    change (if _ then _ else none) = some plaintext at accepted
    rw [if_neg tag] at accepted
    cases accepted

section Directory
variable {source : SourceTree} {writerOptions : ArchiveWriterOptions} {src : List FileName}

/-- Whatever a run into this directory does: before it is asked to finish, the archive reader has
acted only in its temporary directory, and the tree is the old one without that; afterwards there
is the tree of the source, and no failure. -/
structure AllOrNothing (session : DecryptSession) (stream : ChunkStream)
    (d : ReadyReader source writerOptions src) : Prop where
  nothing : ∀ (workers capacity : Nat) (workersPos : 0 < workers) (capacityPos : 0 < capacity)
    (t : State ((session.pipeline stream (ReadyReader.plaintextReader d)).threads workers capacity
      workersPos capacityPos)),
    Reaches (init _ ⟨d.fresh, 0⟩) t → Call.finish ∉ t.calls →
    t.sink.archiveReader.extraction.world.tree.erase (d.root ++ [tempName d.suffix]) = d.base ∧
      ∀ p ∈ t.sink.archiveReader.extraction.world.touched, d.root ++ [tempName d.suffix] <+: p
  all : ∀ (workers capacity : Nat) (workersPos : 0 < workers) (capacityPos : 0 < capacity)
    (t : State ((session.pipeline stream (ReadyReader.plaintextReader d)).threads workers capacity
      workersPos capacityPos)),
    Reaches (init _ ⟨d.fresh, 0⟩) t → Call.finish ∈ t.calls →
    t.failure = none ∧ Reproduced source writerOptions src d.object.options d.base d.root
      t.sink.archiveReader.extraction.world.tree

theorem ReadyReader.consumes (d : ReadyReader source writerOptions src)
    (noLinks : d.options.allowSymlinks = false) (chunk : Decrypt.PlainChunk)
    (sink : Decrypt.Consumer (ArchiveReader FileSystem))
    (kept : sink.archiveReader.finished = false ∧
      Guarded (d.root ++ [tempName d.suffix]) d.base sink.archiveReader.extraction) :
    (exec (Decrypt.consumePlaintext (ReadyReader.plaintextReader d) chunk)
      sink).2.archiveReader.finished
        = false ∧
      Guarded (d.root ++ [tempName d.suffix]) d.base
        (exec (Decrypt.consumePlaintext (ReadyReader.plaintextReader d) chunk)
          sink).2.archiveReader.extraction := by
  obtain ⟨tempRoot, -, links, -⟩ := d.guarded
  have clean : ∀ record, CleanRecord d.object.options record := by
    intro record _ m _ allowed
    rw [links, noLinks] at allowed
    cases allowed
  have after := (Guarded.consume quietHost d.object.options clean chunk.bytes sink.archiveReader
    kept.1 kept.2).final
  rw [← tempRoot] at after
  unfold Decrypt.consumePlaintext Decrypt.onArchiveReader
  rw [exec_bind_of_ok (exec_modify _ _), exec_zoom]
  exact after

/-- An archive of a directory that anybody may have changed afterwards is decrypted as a whole or
not at all: nothing but the temporary directory is there until the tree is complete. -/
theorem directory_all_or_nothing (c : Primitives) (lawful : c.Lawful) (sys : System)
    (r : EncryptRequest) (archiveId kdfSalt : Bytes32) (source : SourceTree) (input : OutPath)
    (random : Nat → Bytes) (length : ∀ n, (random n).length = n) (raw : UInt64) (w : ArchiveWriter)
    (planned : r.archiveWriter source input random = .ok (raw, w))
    (entries : ListsAll source (r.writerOptions input) w.root) (fits : MetadataFits source w)
    (within : PaddingWithinCap raw r.params.chunkSize r.params.padding)
    (moments : Nat → Moment) (out : List Bytes) (w' : ArchiveWriter)
    (output : AllRecords source w moments out w') (small : out.flatten.length < 2 ^ 64)
    (start : Disk) (calls : List EncryptChunkRequest)
    (seals : Seals c sys r archiveId kdfSalt raw ⟨out, none⟩ start calls) (files : Files)
    (sized : ∀ path content, files path = .some content → content.length < 2 ^ 64)
    (q : DecryptRequest) (listing : Option (List Bytes)) (session : DecryptSession)
    (opened : coreDecrypt c files q listing = .ok session) (stream : ChunkStream)
    (yields : Yields files session.reader stream)
    (d : ReadyReader source (r.writerOptions input) w.root)
    (noLinks : d.options.allowSymlinks = false)
    (unforged : (session.pipeline stream (ReadyReader.plaintextReader d)).Unforged c.aead
      r.params.suite calls) : AllOrNothing session stream d := by
  obtain ⟨padding, plans⟩ := archiveWriter_ok planned
  have authentic := seals.authentic lawful (plans.some output small) small opened sized yields
    unforged
  obtain ⟨-, running, -, guarded⟩ := d.guarded
  constructor
  · intro workers capacity workersPos capacityPos t run unfinished
    obtain ⟨-, kept⟩ := run.sink_kept (ReadyReader.consumes d noLinks) ⟨running, guarded⟩ unfinished
    have absent : d.base.node (d.root ++ [tempName d.suffix]) = none := by
      rw [ReadyReader.base, Tree.erase_node _ (by simp), if_pos (List.prefix_refl _)]
    exact ⟨erase_of_sameOutside (by simp) absent kept.world.frame, kept.world.touched⟩
  · intro workers capacity workersPos capacityPos t run asked
    obtain ⟨chunks, mid, done⟩ := run.completed_of_finish asked
    have whole := authentic.whole workers capacity workersPos capacityPos d.fresh t run asked
    rw [done.delivered] at whole
    obtain ⟨consumed, -⟩ := DecryptPipeline.consumeAll_ok chunks _ _ done.consumed
    obtain ⟨_, stop, took, finished, reproduced⟩ :=
      plans.reproduced entries length seals.validChunkSize within fits output d [] whole
    obtain ⟨-, rfl⟩ := Prod.mk.inj (took.symm.trans consumed)
    have ends : exec ((session.pipeline stream (ReadyReader.plaintextReader d)).threads workers
        capacity workersPos capacityPos).finish mid =
          (.ok (), { mid with archiveReader := stop }) :=
      (exec_zoom_ok _ _ _ _ _ _ _).mpr ⟨stop, finished, rfl⟩
    have outcome := done.outcome
    rw [ends] at outcome
    rw [done.sink, ends]
    exact ⟨outcome.1, reproduced⟩

theorem directory_all_or_nothing_twoFiles : ∃ files paths session stream,
    coreDecrypt plainPrimitives files ⟨[46], [112], [], {}⟩ (some paths) = .ok session ∧
      Yields files session.reader stream ∧ stream.ending = none ∧
      AllOrNothing session stream twoFilesReader := by
  have small : twoFilesOutput.1.flatten.length < 2 ^ 64 := by decide +kernel
  obtain ⟨calls, files, paths, session, stream, again⟩ :=
    @exists_rereads 146 ⟨twoFilesOutput.1, none⟩ recordsFirst (by decide) small (by decide +kernel)
  have output : AllRecords (twoFiles threeBytes) twoFilesWriter _ _ _ :=
    allRecords_of_emitted 9 (by decide +kernel)
  have planned : fiveBytesRequest.archiveWriter (twoFiles threeBytes) []
      (fun n => List.replicate n 0) = .ok (146, twoFilesWriter) := rfl
  exact ⟨files, paths, session, stream, again.opened, again.yields, again.whole,
    directory_all_or_nothing plainPrimitives plainPrimitives_lawful oneName fiveBytesRequest zeroMac
      zeroMac (twoFiles threeBytes) [] _ (fun _ => List.length_replicate) 146 twoFilesWriter planned
      (listsAll_of_whole (fun _ => rfl) _ _) twoFiles_metadataFits trivial _ _ _ output small
      emptyDisk calls again.seals files again.sized
      _ _ session again.opened stream again.yields twoFilesReader rfl
      (again.unforged (ReadyReader.plaintextReader twoFilesReader))⟩

end Directory

end Bseal.App
