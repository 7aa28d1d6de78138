import Bseal.App.ArchiveRoundTrip
import Bseal.App.Padding
import Bseal.Archive.TreeRoundTrip

/-! `core_encrypt` on an input directory and `core_decrypt` into an output directory, with the
archive writer and the archive reader at their ends. -/
namespace Bseal.App
open Archive Crypto Effect FileTree Io OrderedPipeline Pipeline Platform

section Writer
variable {source : SourceTree} {r : EncryptRequest} {input : OutPath} {random : Nat → Bytes}
  {raw : UInt64} {w : ArchiveWriter}

def EncryptRequest.writerOptions (r : EncryptRequest) (input : OutPath) : ArchiveWriterOptions :=
  ⟨input, r.params.chunkSize, true, true, false⟩

/-- The size that is planned and the archive writer, with the record that pads its stream. -/
def EncryptRequest.archiveWriter (r : EncryptRequest) (source : SourceTree) (input : OutPath)
    (secureRandomBytes : Nat → Bytes) : Result (UInt64 × ArchiveWriter) := do
  let w ← ArchiveWriter.construct source (r.writerOptions input)
  let rawPlaintextSize ← w.planPlaintextSize source
  let pad ← computePadding rawPlaintextSize r.params.chunkSize r.params.padding
  pure (rawPlaintextSize,
    w.padded ((trailingPadding secureRandomBytes rawPlaintextSize pad).map serializeRecord))

/-- The threads of an encryption have returned without a failure and may have left these files. -/
inductive Encrypts (c : Primitives) (sys : System) (r : EncryptRequest)
    (archiveId kdfSalt : Bytes32)
    (raw : UInt64) (records : RecordStream) (start : Disk) : Files → Prop where
  | returned {p : EncryptPipeline ShardPlanner ShardWriter} {w : ShardWriter} {tagSize : UInt16}
      {workers capacity : Nat} {workersPos : 0 < workers} {capacityPos : 0 < capacity}
      {s : State (p.threads tagSize workers capacity workersPos capacityPos)}
      (prepared : coreEncrypt c sys r archiveId kdfSalt raw records start = .ok (p, w))
      (validated : p.validateInputs = .ok tagSize) (run : Reaches (init _ w) s)
      (returned : s.main = .returned) (fine : s.failure = none) {files : Files}
      (left : sys.Leaves s.sink.disk files) :
      Encrypts c sys r archiveId kdfSalt raw records start files

theorem trailingPadding_fits {chunkPlainSize : UInt64} {policy : PaddingPolicy}
    {pad : PaddingResult}
    (length : ∀ n, (random n).length = n) (valid : ValidChunkSize chunkPlainSize)
    (padded : computePadding raw chunkPlainSize policy = .ok pad)
    (within : PaddingWithinCap raw chunkPlainSize policy) :
    ∀ record ∈ trailingPadding random raw pad,
      record.type = .randomPadding ∧ record.payload.length ≤ kMaxRecordPayloadBytes := by
  intro record appended
  rw [trailingPadding] at appended
  split at appended
  · next gap =>
    cases appended
    have room := computePadding_room valid padded gap
    have bound := (computePadding_withinCap valid padded gap).mpr within
    have first : (pad.targetSize - raw).toNat = pad.targetSize.toNat - raw.toNat :=
      UInt64.toNat_sub_of_le _ _ (UInt64.le_iff_toNat_le.mpr (by omega))
    have nine : (9 : UInt64).toNat = 9 := rfl
    refine ⟨rfl, ?_⟩
    rw [length, UInt64.toNat_sub_of_le _ _
      (UInt64.le_iff_toNat_le.mpr (by rw [first, nine]; omega)), first, nine]
    omega
  · cases appended

theorem planPlaintextSize_padded (w : ArchiveWriter) (record : Option Bytes) (t : SourceTree) :
    (w.padded record).planPlaintextSize t = w.planPlaintextSize t := by
  have same (total : UInt64) (entries : List DirectoryEntry) :
      (w.padded record).planEntries t total entries = w.planEntries t total entries := by
    induction entries generalizing total with
    | nil => rfl
    | cons e entries ih =>
      rw [ArchiveWriter.planEntries, ArchiveWriter.planEntries]
      cases record <;> exact congrArg _ (funext ih)
  cases record with
  | none => rfl
  | some record => exact congrArg (· >>= _) (same _ _)

theorem validChunkSize_of_prepared {c : Primitives} {sys : System} {archiveId kdfSalt : Bytes32}
    {records : RecordStream} {start : Disk} {p : EncryptPipeline ShardPlanner ShardWriter}
    {writer : ShardWriter}
    (prepared : coreEncrypt c sys r archiveId kdfSalt raw records start = .ok (p, writer)) :
    ValidChunkSize r.params.chunkSize := by
  unfold coreEncrypt at prepared
  obtain ⟨_, valid, -⟩ := (Result.bind_eq_ok _ _ _).mp prepared
  exact (validateEncryptParams_rules valid).chunkSize

structure Plans (r : EncryptRequest) (source : SourceTree) (input : OutPath) (random : Nat → Bytes)
    (raw : UInt64) (w : ArchiveWriter) (padding : Option ArchiveRecord) : Prop where
  tree : WritesTree source (r.writerOptions input) w
  record : w.trailingPaddingRecord = padding.map serializeRecord
  size : w.planPlaintextSize source = .ok raw
  padding : ∃ pad, computePadding raw r.params.chunkSize r.params.padding = .ok pad ∧
    padding = trailingPadding random raw pad

theorem archiveWriter_ok (planned : r.archiveWriter source input random = .ok (raw, w)) :
    ∃ padding, Plans r source input random raw w padding := by
  unfold EncryptRequest.archiveWriter at planned
  obtain ⟨w₀, constructed, planned⟩ := (Result.bind_eq_ok _ _ _).mp planned
  obtain ⟨raw', size, planned⟩ := (Result.bind_eq_ok _ _ _).mp planned
  obtain ⟨pad, padding, planned⟩ := (Result.bind_eq_ok _ _ _).mp planned
  cases planned
  have tree := construct_writesTree constructed
    ((trailingPadding random raw pad).map serializeRecord)
  refine ⟨trailingPadding random raw pad, tree, ?_, ?_, pad, padding, rfl⟩
  · cases trailingPadding random raw pad with
    | none => exact construct_unpadded constructed
    | some record => rfl
  · rw [planPlaintextSize_padded]
    exact size

theorem Plans.some {padding : Option ArchiveRecord}
    (plans : Plans r source input random raw w padding) {moments : Nat → Moment}
    {out : List Bytes} {w' : ArchiveWriter} (output : AllRecords source w moments out w')
    (small : out.flatten.length < 2 ^ 64) : 1 ≤ raw := by
  obtain ⟨records, rfl, whole⟩ := records_of_follows (P := fun now => now.tree = source)
    output.still plans.tree.new output.follows output.ends
  have size := planned_of_wholeStream plans.tree.new.size_pos plans.tree.new.size_le
    (fun now at_ e member => by rw [at_]) whole
  obtain rfl : raw = .ofNat (recordsSize records) := Except.ok.inj (plans.size.symm.trans size)
  obtain ⟨contents, -, rfl⟩ := whole
  rw [List.flatten_append, List.length_append, List.length_flatten] at small
  change recordsSize _ + _ < _ at small
  rw [recordsSize_cons] at small
  rw [UInt64.le_iff_toNat_le, UInt64.toNat_ofNat', recordsSize_cons, Nat.mod_eq_of_lt (by omega)]
  have first : 1 ≤ kRecordPrefixSize := by decide
  change 1 ≤ _
  omega

end Writer

section Reader
variable {source : SourceTree} {writerOptions : ArchiveWriterOptions} {src : List FileName}

def ReadyReader.plaintextReader (d : ReadyReader source writerOptions src) :
    PlaintextReader (ArchiveReader FileSystem) := ⟨d.consume, d.finish⟩

theorem consumeAll_plaintextReader (d : ReadyReader source writerOptions src)
    (pieces : List Bytes) : (ReadyReader.plaintextReader d).consumeAll pieces =
      Archive.consumeAll (diskOps quietHost) d.object.options d.object.tempRoot pieces := by
  induction pieces with
  | nil => rfl
  | cons piece pieces ih =>
    rw [PlaintextReader.consumeAll, Archive.consumeAll, ih]
    rfl

theorem Plans.reproduced {source : SourceTree} {r : EncryptRequest} {input : OutPath}
    {random : Nat → Bytes} {raw : UInt64} {w w' : ArchiveWriter} {padding : Option ArchiveRecord}
    (plans : Plans r source input random raw w padding)
    (listed : ListsAll source (r.writerOptions input) w.root)
    (length : ∀ n, (random n).length = n) (valid : ValidChunkSize r.params.chunkSize)
    (within : PaddingWithinCap raw r.params.chunkSize r.params.padding)
    (fits : MetadataFits source w) {moments : Nat → Moment} {out : List Bytes}
    (output : AllRecords source w moments out w')
    (d : ReadyReader source (r.writerOptions input) w.root) (touched : List (List FileName))
    {pieces : List Bytes} (same : pieces.flatten = out.flatten) :
    ∃ mid stop, exec ((ReadyReader.plaintextReader d).consumeAll pieces)
        (d.object.load { d.disk with touched := touched }) = (.ok (), mid) ∧
      exec d.finish mid = (.ok (), stop) ∧
      Reproduced source (r.writerOptions input) w.root d.object.options d.base d.root
        stop.extraction.world.tree := by
  obtain ⟨pad, computed, rfl⟩ := plans.padding
  obtain ⟨mid, stop, consumed, finished, -, reproduced⟩ :=
    output.reproduced plans.tree listed (fun included => by cases included) fits plans.record
      (trailingPadding_fits length valid computed within) d touched same
  rw [← consumeAll_plaintextReader] at consumed
  exact ⟨mid, stop, consumed, finished, reproduced⟩

end Reader

/-- The threads of a decryption into this directory, left to themselves, do not fail or stop, and
leave the tree of the source in it. -/
def Unpacks (session : DecryptSession) (read : List ChunkRecord) {source : SourceTree}
    {writerOptions : ArchiveWriterOptions} {src : List FileName}
    (d : ReadyReader source writerOptions src) : Prop :=
  ∀ (workers capacity : Nat) (workersPos : 0 < workers) (capacityPos : 0 < capacity)
    (t : State ((session.pipeline ⟨read, none⟩ (ReadyReader.plaintextReader d)).threads workers
      capacity workersPos capacityPos)),
    Run OwnSteps (init _ ⟨d.start, 0⟩) t → t.failure = none ∧ ¬t.Stuck ∧
      (t.main = .returned → Reproduced source writerOptions src d.object.options d.base d.root
        t.sink.archiveReader.extraction.world.tree)

/-- A directory that has been encrypted comes back where no file operation fails: whoever has the
passphrase and the keyfiles and lists the output directory, in any order, gets its tree below an
output directory that has room for it, however the threads of both sides take turns. -/
theorem directory_round_trip (c : Primitives) (lawful : c.Lawful) (sys : System)
    (calm : ∀ k, sys.faults k = none) (r : EncryptRequest) (archiveId kdfSalt : Bytes32)
    (source : SourceTree) (input : OutPath) (random : Nat → Bytes)
    (length : ∀ n, (random n).length = n) (raw : UInt64) (w : ArchiveWriter)
    (planned : r.archiveWriter source input random = .ok (raw, w))
    (entries : ListsAll source (r.writerOptions input) w.root) (fits : MetadataFits source w)
    (within : PaddingWithinCap raw r.params.chunkSize r.params.padding)
    (moments : Nat → Moment) (out : List Bytes) (w' : ArchiveWriter)
    (output : AllRecords source w moments out w') (small : out.flatten.length < 2 ^ 64)
    (start : Disk) (files : Files)
    (encrypts : Encrypts c sys r archiveId kdfSalt raw ⟨out, none⟩ start files)
    (drawn : ∀ k, hasBinExtension (joinPath r.output (sys.names k ++ ascii ".bin")))
    (q : DecryptRequest) (opener : Opener c r q) (paths : List Bytes)
    (listed : PathsOf start.files files paths)
    (d : ReadyReader source (r.writerOptions input) w.root) :
    ∃ session read, coreDecrypt c files q (some paths) = .ok session ∧
      Reads files session.reader read ∧ Unpacks session read d := by
  obtain ⟨padding, plans⟩ := archiveWriter_ok planned
  have some := plans.some output small
  cases encrypts with
  | returned prepared validated run returned fine left =>
    obtain rfl := left calm
    have valid := validChunkSize_of_prepared prepared
    obtain ⟨l, gh, keys, padded, prepared⟩ := coreEncrypt_ok some prepared
    obtain ⟨session, read, pieces, restores⟩ :=
      prepared.restores lawful small validated drawn run returned fine opener listed
    refine ⟨session, read, restores.opened, restores.reads, ?_⟩
    obtain ⟨mid, stop, consumed, finished, reproduced⟩ :=
      plans.reproduced entries length valid within fits output d d.disk.touched restores.whole
    intro workers capacity workersPos capacityPos t run
    obtain ⟨fine, moves, returned⟩ := (restores.delivers _ (ReadyReader.plaintextReader d)).succeeds
      workers capacity workersPos capacityPos d.start mid stop t consumed finished run
    exact ⟨fine, moves, fun back => returned back ▸ reproduced⟩

def twoFilesOutput : List Bytes × ArchiveWriter :=
  emitted (atRest (twoFiles threeBytes)) 9 twoFilesWriter

def twoFilesPrepared : Result (EncryptPipeline ShardPlanner ShardWriter × ShardWriter) :=
  coreEncrypt plainPrimitives oneName fiveBytesRequest zeroMac zeroMac 146 ⟨twoFilesOutput.1, none⟩
    emptyDisk

def recordsFirst : List (Action 1 Failure) := List.replicate 7 .source ++ oneAfterTheOther

theorem twoFiles_encrypts : ∃ files paths,
    Encrypts plainPrimitives oneName fiveBytesRequest zeroMac zeroMac 146 ⟨twoFilesOutput.1, none⟩
      emptyDisk files ∧ PathsOf emptyDisk.files files paths := by
  obtain ⟨p, w, prepared, validated, s, run, returned, fine⟩ :=
    @exists_returned twoFilesPrepared recordsFirst (by decide +kernel)
  obtain ⟨l, gh, keys, padded, known⟩ := coreEncrypt_ok (by decide) prepared
  obtain ⟨paths, nodup, listed, sized⟩ := exists_listing known plainPrimitives_lawful
    (by decide +kernel) validated drawn_oneName run returned fine (fun _ => rfl) (by decide)
  exact ⟨_, paths, .returned prepared validated run returned fine fun _ => rfl,
    ⟨nodup, fun _ _ _ => rfl, listed, sized⟩⟩

theorem directory_round_trip_twoFiles : ∃ files paths session read,
    coreDecrypt plainPrimitives files ⟨[46], [112], [], {}⟩ (some paths) = .ok session ∧
      Reads files session.reader read ∧ Unpacks session read twoFilesReader := by
  obtain ⟨files, paths, encrypts, listed⟩ := twoFiles_encrypts
  have output : AllRecords (twoFiles threeBytes) twoFilesWriter _ _ _ :=
    allRecords_of_emitted 9 (by decide +kernel)
  have planned : fiveBytesRequest.archiveWriter (twoFiles threeBytes) []
      (fun n => List.replicate n 0) = .ok (146, twoFilesWriter) := rfl
  exact ⟨files, paths, directory_round_trip plainPrimitives plainPrimitives_lawful oneName
    (fun _ => rfl) fiveBytesRequest zeroMac zeroMac (twoFiles threeBytes) [] _
    (fun _ => List.length_replicate) 146
    twoFilesWriter planned (listsAll_of_whole (fun _ => rfl) _ _) twoFiles_metadataFits
    trivial _ _ _
    output (by decide +kernel) emptyDisk files encrypts drawn_oneName ⟨[46], [112], [], {}⟩
    ⟨rfl, rfl, rfl, rfl⟩ paths listed twoFilesReader⟩

end Bseal.App
