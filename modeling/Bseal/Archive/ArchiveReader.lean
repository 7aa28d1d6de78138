import Bseal.Archive.Metadata
import Bseal.Lib.Effect
import Bseal.Platform.Disk

/-! `archive/ArchiveReader`: record splitting and the record handlers, over an
interface of file operations. A handler that throws leaves the state it had reached. -/
namespace Bseal.Archive
open Effect Platform

inductive HardenedExtractMode where
  | off
  | auto
  | on
  deriving DecidableEq, Repr

structure ArchiveReaderOptions where
  outputRoot : OutPath
  overwriteExisting : Bool
  restoreTimestamps : Bool
  restorePermissions : Bool
  allowSymlinks : Bool
  hardenedExtractMode : HardenedExtractMode
  durabilityMode : DurabilityMode

/-- The file operations of extraction. The open output stream is part of the world `σ`; an
operation that reports an `error_code` throws its message. -/
structure ExtractOps (σ : Type) where
  createDirectories : OutPath → Effect String σ Unit
  openFile : OutPath → Effect Unit σ Unit
  writeFile : Bytes → Effect Unit σ Unit
  closeFile : Effect Unit σ Unit
  permissions : OutPath → UInt32 → Effect String σ Unit
  lastWriteTime : OutPath → Int64 → Effect String σ Unit
  createSymlink : Bytes → OutPath → Effect String σ Unit

def EntryMetadata.initial : EntryMetadata := ⟨.regularFile, [], 0, 0, ⟨0, none, none⟩, []⟩

structure Extraction (σ : Type) where
  archiveBeginSeen : Bool
  archiveEndSeen : Bool
  currentFileOpen : Bool
  currentFileArchivePath : Bytes
  currentFileMetadata : EntryMetadata
  currentFileWritten : UInt64
  deferredDirectoryMetadata : List EntryMetadata
  world : σ

@[ext] structure ArchiveReader (σ : Type) where
  pending : Bytes
  finished : Bool
  extraction : Extraction σ

def Extraction.initial {σ : Type} (world : σ) : Extraction σ :=
  ⟨false, false, false, [], .initial, 0, [], world⟩

def ArchiveReader.initial {σ : Type} (world : σ) : ArchiveReader σ := ⟨[], false, .initial world⟩

def invalid (message : String) : Failure := .invalidArgument message

abbrev Handler (σ : Type) := Effect Failure (Extraction σ)

section Handlers
variable {σ : Type} (ops : ExtractOps σ) (options : ArchiveReaderOptions) (tempRoot : OutPath)

def fileOp (context : String) (op : Effect String σ Unit) : Handler σ Unit :=
  zoom Extraction.world (fun w e => { e with world := w }) (fun m => invalid (context ++ m)) op

def streamOp (message : String) (op : Effect Unit σ Unit) : Handler σ Unit :=
  zoom Extraction.world (fun w e => { e with world := w }) (fun _ => invalid message) op

/-- `bits_to_permissions`: the setuid, setgid and sticky bits go. -/
def bitsToPermissions (bits : UInt32) : UInt32 := bits &&& 0o777

def restorePermissions (path : OutPath) (m : EntryMetadata) : Handler σ Unit :=
  if options.restorePermissions ∧ m.posixMode ≠ 0 then
    fileOp "cannot restore permissions: " (ops.permissions path (bitsToPermissions m.posixMode))
  else pure ()

def restoreTimestamps (path : OutPath) (m : EntryMetadata) : Handler σ Unit :=
  if options.restoreTimestamps ∧ m.times.modifiedNsSinceUnixEpoch ≠ 0 ∧ m.kind ≠ .symlink then
    fileOp "cannot restore modification time: "
      (ops.lastWriteTime path m.times.modifiedNsSinceUnixEpoch)
  else pure ()

def applyMetadataToPath (path : OutPath) (m : EntryMetadata) : Handler σ Unit := do
  restorePermissions ops options path m
  restoreTimestamps ops options path m

def beginArchive (payload : Bytes) : Handler σ Unit := do
  let r ← get
  throwIf r.archiveBeginSeen (invalid "duplicate ArchiveBegin record")
  throwIf (payload.length ≠ 4) (invalid "invalid ArchiveBegin payload")
  throwIf (ByteCodec.ofLE payload ≠ kArchiveFormatVersion.toNat)
    (invalid "unsupported archive stream version")
  modify fun r => { r with archiveBeginSeen := true }

def createDirectory (m : EntryMetadata) : Handler σ Unit := do
  let r ← get
  throwIf (¬r.archiveBeginSeen) (invalid "directory record before ArchiveBegin")
  throwIf (m.kind ≠ .directory) (invalid "DirectoryEntry record contains non-directory metadata")
  let path ← lift (makeSafeOutputPath tempRoot m.relativePath)
  fileOp "cannot create extracted directory: " (ops.createDirectories path)
  modify fun r => { r with deferredDirectoryMetadata := r.deferredDirectoryMetadata ++ [m] }

def beginFile (m : EntryMetadata) : Handler σ Unit := do
  let r ← get
  throwIf (¬r.archiveBeginSeen) (invalid "file record before ArchiveBegin")
  throwIf r.currentFileOpen (invalid "nested file records are invalid")
  throwIf (m.kind ≠ .regularFile) (invalid "FileEntry record contains non-file metadata")
  let path ← lift (makeSafeOutputPath tempRoot m.relativePath)
  fileOp "cannot create parent directory for extracted file: " (ops.createDirectories path.parent)
  streamOp ("cannot open temporary output file: " ++ path.string)
    (ops.openFile path)
  modify fun r => { r with
    currentFileOpen := true
    currentFileArchivePath := m.relativePath
    currentFileMetadata := m
    currentFileWritten := 0 }

def writeFileBytes (bytes : Bytes) : Handler σ Unit := do
  let r ← get
  throwIf (¬r.currentFileOpen) (invalid "FileBytes record outside a file")
  throwIf (bytes.length > (r.currentFileMetadata.originalSize - r.currentFileWritten).toNat)
    (invalid "file payload exceeds declared file size")
  streamOp "error while writing temporary output file" (ops.writeFile bytes)
  modify fun r => { r with
    currentFileWritten := r.currentFileWritten + UInt64.ofNat bytes.length }

def endFile : Handler σ Unit := do
  let r ← get
  throwIf (¬r.currentFileOpen) (invalid "FileEnd record outside a file")
  throwIf (r.currentFileWritten ≠ r.currentFileMetadata.originalSize)
    (invalid "file payload ended before declared file size")
  streamOp "error while closing temporary output file" ops.closeFile
  let path ← lift (makeSafeOutputPath tempRoot r.currentFileArchivePath)
  applyMetadataToPath ops options path r.currentFileMetadata
  modify fun r => { r with
    currentFileOpen := false
    currentFileArchivePath := []
    currentFileMetadata := .initial
    currentFileWritten := 0 }

/-- The symlink targets that extraction accepts. -/
def SafeSymlinkTarget (target : Bytes) : Prop := MetadataPath target

instance (target : Bytes) : Decidable (SafeSymlinkTarget target) :=
  inferInstanceAs (Decidable (MetadataPath target))

def createSymlink (m : EntryMetadata) : Handler σ Unit := do
  let r ← get
  throwIf (¬r.archiveBeginSeen) (invalid "symlink record before ArchiveBegin")
  throwIf (m.kind ≠ .symlink) (invalid "SymlinkEntry record contains non-symlink metadata")
  throwIf (¬options.allowSymlinks)
    (invalid "archive contains symlink but symlink extraction is disabled")
  throwIf (¬SafeSymlinkTarget m.symlinkTargetUtf8)
    (invalid "unsafe symlink target rejected during extraction")
  let path ← lift (makeSafeOutputPath tempRoot m.relativePath)
  fileOp "cannot create parent directory for extracted symlink: "
    (ops.createDirectories path.parent)
  fileOp "cannot create extracted symlink: " (ops.createSymlink m.symlinkTargetUtf8 path)

def endArchive : Handler σ Unit := do
  let r ← get
  throwIf (¬r.archiveBeginSeen) (invalid "ArchiveEnd before ArchiveBegin")
  throwIf r.currentFileOpen (invalid "ArchiveEnd while a file is open")
  modify fun r => { r with archiveEndSeen := true }

/-- The switch of `process_record`. -/
def handleRecord (archiveEndSeen : Bool) (record : ArchiveRecord) : Handler σ Unit :=
  match record.type with
  | .archiveBegin => beginArchive record.payload
  | .directoryEntry => do
    let m ← lift (parseEntryMetadata record.payload)
    createDirectory ops tempRoot m
  | .fileEntry => do
    let m ← lift (parseEntryMetadata record.payload)
    beginFile ops tempRoot m
  | .fileBytes => writeFileBytes ops record.payload
  | .fileEnd => endFile ops options tempRoot
  | .symlinkEntry => do
    let m ← lift (parseEntryMetadata record.payload)
    createSymlink ops options tempRoot m
  | .archiveEnd => endArchive
  | .randomPadding =>
    throwIf (¬archiveEndSeen)
      (invalid "RandomPadding record is only valid after ArchiveEnd")

def processRecord (record : ArchiveRecord) : Handler σ Unit := do
  let r ← get
  throwIf (r.archiveEndSeen ∧ record.type ≠ .randomPadding)
    (invalid "non-padding record found after ArchiveEnd")
  handleRecord ops options tempRoot r.archiveEndSeen record

def onExtraction (x : Handler σ Unit) : Effect Failure (ArchiveReader σ) Unit :=
  zoom ArchiveReader.extraction (fun e r => { r with extraction := e }) id x

/-- The loop of `consume`, for at most `fuel` rounds. -/
def consumeRecords : Nat → Effect Failure (ArchiveReader σ) Unit
  | 0 => pure ()
  | fuel + 1 => do
    let r ← get
    let maybeSize ← lift (encodedRecordSizeIfComplete r.pending)
    match maybeSize with
    | none => pure ()
    | some recordSize => do
      let record ← lift (parseRecord (r.pending.take recordSize))
      modify fun r => { r with pending := r.pending.drop recordSize }
      onExtraction (processRecord ops options tempRoot record)
      consumeRecords fuel

/-- Every round takes a record prefix off, so `pending.length + 1` rounds are enough. -/
def consume (plaintext : Bytes) : Effect Failure (ArchiveReader σ) Unit := do
  let r ← get
  throwIf r.finished (invalid "cannot consume archive data after finish")
  modify fun r => { r with pending := r.pending ++ plaintext }
  consumeRecords ops options tempRoot (r.pending.length + plaintext.length + 1)

/-- The checks of `finish` before anything is committed. -/
def finishChecks (r : ArchiveReader σ) : Result Unit :=
  if ¬r.pending.isEmpty then .error (invalid "archive ended with a partial record")
  else if ¬r.extraction.archiveBeginSeen then
    .error (invalid "archive did not contain ArchiveBegin")
  else if ¬r.extraction.archiveEndSeen then
    .error (invalid "archive did not contain ArchiveEnd")
  else if r.extraction.currentFileOpen then
    .error (invalid "archive ended while a file was still open")
  else .ok ()

def processRecords : List ArchiveRecord → Handler σ Unit
  | [] => pure ()
  | record :: records => do
    processRecord ops options tempRoot record
    processRecords records

end Handlers

section Specs
variable {σ : Type} (ops : ExtractOps σ) (options : ArchiveReaderOptions) (tempRoot : OutPath)
  (e e' : Extraction σ)

theorem fileOp_ok (context : String) (op : Effect String σ Unit) (u : Unit) :
    exec (fileOp context op) e = (.ok u, e') ↔
      ∃ w, exec op e.world = (.ok u, w) ∧ { e with world := w } = e' :=
  exec_zoom_ok _ _ _ op e e' u

theorem fileOp_bind_ok (context : String) (op : Effect String σ Unit)
    (f : Unit → Handler σ Unit) :
    exec (fileOp context op >>= f) e = (.ok (), e') ↔
      ∃ w, exec op e.world = (.ok (), w) ∧ exec (f ()) { e with world := w } = (.ok (), e') := by
  unfold fileOp
  rw [exec_zoom_bind_ok]
  exact ⟨fun ⟨(), h⟩ => h, fun h => ⟨(), h⟩⟩

theorem streamOp_bind_ok (message : String) (op : Effect Unit σ Unit)
    (f : Unit → Handler σ Unit) :
    exec (streamOp message op >>= f) e = (.ok (), e') ↔
      ∃ w, exec op e.world = (.ok (), w) ∧ exec (f ()) { e with world := w } = (.ok (), e') := by
  unfold streamOp
  rw [exec_zoom_bind_ok]
  exact ⟨fun ⟨(), h⟩ => h, fun h => ⟨(), h⟩⟩

theorem beginArchive_ok (payload : Bytes) :
    exec (beginArchive payload) e = (.ok (), e') ↔
      e.archiveBeginSeen = false ∧ payload = ByteCodec.toLE 4 1 ∧
        { e with archiveBeginSeen := true } = e' := by
  unfold beginArchive
  simp only [exec_get_bind, exec_throwIf_bind_ok, exec_modify_ok, Bool.not_eq_true, not_not, ne_eq]
  rw [show kArchiveFormatVersion.toNat = 1 from rfl, ← ByteCodec.eq_toLE_iff (by decide),
    and_assoc]

theorem createDirectory_ok (m : EntryMetadata) :
    exec (createDirectory ops tempRoot m) e = (.ok (), e') ↔
      e.archiveBeginSeen ∧ m.kind = .directory ∧ ∃ path,
        makeSafeOutputPath tempRoot m.relativePath = .ok path ∧ ∃ w,
        exec (ops.createDirectories path) e.world = (.ok (), w) ∧
        { e with
          world := w
          deferredDirectoryMetadata := e.deferredDirectoryMetadata ++ [m] } = e' := by
  unfold createDirectory
  simp only [exec_get_bind, exec_throwIf_bind_ok, exec_lift_bind_ok, fileOp_bind_ok,
    exec_modify_ok, not_not, ne_eq]

theorem beginFile_ok (m : EntryMetadata) :
    exec (beginFile ops tempRoot m) e = (.ok (), e') ↔
      e.archiveBeginSeen ∧ e.currentFileOpen = false ∧ m.kind = .regularFile ∧ ∃ path,
        makeSafeOutputPath tempRoot m.relativePath = .ok path ∧ ∃ w,
        exec (ops.createDirectories path.parent) e.world = (.ok (), w) ∧ ∃ w',
        exec (ops.openFile path) w = (.ok (), w') ∧
        { e with
          world := w'
          currentFileOpen := true
          currentFileArchivePath := m.relativePath
          currentFileMetadata := m
          currentFileWritten := 0 } = e' := by
  unfold beginFile
  simp only [exec_get_bind, exec_throwIf_bind_ok, exec_lift_bind_ok, fileOp_bind_ok,
    streamOp_bind_ok, exec_modify_ok, not_not, ne_eq, Bool.not_eq_true, Bool.not_eq_false]

theorem writeFileBytes_ok (bytes : Bytes) :
    exec (writeFileBytes ops bytes) e = (.ok (), e') ↔
      e.currentFileOpen ∧
        bytes.length ≤ (e.currentFileMetadata.originalSize - e.currentFileWritten).toNat ∧ ∃ w,
        exec (ops.writeFile bytes) e.world = (.ok (), w) ∧
        { e with
          world := w
          currentFileWritten := e.currentFileWritten + UInt64.ofNat bytes.length } = e' := by
  unfold writeFileBytes
  simp only [exec_get_bind, exec_throwIf_bind_ok, streamOp_bind_ok, exec_modify_ok, not_not,
    gt_iff_lt, not_lt]

theorem restorePermissions_ok (path : OutPath) (m : EntryMetadata)
    (done : exec (restorePermissions ops options path m) e = (.ok (), e')) :
    ∃ w, { e with world := w } = e' := by
  unfold restorePermissions at done
  split at done
  · obtain ⟨w, -, rfl⟩ := (fileOp_ok _ _ _ _ _).mp done
    exact ⟨w, rfl⟩
  · cases done
    exact ⟨e.world, rfl⟩

theorem restoreTimestamps_ok (path : OutPath) (m : EntryMetadata)
    (done : exec (restoreTimestamps ops options path m) e = (.ok (), e')) :
    ∃ w, { e with world := w } = e' := by
  unfold restoreTimestamps at done
  split at done
  · obtain ⟨w, -, rfl⟩ := (fileOp_ok _ _ _ _ _).mp done
    exact ⟨w, rfl⟩
  · cases done
    exact ⟨e.world, rfl⟩

theorem applyMetadataToPath_ok (path : OutPath) (m : EntryMetadata)
    (done : exec (applyMetadataToPath ops options path m) e = (.ok (), e')) :
    ∃ w, { e with world := w } = e' := by
  unfold applyMetadataToPath at done
  obtain ⟨_, _, perms, times⟩ := (exec_bind_ok _ _ _ _ _).mp done
  obtain ⟨_, rfl⟩ := restorePermissions_ok ops options _ _ path m perms
  obtain ⟨w, rfl⟩ := restoreTimestamps_ok ops options _ _ path m times
  exact ⟨w, rfl⟩

theorem endFile_ok :
    exec (endFile ops options tempRoot) e = (.ok (), e') ↔
      e.currentFileOpen ∧ e.currentFileWritten = e.currentFileMetadata.originalSize ∧ ∃ w,
        exec ops.closeFile e.world = (.ok (), w) ∧ ∃ path,
        makeSafeOutputPath tempRoot e.currentFileArchivePath = .ok path ∧ ∃ w',
        exec (applyMetadataToPath ops options path e.currentFileMetadata)
          { e with world := w } = (.ok (), { e with world := w' }) ∧
        { e with
          world := w'
          currentFileOpen := false
          currentFileArchivePath := []
          currentFileMetadata := .initial
          currentFileWritten := 0 } = e' := by
  unfold endFile
  simp only [exec_get_bind, exec_throwIf_bind_ok, exec_lift_bind_ok, streamOp_bind_ok, not_not,
    ne_eq]
  refine and_congr_right fun opened => and_congr_right fun whole => exists_congr fun w =>
    and_congr_right fun closed => exists_congr fun path => and_congr_right fun safe => ?_
  rw [exec_bind_ok]
  constructor
  · rintro ⟨_, _, restored, rest⟩
    obtain ⟨w', rfl⟩ := applyMetadataToPath_ok ops options _ _ _ _ restored
    exact ⟨w', restored, (exec_modify_ok _ _ _ _).mp rest⟩
  · rintro ⟨w', restored, rest⟩
    exact ⟨(), _, restored, (exec_modify_ok _ _ _ _).mpr rest⟩

theorem createSymlink_ok (m : EntryMetadata) :
    exec (createSymlink ops options tempRoot m) e = (.ok (), e') ↔
      e.archiveBeginSeen ∧ m.kind = .symlink ∧ options.allowSymlinks ∧
        SafeSymlinkTarget m.symlinkTargetUtf8 ∧ ∃ path,
        makeSafeOutputPath tempRoot m.relativePath = .ok path ∧ ∃ w,
        exec (ops.createDirectories path.parent) e.world = (.ok (), w) ∧ ∃ w',
        exec (ops.createSymlink m.symlinkTargetUtf8 path) w = (.ok (), w') ∧
        { e with world := w' } = e' := by
  unfold createSymlink
  simp only [exec_get_bind, exec_throwIf_bind_ok, exec_lift_bind_ok, fileOp_bind_ok, fileOp_ok,
    not_not, ne_eq]

theorem endArchive_ok :
    exec (endArchive : Handler σ Unit) e = (.ok (), e') ↔
      e.archiveBeginSeen ∧ e.currentFileOpen = false ∧
        { e with archiveEndSeen := true } = e' := by
  unfold endArchive
  simp only [exec_get_bind, exec_throwIf_bind_ok, exec_modify_ok, Bool.not_eq_true,
    Bool.not_eq_false]

end Specs

def encodeRecords (records : List ArchiveRecord) : Bytes := (records.map serializeRecord).flatten

def RecordsFit (records : List ArchiveRecord) : Prop :=
  ∀ record ∈ records, record.payload.length ≤ kMaxRecordPayloadBytes

instance (records : List ArchiveRecord) : Decidable (RecordsFit records) :=
  inferInstanceAs (Decidable (∀ _ ∈ _, _))

theorem encodeRecords_cons (record : ArchiveRecord) (records : List ArchiveRecord) :
    encodeRecords (record :: records) = serializeRecord record ++ encodeRecords records := rfl

theorem encodeRecords_cons_ne_nil (record : ArchiveRecord) (records : List ArchiveRecord) :
    encodeRecords (record :: records) ≠ [] := by
  intro empty
  have len := congrArg List.length empty
  rw [encodeRecords_cons, List.length_append, serializeRecord_length, List.length_nil,
    kRecordPrefixSize] at len
  omega

theorem recordsFit_nil : RecordsFit [] := by
  intro record member
  cases member

theorem RecordsFit.tail {record : ArchiveRecord} {records : List ArchiveRecord}
    (fit : RecordsFit (record :: records)) : RecordsFit records :=
  fun r hr => fit r (List.mem_cons_of_mem _ hr)

/-- Two record lists with one encoding are the same list. -/
theorem encodeRecords_injective {records others : List ArchiveRecord} (fit : RecordsFit records)
    (fit' : RecordsFit others) (same : encodeRecords records = encodeRecords others) :
    records = others := by
  have cap : kMaxRecordPayloadBytes < 256 ^ 8 := by decide
  induction records generalizing others with
  | nil =>
    cases others with
    | nil => rfl
    | cons other others => exact absurd same.symm (encodeRecords_cons_ne_nil other others)
  | cons record records ih =>
    cases others with
    | nil => exact absurd same (encodeRecords_cons_ne_nil record records)
    | cons other others =>
      have small := fit record (List.mem_cons_self)
      have small' := fit' other (List.mem_cons_self)
      have read := (readRecord_run_ok record _ (encodeRecords records)).mpr
        ⟨by omega, (encodeRecords_cons record records).symm⟩
      have read' := (readRecord_run_ok other _ (encodeRecords others)).mpr
        ⟨by omega, (encodeRecords_cons other others).symm⟩
      rw [same, read'] at read
      obtain ⟨rfl, tails⟩ := Prod.mk.inj (Except.ok.inj read)
      rw [ih fit.tail fit'.tail tails.symm]

section Loop
variable {σ : Type} (ops : ExtractOps σ) (options : ArchiveReaderOptions) (tempRoot : OutPath)

theorem exec_onExtraction (x : Handler σ Unit) (r : ArchiveReader σ) :
    exec (onExtraction x) r =
      ((exec x r.extraction).1, { r with extraction := (exec x r.extraction).2 }) := by
  unfold onExtraction
  rw [exec_zoom]
  rcases h : (exec x r.extraction).1 with e | a <;> rfl

theorem consumeRecords_record (fuel : Nat) (r : ArchiveReader σ) (record : ArchiveRecord)
    (rest : Bytes) (pending : r.pending = serializeRecord record ++ rest)
    (small : record.payload.length ≤ kMaxRecordPayloadBytes) :
    exec (consumeRecords ops options tempRoot (fuel + 1)) r =
      match exec (processRecord ops options tempRoot record) r.extraction with
      | (.ok _, e) =>
        exec (consumeRecords ops options tempRoot fuel)
          { r with pending := rest, extraction := e }
      | (.error x, e) => (.error x, { r with pending := rest, extraction := e }) := by
  have size : encodedRecordSizeIfComplete r.pending =
      .ok (some (serializeRecord record).length) := by
    rw [encodedRecordSizeIfComplete_some]
    exact ⟨record, rest, pending.symm, small, serializeRecord_length record⟩
  have parsed : parseRecord (r.pending.take (serializeRecord record).length) = .ok record := by
    rw [pending, List.take_left, parseRecord_ok]
    exact ⟨rfl, small⟩
  have dropped : r.pending.drop (serializeRecord record).length = rest := by
    rw [pending, List.drop_left]
  rw [consumeRecords, exec_bind_of_ok (exec_get r), exec_bind, exec_lift, size]
  simp only
  rw [exec_bind, exec_lift, parsed]
  simp only
  rw [exec_bind_of_ok (exec_modify _ r), exec_bind, exec_onExtraction, dropped]
  rcases exec (processRecord ops options tempRoot record) r.extraction with ⟨e | a, t⟩ <;> rfl

theorem consumeRecords_incomplete (fuel : Nat) (r : ArchiveReader σ)
    (incomplete : encodedRecordSizeIfComplete r.pending = .ok none) :
    exec (consumeRecords ops options tempRoot (fuel + 1)) r = (.ok (), r) := by
  rw [consumeRecords, exec_bind_of_ok (exec_get r), exec_bind, exec_lift, incomplete]
  rfl

/-- A successful loop has processed the records in front and stops at an incomplete one. -/
theorem consumeRecords_ok (fuel : Nat) (r s : ArchiveReader σ) (enough : r.pending.length < fuel)
    (done : exec (consumeRecords ops options tempRoot fuel) r = (.ok (), s)) :
    ∃ records rest, r.pending = encodeRecords records ++ rest ∧ RecordsFit records ∧
      encodedRecordSizeIfComplete rest = .ok none ∧
      exec (processRecords ops options tempRoot records) r.extraction = (.ok (), s.extraction) ∧
      s = { r with pending := rest, extraction := s.extraction } := by
  induction fuel generalizing r with
  | zero => omega
  | succ fuel ih =>
    rcases size : encodedRecordSizeIfComplete r.pending with e | (_ | n)
    · rw [consumeRecords, exec_bind_of_ok (exec_get r), exec_bind, exec_lift, size] at done
      cases done
    · rw [consumeRecords_incomplete _ _ _ _ _ size] at done
      cases done
      exact ⟨[], _, rfl, recordsFit_nil, size, rfl, rfl⟩
    · obtain ⟨record, rest, pending, small, -⟩ := (encodedRecordSizeIfComplete_some _ _).mp size
      rw [consumeRecords_record ops options tempRoot fuel r record rest pending.symm small] at done
      rcases step : exec (processRecord ops options tempRoot record) r.extraction with ⟨x | a, e⟩
      · rw [step] at done
        cases done
      · rw [step] at done
        have shorter : rest.length < fuel := by
          have len := congrArg List.length pending
          rw [List.length_append, serializeRecord_length, kRecordPrefixSize] at len
          omega
        obtain ⟨records, last, split, fit, stop, ran, same⟩ :=
          ih { r with pending := rest, extraction := e } shorter done
        simp only at split ran
        refine ⟨record :: records, last, ?_, ?_, stop, ?_, same⟩
        · rw [← pending, split, encodeRecords_cons, List.append_assoc]
        · intro other member
          rcases List.mem_cons.mp member with rfl | member
          · exact small
          · exact fit other member
        · rw [processRecords, exec_bind_of_ok step]
          exact ran

theorem consumeRecords_fuel (fuel fuel' : Nat) (r : ArchiveReader σ)
    (enough : r.pending.length < fuel) (enough' : r.pending.length < fuel') :
    exec (consumeRecords ops options tempRoot fuel) r =
      exec (consumeRecords ops options tempRoot fuel') r := by
  induction fuel generalizing fuel' r with
  | zero => omega
  | succ fuel ih =>
    obtain ⟨fuel', rfl⟩ : ∃ k, fuel' = k + 1 := ⟨fuel' - 1, by omega⟩
    rcases size : encodedRecordSizeIfComplete r.pending with e | (_ | n)
    · rw [consumeRecords, consumeRecords, exec_bind_of_ok (exec_get r),
        exec_bind_of_ok (exec_get r), exec_bind, exec_bind, exec_lift, size]
    · rw [consumeRecords_incomplete _ _ _ _ _ size, consumeRecords_incomplete _ _ _ _ _ size]
    · obtain ⟨record, rest, pending, small, -⟩ := (encodedRecordSizeIfComplete_some _ _).mp size
      have len := congrArg List.length pending
      rw [List.length_append, serializeRecord_length, kRecordPrefixSize] at len
      rw [consumeRecords_record ops options tempRoot fuel r record rest pending.symm small,
        consumeRecords_record ops options tempRoot fuel' r record rest pending.symm small]
      rcases exec (processRecord ops options tempRoot record) r.extraction with ⟨x | a, e⟩
      · rfl
      · exact ih fuel' _ (by simp only; omega) (by simp only; omega)

theorem consumeRecords_append (records : List ArchiveRecord) (rest : Bytes) (fuel fuel' : Nat)
    (r : ArchiveReader σ) (e : Extraction σ) (fit : RecordsFit records)
    (pending : r.pending = encodeRecords records ++ rest) (enough : r.pending.length < fuel)
    (enough' : rest.length < fuel')
    (ran : exec (processRecords ops options tempRoot records) r.extraction = (.ok (), e)) :
    exec (consumeRecords ops options tempRoot fuel) r =
      exec (consumeRecords ops options tempRoot fuel')
        { r with pending := rest, extraction := e } := by
  induction records generalizing fuel r with
  | nil =>
    cases ran
    change r.pending = rest at pending
    subst pending
    exact consumeRecords_fuel ops options tempRoot fuel fuel' r enough enough'
  | cons record records ih =>
    obtain ⟨fuel, rfl⟩ : ∃ k, fuel = k + 1 := ⟨fuel - 1, by omega⟩
    rw [encodeRecords_cons, List.append_assoc] at pending
    have len := congrArg List.length pending
    rw [List.length_append, serializeRecord_length, kRecordPrefixSize] at len
    rw [processRecords, exec_bind_ok] at ran
    obtain ⟨a, middle, step, ran⟩ := ran
    rw [consumeRecords_record ops options tempRoot fuel r record _ pending
      (fit record List.mem_cons_self), step]
    exact ih fuel { r with pending := encodeRecords records ++ rest, extraction := middle }
      fit.tail rfl (by simp only; omega) ran

end Loop
end Bseal.Archive
