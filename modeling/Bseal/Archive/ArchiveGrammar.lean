import Bseal.Archive.ArchiveReader

/-! The record grammar of the archive stream, and what the reader accepts of it. The
reader's flags follow an automaton over records; the automaton's runs are the streams
of the grammar, with directory and symlink entries let through inside files as well. -/
namespace Bseal.Archive
open Effect

def IsBegin (r : ArchiveRecord) : Prop :=
  r.type = .archiveBegin ∧ r.payload = ByteCodec.toLE 4 1

def IsDirectory (r : ArchiveRecord) : Prop :=
  r.type = .directoryEntry ∧ ∃ m, parseEntryMetadata r.payload = .ok m ∧ m.kind = .directory

def IsSymlink (r : ArchiveRecord) : Prop :=
  r.type = .symlinkEntry ∧ ∃ m, parseEntryMetadata r.payload = .ok m ∧ m.kind = .symlink ∧
    SafeSymlinkTarget m.symlinkTargetUtf8

def IsFile (r : ArchiveRecord) (m : EntryMetadata) : Prop :=
  r.type = .fileEntry ∧ parseEntryMetadata r.payload = .ok m ∧ m.kind = .regularFile

def payloadBytes (records : List ArchiveRecord) : Nat :=
  (records.map fun r => r.payload.length).sum

/-- `content ::= DirectoryEntry | FileEntry FileBytes* FileEnd | SymlinkEntry` -/
inductive Content : List ArchiveRecord → Prop where
  | directory (r : ArchiveRecord) : IsDirectory r → Content [r]
  | symlink (r : ArchiveRecord) : IsSymlink r → Content [r]
  | file (entry : ArchiveRecord) (m : EntryMetadata) (body : List ArchiveRecord)
      (last : ArchiveRecord) :
      IsFile entry m → (∀ r ∈ body, r.type = .fileBytes) →
      payloadBytes body = m.originalSize.toNat → last.type = .fileEnd →
      Content (entry :: body ++ [last])

/-- `stream ::= ArchiveBegin content* ArchiveEnd RandomPadding*` -/
inductive Stream : List ArchiveRecord → Prop where
  | mk (first : ArchiveRecord) (contents : List (List ArchiveRecord)) (last : ArchiveRecord)
      (pads : List ArchiveRecord) :
      IsBegin first → (∀ c ∈ contents, Content c) → last.type = .archiveEnd →
      (∀ p ∈ pads, p.type = .randomPadding) → Stream (first :: contents.flatten ++ last :: pads)

/-- A byte stream that is a concatenation of complete records forming a stream. -/
def ArchiveGrammar (bytes : Bytes) : Prop :=
  ∃ records, bytes = encodeRecords records ∧ RecordsFit records ∧ Stream records

/-- The directory and symlink entries that stand between a `FileEntry` and its `FileEnd`. -/
def nestedEntries : Bool → List ArchiveRecord → List ArchiveRecord
  | _, [] => []
  | inFile, r :: records =>
    match r.type with
    | .fileEntry => nestedEntries true records
    | .fileEnd => nestedEntries false records
    | .directoryEntry | .symlinkEntry =>
      if inFile then r :: nestedEntries inFile records else nestedEntries inFile records
    | _ => nestedEntries inFile records

def withoutNested : Bool → List ArchiveRecord → List ArchiveRecord
  | _, [] => []
  | inFile, r :: records =>
    match r.type with
    | .fileEntry => r :: withoutNested true records
    | .fileEnd => r :: withoutNested false records
    | .directoryEntry | .symlinkEntry =>
      if inFile then withoutNested inFile records else r :: withoutNested inFile records
    | _ => r :: withoutNested inFile records

/-- A stream that only valid directory or symlink entries inside files keep out of the
grammar. -/
def EntryInsideFile (bytes : Bytes) : Prop :=
  ∃ records, bytes = encodeRecords records ∧ RecordsFit records ∧
    Stream (withoutNested false records) ∧ nestedEntries false records ≠ [] ∧
    ∀ r ∈ nestedEntries false records, IsDirectory r ∨ IsSymlink r

inductive Phase where
  | start
  | outside
  | inFile (missing : Nat)
  | ended
  deriving DecidableEq

def Phase.isInFile : Phase → Bool
  | .inFile _ => true
  | _ => false

/-- One record; `nested` says whether entries pass inside a file. -/
inductive Step (nested : Bool) : Phase → ArchiveRecord → Phase → Prop where
  | archiveBegin {r} : IsBegin r → Step nested .start r .outside
  | directory {r} : IsDirectory r → Step nested .outside r .outside
  | symlink {r} : IsSymlink r → Step nested .outside r .outside
  | fileEntry {r m} : IsFile r m → Step nested .outside r (.inFile m.originalSize.toNat)
  | fileBytes {r n k} : r.type = .fileBytes → n = r.payload.length + k →
      Step nested (.inFile n) r (.inFile k)
  | fileEnd {r n} : r.type = .fileEnd → n = 0 → Step nested (.inFile n) r .outside
  | nestedDirectory {r n} : nested = true → IsDirectory r → Step nested (.inFile n) r (.inFile n)
  | nestedSymlink {r n} : nested = true → IsSymlink r → Step nested (.inFile n) r (.inFile n)
  | archiveEnd {r} : r.type = .archiveEnd → Step nested .outside r .ended
  | padding {r} : r.type = .randomPadding → Step nested .ended r .ended

def Run (nested : Bool) : Phase → List ArchiveRecord → Phase → Prop
  | p, [], q => p = q
  | p, r :: records, q => ∃ middle, Step nested p r middle ∧ Run nested middle records q

/-- What the reader's members say in each phase. -/
inductive Represents {σ : Type} (e : Extraction σ) : Phase → Prop where
  | start (begun : e.archiveBeginSeen = false) (ended : e.archiveEndSeen = false)
      (opened : e.currentFileOpen = false) : Represents e .start
  | outside (begun : e.archiveBeginSeen = true) (ended : e.archiveEndSeen = false)
      (opened : e.currentFileOpen = false) : Represents e .outside
  | inFile (n : Nat) (begun : e.archiveBeginSeen = true) (ended : e.archiveEndSeen = false)
      (opened : e.currentFileOpen = true) (safe : MetadataPath e.currentFileArchivePath)
      (missing : e.currentFileWritten.toNat + n = e.currentFileMetadata.originalSize.toNat) :
      Represents e (.inFile n)
  | ended (begun : e.archiveBeginSeen = true) (ended : e.archiveEndSeen = true)
      (opened : e.currentFileOpen = false) : Represents e .ended

structure ExtractOps.Succeed {σ : Type} (ops : ExtractOps σ) : Prop where
  createDirectories : ∀ path w, ∃ w', exec (ops.createDirectories path) w = (.ok (), w')
  openFile : ∀ path w, ∃ w', exec (ops.openFile path) w = (.ok (), w')
  writeFile : ∀ bytes w, ∃ w', exec (ops.writeFile bytes) w = (.ok (), w')
  closeFile : ∀ w, ∃ w', exec ops.closeFile w = (.ok (), w')
  permissions : ∀ path mode w, ∃ w', exec (ops.permissions path mode) w = (.ok (), w')
  lastWriteTime : ∀ path ns w, ∃ w', exec (ops.lastWriteTime path ns) w = (.ok (), w')
  createSymlink : ∀ target path w, ∃ w', exec (ops.createSymlink target path) w = (.ok (), w')

section Simulation
variable {σ : Type} (ops : ExtractOps σ) (options : ArchiveReaderOptions) (tempRoot : OutPath)
  {e e' : Extraction σ}

theorem Represents.phase_ended {p : Phase} (rep : Represents e p)
    (last : e.archiveEndSeen = true) : p = .ended := by
  cases rep with
  | start _ ended => cases ended.symm.trans last
  | outside _ ended => cases ended.symm.trans last
  | inFile _ _ ended => cases ended.symm.trans last
  | ended => rfl

theorem MetadataRules.safePath {m : EntryMetadata} (rules : MetadataRules m) (root : OutPath) :
    makeSafeOutputPath root m.relativePath =
      .ok (root ++ normalNames (pathComponents m.relativePath)) :=
  if_pos rules.path.2

theorem payload_toNat {payload : Bytes} {n : UInt64} (fits : payload.length ≤ n.toNat) :
    (UInt64.ofNat payload.length).toNat = payload.length :=
  UInt64.toNat_ofNat_of_lt' (fits.trans_lt n.toNat_lt)

theorem writeFileBytes_represents {n : Nat} {bytes : Bytes} (rep : Represents e (.inFile n))
    (done : exec (writeFileBytes ops bytes) e = (.ok (), e')) :
    ∃ k, n = bytes.length + k ∧ Represents e' (.inFile k) := by
  obtain ⟨-, fits, w, -, rfl⟩ := (writeFileBytes_ok ops e e' bytes).mp done
  cases rep with
  | inFile n begun ended opened safe missing =>
    have written : e.currentFileWritten ≤ e.currentFileMetadata.originalSize := by
      rw [UInt64.le_iff_toNat_le]
      omega
    have len := payload_toNat fits
    rw [UInt64.toNat_sub_of_le _ _ written] at fits
    have bound := e.currentFileMetadata.originalSize.toNat_lt
    refine ⟨n - bytes.length, by omega, .inFile _ begun ended opened safe ?_⟩
    simp only
    rw [UInt64.toNat_add, len, Nat.mod_eq_of_lt (by omega)]
    omega

theorem processRecord_sound {p : Phase} {r : ArchiveRecord} (rep : Represents e p)
    (done : exec (processRecord ops options tempRoot r) e = (.ok (), e')) :
    ∃ q, Step true p r q ∧ Represents e' q := by
  unfold processRecord handleRecord at done
  rw [exec_get_bind, exec_throwIf_bind_ok] at done
  obtain ⟨running, done⟩ := done
  cases type : r.type <;> rw [type] at done running <;> simp only at done running
  case archiveBegin =>
    obtain ⟨begun, version, rfl⟩ := (beginArchive_ok _ _ _).mp done
    cases rep with
    | start _ ended opened =>
      exact ⟨.outside, .archiveBegin ⟨type, version⟩, .outside rfl ended opened⟩
    | outside begun' => simp_all
    | inFile n begun' => simp_all
    | ended begun' => simp_all
  case directoryEntry =>
    obtain ⟨m, parsed, made⟩ := (exec_lift_bind_ok _ _ _ _ _).mp done
    obtain ⟨begun, kind, path, safe, w, -, rfl⟩ := (createDirectory_ok ops tempRoot _ _ m).mp made
    have entry : IsDirectory r := ⟨type, m, parsed, kind⟩
    cases rep with
    | start begun' => simp_all
    | outside begun ended opened => exact ⟨.outside, .directory entry, .outside begun ended opened⟩
    | inFile n begun ended opened safe missing =>
      exact ⟨.inFile n, .nestedDirectory rfl entry, .inFile n begun ended opened safe missing⟩
    | ended begun ended => simp_all
  case fileEntry =>
    obtain ⟨m, parsed, opening⟩ := (exec_lift_bind_ok _ _ _ _ _).mp done
    obtain ⟨begun, closed, kind, path, -, w, -, w', -, rfl⟩ :=
      (beginFile_ok ops tempRoot _ _ m).mp opening
    have rules := ((parseEntryMetadata_ok _ _).mp parsed).1
    cases rep with
    | start begun' => simp_all
    | outside begun ended opened =>
      exact ⟨_, .fileEntry ⟨type, parsed, kind⟩,
        .inFile _ begun ended rfl rules.path (Nat.zero_add _)⟩
    | inFile n begun ended opened => simp_all
    | ended begun ended => simp_all
  case fileBytes =>
    have opened := ((writeFileBytes_ok ops _ _ _).mp done).1
    cases rep with
    | start _ _ closed => simp_all
    | outside _ _ closed => simp_all
    | inFile n begun ended opened safe missing =>
      obtain ⟨k, rfl, rep'⟩ :=
        writeFileBytes_represents ops (.inFile n begun ended opened safe missing) done
      exact ⟨.inFile k, .fileBytes type rfl, rep'⟩
    | ended _ ended => simp_all
  case fileEnd =>
    obtain ⟨opened, whole, w, -, path, -, w', -, rfl⟩ :=
      (endFile_ok ops options tempRoot _ _).mp done
    cases rep with
    | start _ _ closed => simp_all
    | outside _ _ closed => simp_all
    | inFile n begun ended opened safe missing =>
      rw [whole] at missing
      obtain rfl : n = 0 := by omega
      exact ⟨.outside, .fileEnd type rfl, .outside begun ended rfl⟩
    | ended _ ended => simp_all
  case symlinkEntry =>
    obtain ⟨m, parsed, made⟩ := (exec_lift_bind_ok _ _ _ _ _).mp done
    obtain ⟨begun, kind, -, target, path, -, w, -, w', -, rfl⟩ :=
      (createSymlink_ok ops options tempRoot _ _ m).mp made
    have entry : IsSymlink r := ⟨type, m, parsed, kind, target⟩
    cases rep with
    | start begun' => simp_all
    | outside begun ended opened => exact ⟨.outside, .symlink entry, .outside begun ended opened⟩
    | inFile n begun ended opened safe missing =>
      exact ⟨.inFile n, .nestedSymlink rfl entry, .inFile n begun ended opened safe missing⟩
    | ended begun ended => simp_all
  case archiveEnd =>
    obtain ⟨begun, closed, rfl⟩ := (endArchive_ok _ _).mp done
    cases rep with
    | start begun' => simp_all
    | outside begun ended opened => exact ⟨.ended, .archiveEnd type, .ended begun rfl opened⟩
    | inFile n begun ended opened => simp_all
    | ended begun ended => simp_all
  case randomPadding =>
    obtain ⟨ended, rfl⟩ := (exec_throwIf_ok _ _ _ _ _).mp done
    cases rep with
    | start _ ended' => simp_all
    | outside _ ended' => simp_all
    | inFile n _ ended' => simp_all
    | ended begun ended opened => exact ⟨.ended, .padding type, .ended begun ended opened⟩

theorem restorePermissions_succeeds (works : ops.Succeed) (path : OutPath) (m : EntryMetadata)
    (e : Extraction σ) :
    ∃ w, exec (restorePermissions ops options path m) e = (.ok (), { e with world := w }) := by
  unfold restorePermissions
  split
  · obtain ⟨w, done⟩ := works.permissions path (bitsToPermissions m.posixMode) e.world
    exact ⟨w, (fileOp_ok _ _ _ _ _).mpr ⟨w, done, rfl⟩⟩
  · exact ⟨e.world, rfl⟩

theorem restoreTimestamps_succeeds (works : ops.Succeed) (path : OutPath) (m : EntryMetadata)
    (e : Extraction σ) :
    ∃ w, exec (restoreTimestamps ops options path m) e = (.ok (), { e with world := w }) := by
  unfold restoreTimestamps
  split
  · obtain ⟨w, done⟩ := works.lastWriteTime path m.times.modifiedNsSinceUnixEpoch e.world
    exact ⟨w, (fileOp_ok _ _ _ _ _).mpr ⟨w, done, rfl⟩⟩
  · exact ⟨e.world, rfl⟩

theorem applyMetadataToPath_succeeds (works : ops.Succeed) (path : OutPath) (m : EntryMetadata)
    (e : Extraction σ) :
    ∃ w, exec (applyMetadataToPath ops options path m) e = (.ok (), { e with world := w }) := by
  obtain ⟨w, perms⟩ := restorePermissions_succeeds ops options works path m e
  obtain ⟨w', times⟩ := restoreTimestamps_succeeds ops options works path m { e with world := w }
  exact ⟨w', (exec_bind_ok _ _ _ _ _).mpr ⟨(), _, perms, times⟩⟩

theorem createDirectory_succeeds (works : ops.Succeed) {m : EntryMetadata}
    (rules : MetadataRules m) (kind : m.kind = .directory) (begun : e.archiveBeginSeen = true) :
    ∃ e', exec (createDirectory ops tempRoot m) e = (.ok (), e') := by
  obtain ⟨w, made⟩ := works.createDirectories
    (tempRoot ++ normalNames (pathComponents m.relativePath)) e.world
  exact ⟨_, (createDirectory_ok ops tempRoot _ _ m).mpr
    ⟨begun, kind, _, rules.safePath tempRoot, w, made, rfl⟩⟩

theorem createSymlink_succeeds (works : ops.Succeed) (links : options.allowSymlinks = true)
    {m : EntryMetadata} (rules : MetadataRules m) (kind : m.kind = .symlink)
    (target : SafeSymlinkTarget m.symlinkTargetUtf8) (begun : e.archiveBeginSeen = true) :
    ∃ e', exec (createSymlink ops options tempRoot m) e = (.ok (), e') := by
  let path : OutPath := tempRoot ++ normalNames (pathComponents m.relativePath)
  obtain ⟨w, made⟩ := works.createDirectories path.parent e.world
  obtain ⟨w', linked⟩ := works.createSymlink m.symlinkTargetUtf8 path w
  exact ⟨_, (createSymlink_ok ops options tempRoot _ _ m).mpr
    ⟨begun, kind, links, target, path, rules.safePath tempRoot, w, made, w', linked, rfl⟩⟩

theorem beginFile_succeeds (works : ops.Succeed) {m : EntryMetadata} (rules : MetadataRules m)
    (kind : m.kind = .regularFile) (begun : e.archiveBeginSeen = true)
    (closed : e.currentFileOpen = false) :
    ∃ e', exec (beginFile ops tempRoot m) e = (.ok (), e') := by
  let path : OutPath := tempRoot ++ normalNames (pathComponents m.relativePath)
  obtain ⟨w, made⟩ := works.createDirectories path.parent e.world
  obtain ⟨w', opened⟩ := works.openFile path w
  exact ⟨_, (beginFile_ok ops tempRoot _ _ m).mpr
    ⟨begun, closed, kind, path, rules.safePath tempRoot, w, made, w', opened, rfl⟩⟩

theorem endFile_succeeds (works : ops.Succeed) (opened : e.currentFileOpen = true)
    (safe : MetadataPath e.currentFileArchivePath)
    (whole : e.currentFileWritten = e.currentFileMetadata.originalSize) :
    ∃ e', exec (endFile ops options tempRoot) e = (.ok (), e') := by
  obtain ⟨w, closed⟩ := works.closeFile e.world
  obtain ⟨w', restored⟩ := applyMetadataToPath_succeeds ops options works
    (tempRoot ++ normalNames (pathComponents e.currentFileArchivePath)) e.currentFileMetadata
    { e with world := w }
  exact ⟨_, (endFile_ok ops options tempRoot _ _).mpr
    ⟨opened, whole, w, closed, _, if_pos safe.2, w', restored, rfl⟩⟩

theorem writeFileBytes_succeeds (works : ops.Succeed) {bytes : Bytes} {n : Nat}
    (rep : Represents e (.inFile (bytes.length + n))) :
    ∃ e', exec (writeFileBytes ops bytes) e = (.ok (), e') := by
  cases rep with
  | inFile _ begun ended opened safe missing =>
    have written : e.currentFileWritten ≤ e.currentFileMetadata.originalSize := by
      rw [UInt64.le_iff_toNat_le]
      omega
    obtain ⟨w, done⟩ := works.writeFile bytes e.world
    refine ⟨_, (writeFileBytes_ok ops _ _ _).mpr ⟨opened, ?_, w, done, rfl⟩⟩
    rw [UInt64.toNat_sub_of_le _ _ written]
    omega

theorem exec_processRecord_running (r : ArchiveRecord) (running : e.archiveEndSeen = false) :
    exec (processRecord ops options tempRoot r) e =
      exec (handleRecord ops options tempRoot false r) e := by
  unfold processRecord
  rw [exec_get_bind, exec_throwIf_bind, if_neg (by simp [running]), running]

theorem processRecord_directory (works : ops.Succeed) {r : ArchiveRecord} (entry : IsDirectory r)
    (begun : e.archiveBeginSeen = true) (running : e.archiveEndSeen = false) :
    ∃ e', exec (processRecord ops options tempRoot r) e = (.ok (), e') := by
  obtain ⟨type, m, parsed, kind⟩ := entry
  have rules := ((parseEntryMetadata_ok _ _).mp parsed).1
  obtain ⟨e', done⟩ := createDirectory_succeeds ops tempRoot works rules kind begun
  refine ⟨e', ?_⟩
  rw [exec_processRecord_running ops options tempRoot r running, handleRecord, type]
  exact (exec_lift_bind_ok _ _ _ _ _).mpr ⟨m, parsed, done⟩

theorem processRecord_symlink (works : ops.Succeed) (links : options.allowSymlinks = true)
    {r : ArchiveRecord} (entry : IsSymlink r) (begun : e.archiveBeginSeen = true)
    (running : e.archiveEndSeen = false) :
    ∃ e', exec (processRecord ops options tempRoot r) e = (.ok (), e') := by
  obtain ⟨type, m, parsed, kind, target⟩ := entry
  have rules := ((parseEntryMetadata_ok _ _).mp parsed).1
  obtain ⟨e', done⟩ := createSymlink_succeeds ops options tempRoot works links rules kind target
    begun
  refine ⟨e', ?_⟩
  rw [exec_processRecord_running ops options tempRoot r running, handleRecord, type]
  exact (exec_lift_bind_ok _ _ _ _ _).mpr ⟨m, parsed, done⟩

/-- With working file operations the reader takes every record the automaton takes. -/
theorem processRecord_complete (works : ops.Succeed) (links : options.allowSymlinks = true)
    {p q : Phase} {r : ArchiveRecord} (rep : Represents e p) (step : Step true p r q) :
    ∃ e', exec (processRecord ops options tempRoot r) e = (.ok (), e') := by
  cases step with
  | archiveBegin first =>
    cases rep with
    | start begun ended opened =>
      refine ⟨{ e with archiveBeginSeen := true }, ?_⟩
      rw [exec_processRecord_running ops options tempRoot r ended, handleRecord, first.1]
      exact (beginArchive_ok _ _ _).mpr ⟨begun, first.2, rfl⟩
  | directory entry =>
    cases rep with
    | outside begun ended opened =>
      exact processRecord_directory ops options tempRoot works entry begun ended
  | symlink entry =>
    cases rep with
    | outside begun ended opened =>
      exact processRecord_symlink ops options tempRoot works links entry begun ended
  | fileEntry entry =>
    cases rep with
    | outside begun ended opened =>
      obtain ⟨type, parsed, kind⟩ := entry
      have rules := ((parseEntryMetadata_ok _ _).mp parsed).1
      obtain ⟨e', done⟩ := beginFile_succeeds ops tempRoot works rules kind begun opened
      refine ⟨e', ?_⟩
      rw [exec_processRecord_running ops options tempRoot r ended, handleRecord, type]
      exact (exec_lift_bind_ok _ _ _ _ _).mpr ⟨_, parsed, done⟩
  | fileBytes type len =>
    obtain ⟨e', done⟩ := writeFileBytes_succeeds ops works (len ▸ rep)
    cases rep with
    | inFile _ begun ended opened =>
      refine ⟨e', ?_⟩
      rw [exec_processRecord_running ops options tempRoot r ended, handleRecord, type]
      exact done
  | fileEnd type none =>
    subst none
    cases rep with
    | inFile _ begun ended opened safe missing =>
      obtain ⟨e', done⟩ := endFile_succeeds ops options tempRoot works opened safe
        (UInt64.toNat_inj.mp missing)
      refine ⟨e', ?_⟩
      rw [exec_processRecord_running ops options tempRoot r ended, handleRecord, type]
      exact done
  | nestedDirectory _ entry =>
    cases rep with
    | inFile _ begun ended opened =>
      exact processRecord_directory ops options tempRoot works entry begun ended
  | nestedSymlink _ entry =>
    cases rep with
    | inFile _ begun ended opened =>
      exact processRecord_symlink ops options tempRoot works links entry begun ended
  | archiveEnd type =>
    cases rep with
    | outside begun ended opened =>
      refine ⟨{ e with archiveEndSeen := true }, ?_⟩
      rw [exec_processRecord_running ops options tempRoot r ended, handleRecord, type]
      exact (endArchive_ok _ _).mpr ⟨begun, opened, rfl⟩
  | padding type =>
    cases rep with
    | ended begun ended opened =>
      refine ⟨e, ?_⟩
      unfold processRecord handleRecord
      rw [exec_get_bind, exec_throwIf_bind_ok, type]
      exact ⟨by simp, (exec_throwIf_ok _ _ _ _ _).mpr ⟨by simp [ended], rfl⟩⟩

theorem processRecords_sound {p : Phase} (records : List ArchiveRecord) (rep : Represents e p)
    (done : exec (processRecords ops options tempRoot records) e = (.ok (), e')) :
    ∃ q, Run true p records q ∧ Represents e' q := by
  induction records generalizing e p with
  | nil =>
    cases done
    exact ⟨p, rfl, rep⟩
  | cons r records ih =>
    obtain ⟨_, middle, first, rest⟩ := (exec_bind_ok _ _ _ _ _).mp done
    obtain ⟨q, step, rep'⟩ := processRecord_sound ops options tempRoot rep first
    obtain ⟨last, run, rep''⟩ := ih rep' rest
    exact ⟨last, ⟨q, step, run⟩, rep''⟩

theorem Step.unique {nested : Bool} {p q q' : Phase} {r : ArchiveRecord}
    (step : Step nested p r q) (step' : Step nested p r q') : q = q' := by
  cases step <;> cases step' <;>
    simp_all [IsBegin, IsDirectory, IsSymlink, IsFile]

theorem processRecords_complete (works : ops.Succeed) (links : options.allowSymlinks = true)
    {p q : Phase} (records : List ArchiveRecord) (rep : Represents e p)
    (run : Run true p records q) :
    ∃ e', exec (processRecords ops options tempRoot records) e = (.ok (), e') ∧
      Represents e' q := by
  induction records generalizing e p with
  | nil =>
    obtain rfl : p = q := run
    exact ⟨e, rfl, rep⟩
  | cons r records ih =>
    obtain ⟨middle, step, run⟩ := run
    obtain ⟨e₁, first⟩ := processRecord_complete ops options tempRoot works links rep step
    obtain ⟨_, step', rep₁⟩ := processRecord_sound ops options tempRoot rep first
    obtain rfl := step.unique step'
    obtain ⟨e₂, rest, rep₂⟩ := ih rep₁ run
    exact ⟨e₂, (exec_bind_ok _ _ _ _ _).mpr ⟨(), e₁, first, rest⟩, rep₂⟩

end Simulation

theorem Run.append {nested : Bool} {p m q : Phase} {front back : List ArchiveRecord}
    (first : Run nested p front m) (rest : Run nested m back q) :
    Run nested p (front ++ back) q := by
  induction front generalizing p with
  | nil =>
    obtain rfl : p = m := first
    exact rest
  | cons r front ih =>
    obtain ⟨middle, step, first⟩ := first
    exact ⟨middle, step, ih first⟩

theorem run_body {n : Nat} {body : List ArchiveRecord} (bytes : ∀ r ∈ body, r.type = .fileBytes)
    (total : payloadBytes body = n) : Run false (.inFile n) body (.inFile 0) := by
  induction body generalizing n with
  | nil => exact congrArg Phase.inFile total.symm
  | cons r body ih =>
    refine ⟨.inFile (payloadBytes body), ?_, ih (fun r' h => bytes r' (List.mem_cons_of_mem _ h))
      rfl⟩
    exact .fileBytes (bytes r List.mem_cons_self) (by rw [← total]; exact List.sum_cons)

theorem Content.run {c : List ArchiveRecord} (content : Content c) :
    Run false .outside c .outside := by
  cases content with
  | directory r entry => exact ⟨.outside, .directory entry, rfl⟩
  | symlink r entry => exact ⟨.outside, .symlink entry, rfl⟩
  | file entry m body last isFile bytes total type =>
    refine ⟨_, .fileEntry isFile, (run_body bytes total).append ?_⟩
    exact ⟨.outside, .fileEnd type rfl, rfl⟩

theorem run_inFile {n : Nat} {records : List ArchiveRecord}
    (run : Run false (.inFile n) records .ended) :
    ∃ body last rest, records = body ++ last :: rest ∧ (∀ r ∈ body, r.type = .fileBytes) ∧
      payloadBytes body = n ∧ last.type = .fileEnd ∧ Run false .outside rest .ended := by
  induction records generalizing n with
  | nil => cases run
  | cons r records ih =>
    obtain ⟨middle, step, run⟩ := run
    cases step with
    | fileBytes type len =>
      obtain ⟨body, last, rest, rfl, bytes, total, lastType, run⟩ := ih run
      refine ⟨r :: body, last, rest, rfl, ?_, ?_, lastType, run⟩
      · intro r' member
        rcases List.mem_cons.mp member with rfl | member
        · exact type
        · exact bytes r' member
      · rw [len, ← total]
        exact List.sum_cons
    | fileEnd type none =>
      exact ⟨[], r, records, rfl, fun _ h => absurd h List.not_mem_nil, none.symm, type, run⟩
    | nestedDirectory nested => cases nested
    | nestedSymlink nested => cases nested

theorem run_ended_iff {nested : Bool} {records : List ArchiveRecord} :
    Run nested .ended records .ended ↔ ∀ p ∈ records, p.type = .randomPadding := by
  induction records with
  | nil => exact ⟨fun _ _ h => absurd h List.not_mem_nil, fun _ => rfl⟩
  | cons r records ih =>
    rw [List.forall_mem_cons, ← ih]
    constructor
    · rintro ⟨middle, step, run⟩
      cases step with
      | padding type => exact ⟨type, run⟩
    · rintro ⟨type, run⟩
      exact ⟨.ended, .padding type, run⟩

theorem run_outside {records : List ArchiveRecord} (run : Run false .outside records .ended) :
    ∃ (contents : List (List ArchiveRecord)) (last : ArchiveRecord) (pads : List ArchiveRecord),
      records = contents.flatten ++ last :: pads ∧ (∀ c ∈ contents, Content c) ∧
      last.type = .archiveEnd ∧ ∀ p ∈ pads, p.type = .randomPadding := by
  obtain ⟨n, len⟩ : ∃ n, records.length ≤ n := ⟨_, le_rfl⟩
  induction n generalizing records with
  | zero =>
    cases records with
    | nil => cases run
    | cons r records => exact absurd len (by simp)
  | succ n ih =>
    cases records with
    | nil => cases run
    | cons r records =>
      rw [List.length_cons] at len
      have prepend : ∀ {c rest : List ArchiveRecord}, Content c → r :: records = c ++ rest →
          rest.length ≤ n → Run false .outside rest .ended →
          ∃ (contents : List (List ArchiveRecord)) (last : ArchiveRecord)
            (pads : List ArchiveRecord),
            r :: records = contents.flatten ++ last :: pads ∧ (∀ c ∈ contents, Content c) ∧
            last.type = .archiveEnd ∧ ∀ p ∈ pads, p.type = .randomPadding := by
        intro c rest content split short run
        obtain ⟨contents, last, pads, rfl, all, type, padding⟩ := ih run short
        refine ⟨c :: contents, last, pads, ?_, List.forall_mem_cons.mpr ⟨content, all⟩, type,
          padding⟩
        rw [split, List.flatten_cons, List.append_assoc]
      obtain ⟨middle, step, run⟩ := run
      cases step with
      | directory entry => exact prepend (.directory r entry) rfl (by omega) run
      | symlink entry => exact prepend (.symlink r entry) rfl (by omega) run
      | fileEntry entry =>
        obtain ⟨body, last, rest, rfl, bytes, total, type, run⟩ := run_inFile run
        refine prepend (.file r _ body last entry bytes total type) ?_ ?_ run
        · simp
        · rw [List.length_append, List.length_cons] at len
          omega
      | archiveEnd type =>
        exact ⟨[], r, records, rfl, fun _ h => absurd h List.not_mem_nil, type,
          run_ended_iff.mp run⟩

/-- The grammar's streams are the strict automaton's accepting runs. -/
theorem stream_iff_run {records : List ArchiveRecord} :
    Stream records ↔ Run false .start records .ended := by
  constructor
  · rintro ⟨first, contents, last, pads, begins, all, type, padding⟩
    refine ⟨.outside, .archiveBegin begins, ?_⟩
    have final : Run false .outside (last :: pads) .ended :=
      ⟨.ended, .archiveEnd type, run_ended_iff.mpr padding⟩
    have body : Run false .outside contents.flatten .outside := by
      induction contents with
      | nil => rfl
      | cons c contents ih =>
        obtain ⟨content, all⟩ := List.forall_mem_cons.mp all
        exact content.run.append (ih all)
    exact body.append final
  · intro run
    cases records with
    | nil => cases run
    | cons first records =>
      obtain ⟨middle, step, run⟩ := run
      cases step with
      | archiveBegin begins =>
        obtain ⟨contents, last, pads, rfl, all, type, padding⟩ := run_outside run
        exact .mk first contents last pads begins all type padding

theorem Step.of_strict {p q : Phase} {r : ArchiveRecord} (step : Step false p r q) :
    Step true p r q := by
  cases step with
  | archiveBegin entry => exact .archiveBegin entry
  | directory entry => exact .directory entry
  | symlink entry => exact .symlink entry
  | fileEntry entry => exact .fileEntry entry
  | fileBytes type len => exact .fileBytes type len
  | fileEnd type none => exact .fileEnd type none
  | nestedDirectory nested => cases nested
  | nestedSymlink nested => cases nested
  | archiveEnd type => exact .archiveEnd type
  | padding type => exact .padding type

theorem Step.strict_or_nested {p q : Phase} {r : ArchiveRecord} (step : Step true p r q) :
    Step false p r q ∨ p.isInFile = true ∧ q = p ∧ (IsDirectory r ∨ IsSymlink r) := by
  cases step with
  | archiveBegin entry => exact .inl (.archiveBegin entry)
  | directory entry => exact .inl (.directory entry)
  | symlink entry => exact .inl (.symlink entry)
  | fileEntry entry => exact .inl (.fileEntry entry)
  | fileBytes type len => exact .inl (.fileBytes type len)
  | fileEnd type none => exact .inl (.fileEnd type none)
  | nestedDirectory _ entry => exact .inr ⟨rfl, rfl, .inl entry⟩
  | nestedSymlink _ entry => exact .inr ⟨rfl, rfl, .inr entry⟩
  | archiveEnd type => exact .inl (.archiveEnd type)
  | padding type => exact .inl (.padding type)

theorem Step.nested {p : Phase} {r : ArchiveRecord} (inFile : p.isInFile = true)
    (entry : IsDirectory r ∨ IsSymlink r) : Step true p r p := by
  cases p with
  | inFile n =>
    rcases entry with entry | entry
    · exact .nestedDirectory rfl entry
    · exact .nestedSymlink rfl entry
  | start => cases inFile
  | outside => cases inFile
  | ended => cases inFile

theorem Step.kept {p q : Phase} {r : ArchiveRecord} (step : Step false p r q)
    (records : List ArchiveRecord) :
    withoutNested p.isInFile (r :: records) = r :: withoutNested q.isInFile records ∧
      nestedEntries p.isInFile (r :: records) = nestedEntries q.isInFile records := by
  cases step with
  | archiveBegin entry => simp [withoutNested, nestedEntries, entry.1, Phase.isInFile]
  | directory entry => simp [withoutNested, nestedEntries, entry.1, Phase.isInFile]
  | symlink entry => simp [withoutNested, nestedEntries, entry.1, Phase.isInFile]
  | fileEntry entry => simp [withoutNested, nestedEntries, entry.1, Phase.isInFile]
  | fileBytes type => simp [withoutNested, nestedEntries, type, Phase.isInFile]
  | fileEnd type => simp [withoutNested, nestedEntries, type, Phase.isInFile]
  | nestedDirectory nested => cases nested
  | nestedSymlink nested => cases nested
  | archiveEnd type => simp [withoutNested, nestedEntries, type, Phase.isInFile]
  | padding type => simp [withoutNested, nestedEntries, type, Phase.isInFile]

theorem nested_dropped {r : ArchiveRecord} (entry : IsDirectory r ∨ IsSymlink r)
    (records : List ArchiveRecord) :
    withoutNested true (r :: records) = withoutNested true records ∧
      nestedEntries true (r :: records) = r :: nestedEntries true records := by
  rcases entry with entry | entry <;> simp [withoutNested, nestedEntries, entry.1]

theorem withoutNested_head (inFile : Bool) (r : ArchiveRecord) (records : List ArchiveRecord) :
    (∃ rest, withoutNested inFile (r :: records) = r :: rest) ∨
      inFile = true ∧ r ∈ nestedEntries inFile (r :: records) := by
  cases inFile <;> cases type : r.type <;> simp [withoutNested, nestedEntries, type]

theorem withoutNested_of_none {inFile : Bool} {records : List ArchiveRecord}
    (none : nestedEntries inFile records = []) : withoutNested inFile records = records := by
  induction records generalizing inFile with
  | nil => rfl
  | cons r records ih =>
    cases inFile <;> cases type : r.type <;>
      simp_all [withoutNested, nestedEntries]

/-- Leaving the nested entries out turns a run of the reader into a strict one. -/
theorem run_nested_iff {p q : Phase} {records : List ArchiveRecord} :
    Run true p records q ↔
      Run false p (withoutNested p.isInFile records) q ∧
        ∀ r ∈ nestedEntries p.isInFile records, IsDirectory r ∨ IsSymlink r := by
  induction records generalizing p with
  | nil => simp [Run, withoutNested, nestedEntries]
  | cons r records ih =>
    constructor
    · rintro ⟨middle, step, run⟩
      obtain ⟨run, valid⟩ := ih.mp run
      rcases step.strict_or_nested with strict | ⟨inFile, rfl, entry⟩
      · obtain ⟨kept, same⟩ := strict.kept records
        rw [kept, same]
        exact ⟨⟨middle, strict, run⟩, valid⟩
      · rw [inFile] at run valid ⊢
        obtain ⟨dropped, more⟩ := nested_dropped entry records
        rw [dropped, more]
        exact ⟨run, List.forall_mem_cons.mpr ⟨entry, valid⟩⟩
    · rintro ⟨run, valid⟩
      rcases withoutNested_head p.isInFile r records with ⟨rest, head⟩ | ⟨inFile, member⟩
      · rw [head] at run
        obtain ⟨middle, strict, run⟩ := run
        obtain ⟨kept, same⟩ := strict.kept records
        obtain rfl : rest = withoutNested middle.isInFile records :=
          (List.cons.inj (head.symm.trans kept)).2
        rw [same] at valid
        exact ⟨middle, strict.of_strict, ih.mpr ⟨run, valid⟩⟩
      · have entry := valid r member
        obtain ⟨dropped, more⟩ := nested_dropped entry records
        refine ⟨p, .nested inFile entry, ih.mpr ?_⟩
        rw [inFile] at run valid ⊢
        rw [dropped] at run
        rw [more] at valid
        exact ⟨run, (List.forall_mem_cons.mp valid).2⟩

theorem run_strict_nested {p q : Phase} {records : List ArchiveRecord}
    (run : Run false p records q) :
    withoutNested p.isInFile records = records ∧ nestedEntries p.isInFile records = [] := by
  induction records generalizing p with
  | nil => exact ⟨rfl, rfl⟩
  | cons r records ih =>
    obtain ⟨middle, step, run⟩ := run
    obtain ⟨kept, same⟩ := step.kept records
    obtain ⟨whole, none⟩ := ih run
    rw [kept, same, whole, none]
    exact ⟨rfl, rfl⟩

section Acceptance
variable {σ : Type} (ops : ExtractOps σ) (options : ArchiveReaderOptions) (tempRoot : OutPath)

/-- A fresh reader consumes the whole stream and then passes the checks of `finish`. -/
def Accepts (world : σ) (bytes : Bytes) : Prop :=
  ∃ r, exec (consume ops options tempRoot bytes) (.initial world) = (.ok (), r) ∧
    finishChecks r = .ok ()

theorem finishChecks_ok (r : ArchiveReader σ) :
    finishChecks r = .ok () ↔ r.pending = [] ∧ r.extraction.archiveBeginSeen = true ∧
      r.extraction.archiveEndSeen = true ∧ r.extraction.currentFileOpen = false := by
  unfold finishChecks
  split_ifs <;> simp_all

theorem accepts_iff_run (works : ops.Succeed) (links : options.allowSymlinks = true) (world : σ)
    (bytes : Bytes) :
    Accepts ops options tempRoot world bytes ↔
      ∃ records, bytes = encodeRecords records ∧ RecordsFit records ∧
        Run true .start records .ended := by
  have fresh : Represents (Extraction.initial world) .start := .start rfl rfl rfl
  have loop : exec (consume ops options tempRoot bytes) (.initial world) =
      exec (consumeRecords ops options tempRoot (bytes.length + 1))
        ⟨bytes, false, .initial world⟩ := by
    unfold consume
    rw [exec_get_bind, exec_throwIf_bind, if_neg (by simp [ArchiveReader.initial]),
      exec_bind_of_ok (exec_modify _ _)]
    simp [ArchiveReader.initial]
  unfold Accepts
  rw [loop]
  constructor
  · rintro ⟨r, done, checked⟩
    obtain ⟨empty, -, ended, -⟩ := (finishChecks_ok r).mp checked
    obtain ⟨records, rest, split, fit, -, ran, same⟩ :=
      consumeRecords_ok ops options tempRoot (bytes.length + 1) ⟨bytes, false, .initial world⟩ r
        (Nat.lt_succ_self _) done
    rw [same] at empty
    obtain rfl : rest = [] := empty
    obtain ⟨q, run, rep⟩ := processRecords_sound ops options tempRoot records fresh ran
    exact ⟨records, split.trans (List.append_nil _), fit, rep.phase_ended ended ▸ run⟩
  · rintro ⟨records, rfl, fit, run⟩
    obtain ⟨e, ran, rep⟩ :=
      processRecords_complete ops options tempRoot works links records fresh run
    refine ⟨⟨[], false, e⟩, ?_, ?_⟩
    · rw [consumeRecords_append ops options tempRoot records [] _ 1
        ⟨encodeRecords records, false, .initial world⟩ e fit (List.append_nil _).symm
        (Nat.lt_succ_self _) Nat.one_pos ran]
      exact consumeRecords_incomplete ops options tempRoot 0 _ rfl
    · rw [finishChecks_ok]
      cases rep with
      | ended begun ended opened => exact ⟨rfl, begun, ended, opened⟩

/-- The reader accepts exactly the grammar, except where an entry stands inside a file. -/
theorem accepts_iff_grammar_iff (works : ops.Succeed) (links : options.allowSymlinks = true)
    (world : σ) (bytes : Bytes) :
    (Accepts ops options tempRoot world bytes ↔ ArchiveGrammar bytes) ↔
      ¬EntryInsideFile bytes := by
  rw [accepts_iff_run ops options tempRoot works links world bytes]
  constructor
  · rintro same ⟨records, rfl, fit, stream, nested, valid⟩
    obtain ⟨others, encoded, fit', strict⟩ := same.mp
      ⟨records, rfl, fit, run_nested_iff.mpr ⟨stream_iff_run.mp stream, valid⟩⟩
    obtain rfl := encodeRecords_injective fit fit' encoded
    exact nested (run_strict_nested (stream_iff_run.mp strict)).2
  · intro outside
    constructor
    · rintro ⟨records, rfl, fit, run⟩
      obtain ⟨strict, valid⟩ := run_nested_iff.mp run
      have none : nestedEntries false records = [] := by
        by_contra nested
        exact outside ⟨records, rfl, fit, stream_iff_run.mpr strict, nested, valid⟩
      change Run false .start (withoutNested false records) .ended at strict
      rw [withoutNested_of_none none] at strict
      exact ⟨records, rfl, fit, stream_iff_run.mpr strict⟩
    · rintro ⟨records, rfl, fit, stream⟩
      have run := stream_iff_run.mp stream
      obtain ⟨whole, none⟩ := run_strict_nested run
      refine ⟨records, rfl, fit, run_nested_iff.mpr ⟨?_, ?_⟩⟩
      · rwa [whole]
      · rw [none]
        exact fun _ h => absurd h List.not_mem_nil

end Acceptance

def quietOps : ExtractOps Unit where
  createDirectories _ := pure ()
  openFile _ := pure ()
  writeFile _ := pure ()
  closeFile := pure ()
  permissions _ _ := pure ()
  lastWriteTime _ _ := pure ()
  createSymlink _ _ := pure ()

theorem quietOps_succeed : quietOps.Succeed :=
  ⟨fun _ _ => ⟨(), rfl⟩, fun _ _ => ⟨(), rfl⟩, fun _ _ => ⟨(), rfl⟩, fun _ => ⟨(), rfl⟩,
    fun _ _ _ => ⟨(), rfl⟩, fun _ _ _ => ⟨(), rfl⟩, fun _ _ _ => ⟨(), rfl⟩⟩

def linksOptions : ArchiveReaderOptions where
  outputRoot := [ascii "out"]
  overwriteExisting := false
  restoreTimestamps := true
  restorePermissions := true
  allowSymlinks := true
  hardenedExtractMode := .auto
  durabilityMode := .off

def entryNamed (kind : EntryKind) (name : String) : EntryMetadata :=
  ⟨kind, ascii name, 0, 0o755, ⟨0, none, none⟩, []⟩

def beginRecord : ArchiveRecord := ⟨.archiveBegin, ByteCodec.toLE 4 1⟩

def fileInParts : List ArchiveRecord :=
  [beginRecord, ⟨.directoryEntry, encodeEntryMetadata (entryNamed .directory "d")⟩,
    ⟨.fileEntry, encodeEntryMetadata { entryNamed .regularFile "a" with originalSize := 3 }⟩,
    ⟨.fileBytes, [1, 2]⟩, ⟨.fileBytes, [3]⟩, ⟨.fileEnd, []⟩, ⟨.archiveEnd, []⟩,
    ⟨.randomPadding, [0, 0]⟩]

theorem accepts_iff_grammar_iff_fileInParts :
    Accepts quietOps linksOptions [ascii "tmp"] () (encodeRecords fileInParts) ∧
      ArchiveGrammar (encodeRecords fileInParts) := by
  have fit : RecordsFit fileInParts := by decide
  have dir : IsDirectory ⟨.directoryEntry, encodeEntryMetadata (entryNamed .directory "d")⟩ :=
    ⟨rfl, _, (parseEntryMetadata_ok _ _).mpr
      ⟨⟨by decide, by decide, by decide, by decide, by decide⟩, rfl⟩, rfl⟩
  have file : IsFile ⟨.fileEntry, encodeEntryMetadata
      { entryNamed .regularFile "a" with originalSize := 3 }⟩
      { entryNamed .regularFile "a" with originalSize := 3 } :=
    ⟨rfl, (parseEntryMetadata_ok _ _).mpr
      ⟨⟨by decide, by decide, by decide, by decide, by decide⟩, rfl⟩, rfl⟩
  have stream : Stream fileInParts := by
    refine .mk beginRecord [[_], _ :: [⟨.fileBytes, [1, 2]⟩, ⟨.fileBytes, [3]⟩] ++ [⟨.fileEnd, []⟩]]
      ⟨.archiveEnd, []⟩ [⟨.randomPadding, [0, 0]⟩] ⟨rfl, rfl⟩ ?_ rfl (by simp)
    intro content member
    rcases List.mem_pair.mp member with rfl | rfl
    · exact .directory _ dir
    · exact .file _ _ _ _ file (by simp) rfl rfl
  have grammar : ArchiveGrammar (encodeRecords fileInParts) := ⟨fileInParts, rfl, fit, stream⟩
  have outside : ¬EntryInsideFile (encodeRecords fileInParts) := by
    rintro ⟨records, encoded, fit', -, nested, -⟩
    obtain rfl := encodeRecords_injective fit fit' encoded
    exact nested (by decide)
  exact ⟨((accepts_iff_grammar_iff quietOps linksOptions [ascii "tmp"] quietOps_succeed rfl ()
    _).mpr outside).mpr grammar, grammar⟩

def directoryInFile : List ArchiveRecord :=
  [beginRecord, ⟨.fileEntry, encodeEntryMetadata (entryNamed .regularFile "a")⟩,
    ⟨.directoryEntry, encodeEntryMetadata (entryNamed .directory "b")⟩, ⟨.fileEnd, []⟩,
    ⟨.archiveEnd, []⟩]

theorem directoryInFile_accepted :
    Accepts quietOps linksOptions [ascii "tmp"] () (encodeRecords directoryInFile) ∧
      ¬ArchiveGrammar (encodeRecords directoryInFile) := by
  have file : parseEntryMetadata (encodeEntryMetadata (entryNamed .regularFile "a")) =
      .ok (entryNamed .regularFile "a") :=
    (parseEntryMetadata_ok _ _).mpr ⟨⟨by decide, by decide, by decide, by decide, by decide⟩, rfl⟩
  have dir : parseEntryMetadata (encodeEntryMetadata (entryNamed .directory "b")) =
      .ok (entryNamed .directory "b") :=
    (parseEntryMetadata_ok _ _).mpr ⟨⟨by decide, by decide, by decide, by decide, by decide⟩, rfl⟩
  have fit : RecordsFit directoryInFile := by decide
  constructor
  · rw [accepts_iff_run quietOps linksOptions _ quietOps_succeed rfl]
    refine ⟨directoryInFile, rfl, fit, .outside, .archiveBegin ⟨rfl, rfl⟩, ?_⟩
    have entry : IsFile ⟨.fileEntry, encodeEntryMetadata (entryNamed .regularFile "a")⟩
        (entryNamed .regularFile "a") := ⟨rfl, file, rfl⟩
    refine ⟨.inFile 0, .fileEntry entry, .inFile 0, ?_⟩
    refine ⟨.nestedDirectory rfl ⟨rfl, _, dir, rfl⟩, .outside, .fileEnd rfl rfl, ?_⟩
    exact ⟨.ended, .archiveEnd rfl, rfl⟩
  · rintro ⟨records, encoded, fit', stream⟩
    obtain rfl := encodeRecords_injective fit fit' encoded
    have nested := (run_strict_nested (stream_iff_run.mp stream)).2
    exact absurd nested (by decide)

end Bseal.Archive
