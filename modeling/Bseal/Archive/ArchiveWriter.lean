import Bseal.Archive.FileSystem
import Bseal.Archive.Metadata
import Mathlib.Data.List.Sort

/-! `archive/ArchiveWriter`: the walk of the input tree, the metadata of an entry, the size
planned for the stream and the stream itself, one record a call. -/
namespace Bseal.Archive
open Effect FileTree

/-- An offset in a file fits in `off_t`. -/
abbrev FileContent := { content : Bytes // content.length < 2 ^ 63 }

inductive FileBody where
  | regular (content : FileContent)
  | special

/-- The permission bits, and the modification time where it can be read. -/
structure Stat where
  mode : UInt32
  modified : Option Int64

abbrev SourceNode := Node FileBody Stat Bytes

/-- How far the entries of a directory can be read: to the end, or up to an error after so many
of them. Only behind a denied permission is the rest of the tree still read. -/
inductive DirReading where
  | whole
  | denied (count : Nat)
  | failed (count : Nat)

namespace DirReading

def entries : DirReading → List FileName → List FileName
  | whole, names => names
  | denied count, names => names.take count
  | failed count, names => names.take count

def ends : DirReading → Bool
  | failed _ => true
  | _ => false

end DirReading

/-- The tree that is read, with the order in which its directories list their entries and how far
they can be read. -/
structure SourceTree where
  tree : Tree FileName FileBody Stat Bytes
  listing : List FileName → List FileName
  reading : List FileName → DirReading
  listed : ∀ d n, n ∈ listing d ↔ tree.node (d ++ [n]) ≠ none
  nodup : ∀ d, (listing d).Nodup
  height : Nat
  bounded : ∀ p, tree.node p ≠ none → p.length ≤ height

structure ArchiveWriterOptions where
  inputRoot : OutPath
  chunkPlainSize : UInt64
  preserveTimestamps : Bool
  preservePermissions : Bool
  includeSymlinks : Bool

inductive EntryType where
  | directory
  | regular
  | symlink
  | special
  deriving DecidableEq

def SourceNode.type : SourceNode → EntryType
  | .dir _ => .directory
  | .file _ (.regular _) => .regular
  | .file _ .special => .special
  | .link _ => .symlink

structure DirectoryEntry where
  path : List FileName
  type : EntryType
  deriving DecidableEq

/-- The state of an input stream. Once it is not good it reads no more. -/
inductive StreamState where
  | good
  | eof
  | bad
  deriving DecidableEq

structure ArchiveWriter where
  options : ArchiveWriterOptions
  root : List FileName
  entries : List DirectoryEntry
  entryIndex : Nat
  emittedBegin : Bool
  emittedEnd : Bool
  currentFileOpen : Bool
  position : Nat
  stream : StreamState
  fileBytesPayloadSize : Nat
  trailingPaddingRecord : Option Bytes
  trailingPaddingEmitted : Bool
  currentFilePath : List FileName
  currentFileExpectedBytes : UInt64
  currentFileBytesRead : UInt64
  bytesProduced : UInt64

namespace SourceTree
variable (t : SourceTree)

def walk : Nat → List FileName → List (List FileName)
  | 0, _ => []
  | fuel + 1, d => (t.listing d).flatMap fun n =>
    (d ++ [n]) :: if t.tree.IsDir (d ++ [n]) then walk fuel (d ++ [n]) else []

/-- One name after the other, until an error ends the iteration. -/
def inTurn (visit : FileName → List (List FileName) × Bool) :
    List FileName → List (List FileName) × Bool
  | [] => ([], false)
  | n :: names =>
    if (visit n).2 then visit n
    else ((visit n).1 ++ (inTurn visit names).1, (inTurn visit names).2)

/-- The loop over a `recursive_directory_iterator`, and whether an error has ended it: `increment`
then leaves the end iterator behind, so the loop's own check is not reached. The iterator does not
go through links. -/
def iterate : Nat → List FileName → List (List FileName) × Bool
  | 0, _ => ([], false)
  | fuel + 1, d =>
    let found := inTurn (fun n =>
      if t.tree.IsDir (d ++ [n]) then
        ((d ++ [n]) :: (iterate fuel (d ++ [n])).1, (iterate fuel (d ++ [n])).2)
      else ([d ++ [n]], false)) ((t.reading d).entries (t.listing d))
    (found.1, found.2 || (t.reading d).ends)

def entryAt (p : List FileName) : Option DirectoryEntry :=
  (t.tree.node p).map fun x => ⟨p, SourceNode.type x⟩

def flat (stat : Stat) (leaves : List (FileName × SourceNode))
    (once : (leaves.map Prod.fst).Nodup) : SourceTree where
  tree :=
    { node := fun p => match p with
        | [] => some (.dir stat)
        | [n] => leaves.lookup n
        | _ => none
      root := ⟨stat, rfl⟩
      closed := by
        intro p n there
        rcases p with _ | ⟨a, _ | ⟨b, p⟩⟩
        · exact ⟨stat, rfl⟩
        · exact absurd rfl there
        · exact absurd rfl there }
  listing d := if d.isEmpty then leaves.map Prod.fst else []
  reading _ := .whole
  listed := by
    intro d n
    rcases d with _ | ⟨a, _ | ⟨b, d⟩⟩
    · change n ∈ leaves.map Prod.fst ↔ leaves.lookup n ≠ none
      rw [ne_eq, List.lookup_eq_none_iff, List.mem_map]
      push Not
      exact exists_congr fun leaf => and_congr_right fun _ => by
        simp only [bne_iff_ne, ne_eq, not_not]
        exact eq_comm
    · exact iff_of_false List.not_mem_nil fun there => there rfl
    · exact iff_of_false List.not_mem_nil fun there => there rfl
  nodup := by
    intro d
    split
    · exact once
    · exact List.nodup_nil
  height := 1
  bounded := by
    intro p there
    rcases p with _ | ⟨a, _ | ⟨b, p⟩⟩
    · exact Nat.zero_le 1
    · exact Nat.le_refl 1
    · exact absurd rfl there

end SourceTree

def clampPayloadSize (chunkPlainSize : UInt64) : Nat :=
  min (max (chunkPlainSize.toNat / 4) (64 * 1024)) (1024 * 1024)

def relativeText (names : OutPath) : Bytes := [slash].intercalate names

/-- `relative(path, input_root).generic_string()`. -/
def sortKey (t : SourceTree) (root : List FileName) (e : DirectoryEntry) : Result Bytes :=
  match relativeTo t.tree (below e.path []) (below root []) with
  | .error message => .error (.filesystemError message)
  | .ok names => .ok (relativeText names)

/-- `operator<` of `std::string`, on unsigned bytes, turned round. -/
def KeyLe (a b : Bytes × DirectoryEntry) : Prop := a.1 ≤ b.1

instance : DecidableRel KeyLe := fun a b => inferInstanceAs (Decidable (a.1 ≤ b.1))

section Construct
variable (t : SourceTree) (options : ArchiveWriterOptions)

/-- The entries that the constructor keeps, in the order of the walk. -/
def walkedEntries (root : List FileName) : List DirectoryEntry :=
  ((t.iterate (t.height + 1) root).1.filterMap t.entryAt).filter fun e =>
    !(e.type == .symlink && !options.includeSymlinks)

def withKeys (root : List FileName) : List DirectoryEntry → Result (List (Bytes × DirectoryEntry))
  | [] => .ok []
  | e :: entries => do
    let key ← sortKey t root e
    let keyed ← withKeys root entries
    pure ((key, e) :: keyed)

/-- The sort; its comparison throws where `relative` does. Less than two entries are not
compared. -/
def sortEntries (root : List FileName) (entries : List DirectoryEntry) :
    Result (List DirectoryEntry) :=
  if entries.length < 2 then .ok entries
  else do
    let keyed ← withKeys t root entries
    pure ((keyed.insertionSort KeyLe).map Prod.snd)

def ArchiveWriter.initial (root : List FileName) (entries : List DirectoryEntry) :
    ArchiveWriter where
  options := options
  root := root
  entries := entries
  entryIndex := 0
  emittedBegin := false
  emittedEnd := false
  currentFileOpen := false
  position := 0
  stream := .good
  fileBytesPayloadSize := clampPayloadSize options.chunkPlainSize
  trailingPaddingRecord := none
  trailingPaddingEmitted := false
  currentFilePath := []
  currentFileExpectedBytes := 0
  currentFileBytesRead := 0
  bytesProduced := 0

/-- The constructor. The canonical input root is the physical path it leads to. -/
def ArchiveWriter.construct : Result ArchiveWriter :=
  match lookup t.tree true options.inputRoot with
  | .found root =>
    if t.tree.IsDir root then do
      let entries ← sortEntries t root (walkedEntries t options root)
      pure (.initial options root entries)
    else .error (.invalidArgument "ArchiveWriter input root is not a directory")
  | .missing _ _ | .notFound =>
    .error (.invalidArgument "ArchiveWriter input root is not a directory")
  | .failed => .error (.invalidArgument ("cannot canonicalize input root: " ++ eloop))

end Construct

def nodeAt (t : SourceTree) (path : List FileName) : Option SourceNode :=
  match lookup t.tree false (below path []) with
  | .found p => t.tree.node p
  | _ => none

def permissionsToBits (mode : UInt32) : UInt32 := mode &&& 0o7777

/-- The permissions of a link, which nothing sets. -/
def linkMode : UInt32 := 0o777

def nodeMetadata (options : ArchiveWriterOptions) (relative : Bytes) :
    SourceNode → Result EntryMetadata
  | .link target => .ok ⟨.symlink, relative, 0,
      if options.preservePermissions then permissionsToBits linkMode else 0, ⟨0, none, none⟩,
      genericString target⟩
  | .dir stat => .ok ⟨.directory, relative, 0,
      if options.preservePermissions then permissionsToBits stat.mode else 0,
      ⟨if options.preserveTimestamps then stat.modified.getD 0 else 0, none, none⟩, []⟩
  | .file stat (.regular content) => .ok ⟨.regularFile, relative, .ofNat content.1.length,
      if options.preservePermissions then permissionsToBits stat.mode else 0,
      ⟨if options.preserveTimestamps then stat.modified.getD 0 else 0, none, none⟩, []⟩
  | .file _ .special => .error (.invalidArgument "unsupported filesystem entry type")

namespace ArchiveWriter
variable (w : ArchiveWriter) (t : SourceTree)

/-- `metadata_for`. What `relative` returns is in normal form. -/
def metadataFor (e : DirectoryEntry) : Result EntryMetadata :=
  match relativeTo t.tree (below e.path []) (below w.root []) with
  | .error message =>
    .error (.invalidArgument ("cannot compute relative archive path: " ++ message))
  | .ok names =>
    if ¬MetadataPath (relativeText names) then
      .error (.invalidArgument "input path produced unsafe archive path")
    else
      match nodeAt t e.path with
      | none => .error (.invalidArgument ("cannot read entry status: " ++ enoent))
      | some x => nodeMetadata w.options (relativeText names) x

theorem metadataFor_ok (e : DirectoryEntry) (m : EntryMetadata) :
    w.metadataFor t e = .ok m ↔ ∃ names x,
      relativeTo t.tree (below e.path []) (below w.root []) = .ok names ∧
        MetadataPath (relativeText names) ∧ nodeAt t e.path = some x ∧
        nodeMetadata w.options (relativeText names) x = .ok m := by
  unfold metadataFor
  rcases relativeTo t.tree (below e.path []) (below w.root []) with message | names
  · simp
  · simp only [Result.guard_eq_ok, not_not, Except.ok.injEq]
    rcases nodeAt t e.path with _ | x
    · simp
    · simp

def blockSize : UInt64 := .ofNat w.fileBytesPayloadSize

def planEntry (total : UInt64) (e : DirectoryEntry) : Result UInt64 :=
  let prefixSize : UInt64 := .ofNat kRecordPrefixSize
  match e.type with
  | .symlink =>
    if w.options.includeSymlinks = false then .ok total
    else do
      let m ← w.metadataFor t e
      let payload ← serializeEntryMetadata m
      pure (total + (prefixSize + .ofNat payload.length))
  | .directory => do
    let m ← w.metadataFor t e
    let payload ← serializeEntryMetadata m
    pure (total + (prefixSize + .ofNat payload.length))
  | .regular => do
    let m ← w.metadataFor t e
    let payload ← serializeEntryMetadata m
    let total := total + (prefixSize + .ofNat payload.length)
    let fileSize := m.originalSize
    let total :=
      if fileSize > 0 then
        let nRecords := (fileSize + w.blockSize - 1) / w.blockSize
        total + (nRecords * prefixSize + fileSize)
      else total
    pure (total + prefixSize)
  | .special => .ok total

def planEntries (total : UInt64) : List DirectoryEntry → Result UInt64
  | [] => .ok total
  | e :: entries => do
    let total ← w.planEntry t total e
    planEntries total entries

def planPlaintextSize : Result UInt64 := do
  let total ← w.planEntries t (.ofNat kRecordPrefixSize + 4) w.entries
  pure (total + .ofNat kRecordPrefixSize)

def setTrailingPaddingRecord (recordBytes : Bytes) : ArchiveWriter :=
  { w with trailingPaddingRecord := some recordBytes, trailingPaddingEmitted := false }

end ArchiveWriter

/-- What a call meets: the tree as it stands, and whether opening or reading a file fails. -/
structure Moment where
  tree : SourceTree
  openFails : Bool
  readFails : Bool

def Moment.content (now : Moment) (path : List FileName) : Bytes :=
  match now.tree.tree.node path with
  | some (.file _ (.regular content)) => content.1
  | _ => []

abbrev Emit := Effect Failure ArchiveWriter

section Emission
variable (now : Moment)

def produce (bytes : Bytes) : Emit (Option Bytes) := do
  modify fun w => { w with bytesProduced := w.bytesProduced + .ofNat bytes.length }
  pure (some bytes)

def makeRecord (type : RecordType) (payload : Bytes) : Bytes := serializeRecord ⟨type, payload⟩

/-- One `read` of a block, short at the end of the file only. -/
def nextFileBytesOrEnd : Emit (Option Bytes) := do
  let w ← get
  let payload :=
    if w.stream ≠ .good ∨ now.readFails then []
    else ((now.content w.currentFilePath).drop w.position).take w.fileBytesPayloadSize
  let stream :=
    if w.stream ≠ .good then w.stream
    else if now.readFails then .bad
    else if payload.length < w.fileBytesPayloadSize then .eof
    else .good
  set { w with position := w.position + payload.length, stream := stream }
  if payload.length > 0 then do
    modify fun w => { w with
      currentFileBytesRead := w.currentFileBytesRead + .ofNat payload.length }
    produce (makeRecord .fileBytes payload)
  else do
    throwIf (stream ≠ .eof) (.invalidArgument "error while reading input file for archive")
    throwIf (w.currentFileBytesRead ≠ w.currentFileExpectedBytes) (.invalidArgument
      ("file changed size during encryption: '" ++
        (below w.currentFilePath []).string ++ "' expected " ++
        toString w.currentFileExpectedBytes.toNat ++ " bytes but read " ++
        toString w.currentFileBytesRead.toNat))
    modify fun w => { w with currentFileOpen := false }
    produce (makeRecord .fileEnd [])

/-- An entry's first record; `none` for one that is passed over. -/
def entryRecord (e : DirectoryEntry) : Emit (Option Bytes) := do
  let w ← get
  match e.type with
  | .symlink =>
    if w.options.includeSymlinks = false then pure none
    else do
      let m ← lift (w.metadataFor now.tree e)
      let payload ← lift (serializeEntryMetadata m)
      produce (makeRecord .symlinkEntry payload)
  | .directory => do
    let m ← lift (w.metadataFor now.tree e)
    let payload ← lift (serializeEntryMetadata m)
    produce (makeRecord .directoryEntry payload)
  | .regular => do
    let m ← lift (w.metadataFor now.tree e)
    throwIf (now.openFails = true) (.invalidArgument
      ("cannot open input file for archive: " ++ (below e.path []).string))
    modify fun w => { w with
      currentFileOpen := true
      position := 0
      stream := .good
      currentFilePath := e.path
      currentFileExpectedBytes := m.originalSize
      currentFileBytesRead := 0 }
    let payload ← lift (serializeEntryMetadata m)
    produce (makeRecord .fileEntry payload)
  | .special => pure none

def nextEntry : List DirectoryEntry → Emit (Option Bytes)
  | [] => pure none
  | e :: entries => do
    modify fun w => { w with entryIndex := w.entryIndex + 1 }
    let record ← entryRecord now e
    match record with
    | some bytes => pure (some bytes)
    | none => nextEntry entries

def endOrPadding : Emit (Option Bytes) := do
  let w ← get
  if w.emittedEnd = false then do
    set { w with emittedEnd := true }
    produce (makeRecord .archiveEnd [])
  else
    match w.trailingPaddingRecord with
    | some padding =>
      if w.trailingPaddingEmitted = false then do
        set { w with trailingPaddingEmitted := true }
        produce padding
      else pure none
    | none => pure none

def nextRecordBytes : Emit (Option Bytes) := do
  let w ← get
  if w.emittedBegin = false then do
    set { w with emittedBegin := true }
    produce (makeRecord .archiveBegin (ByteCodec.toLE 4 kArchiveFormatVersion.toNat))
  else if w.currentFileOpen then nextFileBytesOrEnd now
  else do
    let record ← nextEntry now (w.entries.drop w.entryIndex)
    match record with
    | some bytes => pure (some bytes)
    | none => endOrPadding

end Emission
end Bseal.Archive
