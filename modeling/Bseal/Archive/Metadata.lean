import Bseal.Archive.RecordFormat

/-! `archive/Metadata` and its codec in `archive/RecordFormat`. The writer stores the
generic form of a path; the reader keeps the stored text. -/
namespace Bseal.Archive
open ByteCodec

inductive EntryKind where
  | regularFile
  | directory
  | symlink
  deriving DecidableEq, Repr

def EntryKind.code : EntryKind → UInt8
  | .regularFile => 1
  | .directory => 2
  | .symlink => 3

structure FileTimes where
  modifiedNsSinceUnixEpoch : Int64
  accessedNsSinceUnixEpoch : Option Int64
  createdNsSinceUnixEpoch : Option Int64
  deriving DecidableEq

structure EntryMetadata where
  kind : EntryKind
  relativePath : Bytes
  originalSize : UInt64
  posixMode : UInt32
  times : FileTimes
  symlinkTargetUtf8 : Bytes
  deriving DecidableEq

def parseEntryKind (value : UInt8) : Result EntryKind :=
  if value = 1 then .ok .regularFile
  else if value = 2 then .ok .directory
  else if value = 3 then .ok .symlink
  else .error (.invalidArgument "invalid archive entry kind")

theorem parseEntryKind_ok (value : UInt8) (kind : EntryKind) :
    parseEntryKind value = .ok kind ↔ value = kind.code := by
  unfold parseEntryKind
  constructor
  · intro parsed
    split_ifs at parsed <;> cases parsed <;> assumption
  · rintro rfl
    cases kind <;> rfl

def appendString (value : Bytes) : Result Bytes :=
  if value.length > 0xffffffff then .error (.invalidArgument "archive string is too large")
  else .ok (putBlock 4 value)

def encodeEntryMetadata (m : EntryMetadata) : Bytes :=
  putU8 m.kind.code ++ putBlock 4 m.relativePath ++ putU64 m.originalSize ++
  putU32 m.posixMode ++ putI64 m.times.modifiedNsSinceUnixEpoch ++
  putOption putI64 m.times.accessedNsSinceUnixEpoch ++
  putOption putI64 m.times.createdNsSinceUnixEpoch ++ putBlock 4 m.symlinkTargetUtf8

def serializeEntryMetadata (m : EntryMetadata) : Result Bytes := do
  let path ← appendString (genericString m.relativePath)
  let target ← appendString m.symlinkTargetUtf8
  pure (putU8 m.kind.code ++ path ++ putU64 m.originalSize ++ putU32 m.posixMode ++
    putI64 m.times.modifiedNsSinceUnixEpoch ++
    putOption putI64 m.times.accessedNsSinceUnixEpoch ++
    putOption putI64 m.times.createdNsSinceUnixEpoch ++ target)

def takeKind : Decoder Failure EntryKind := do
  let value ← takeU8 truncatedRecord
  match parseEntryKind value with
  | .ok kind => pure kind
  | .error e => throw e

def MetadataPath (path : Bytes) : Prop :=
  pathComponents path ≠ [dot] ∧ isSafeRelativePath path = true

instance (path : Bytes) : Decidable (MetadataPath path) := inferInstanceAs (Decidable (_ ∧ _))

def readEntryMetadata : Decoder Failure EntryMetadata := do
  let e := truncatedRecord
  let flag : Failure := .invalidArgument "invalid optional timestamp flag"
  let kind ← takeKind
  let relativePath ← takeBlock e 4
  rejectIf (¬MetadataPath relativePath) (.invalidArgument "unsafe path inside archive metadata")
  let originalSize ← takeU64 e
  let posixMode ← takeU32 e
  let modified ← takeI64 e
  let accessed ← takeOption e flag (takeI64 e)
  let created ← takeOption e flag (takeI64 e)
  let symlinkTarget ← takeBlock e 4
  pure ⟨kind, relativePath, originalSize, posixMode, ⟨modified, accessed, created⟩, symlinkTarget⟩

def parseEntryMetadata (bytes : Bytes) : Result EntryMetadata := do
  let m ← decodeAll readEntryMetadata "entry metadata" bytes
  if m.kind ≠ .symlink ∧ ¬m.symlinkTargetUtf8.isEmpty then
    throw (.invalidArgument "non-symlink metadata contains symlink target")
  else if m.kind = .symlink ∧ m.originalSize ≠ 0 then
    throw (.invalidArgument "symlink metadata must have zero original size")
  else if m.kind = .directory ∧ m.originalSize ≠ 0 then
    throw (.invalidArgument "directory metadata must have zero original size")
  else pure m

structure MetadataRules (m : EntryMetadata) : Prop where
  path : MetadataPath m.relativePath
  pathLen : m.relativePath.length < 2 ^ 32
  targetLen : m.symlinkTargetUtf8.length < 2 ^ 32
  target : m.kind ≠ .symlink → m.symlinkTargetUtf8 = []
  size : m.kind ≠ .regularFile → m.originalSize = 0

theorem takeKind_run_ok (kind : EntryKind) (s t : Bytes) :
    takeKind.run s = .ok (kind, t) ↔ putU8 kind.code ++ t = s := by
  unfold takeKind
  simp only [bind_run_ok, takeU8_run_ok]
  constructor
  · rintro ⟨value, _, rfl, decoded⟩
    cases parsed : parseEntryKind value with
    | error e => rw [parsed] at decoded; cases decoded
    | ok k =>
      rw [parsed] at decoded
      obtain ⟨rfl, rfl⟩ := (pure_run_ok _ _ _ _).mp decoded
      rw [(parseEntryKind_ok value k).mp parsed]
  · rintro rfl
    refine ⟨kind.code, t, rfl, ?_⟩
    rw [(parseEntryKind_ok kind.code kind).mpr rfl]
    exact (pure_run_ok _ _ _ _).mpr ⟨rfl, rfl⟩

theorem readEntryMetadata_run_ok (m : EntryMetadata) (s t : Bytes) :
    readEntryMetadata.run s = .ok (m, t) ↔
      MetadataPath m.relativePath ∧ m.relativePath.length < 2 ^ 32 ∧
        m.symlinkTargetUtf8.length < 2 ^ 32 ∧ encodeEntryMetadata m ++ t = s := by
  unfold readEntryMetadata
  simp only [bind_run_ok, takeKind_run_ok, takeBlock_run_ok, rejectIf_run_ok, takeU64_run_ok,
    takeU32_run_ok, takeI64_run_ok, takeOption_run_ok _ _ (takeI64_run_ok _), pure_run_ok,
    not_not]
  constructor
  · rintro ⟨_, _, rfl, path, _, ⟨pathLen, rfl⟩, _, _, ⟨safe, rfl⟩, _, _, rfl, decoded⟩
    obtain ⟨_, _, rfl, _, _, rfl, _, _, rfl, _, _, rfl, decoded⟩ := decoded
    obtain ⟨target, _, ⟨targetLen, rfl⟩, rfl, rfl⟩ := decoded
    refine ⟨safe, pathLen, targetLen, ?_⟩
    unfold encodeEntryMetadata
    simp only [List.append_assoc]
  · rintro ⟨safe, pathLen, targetLen, rfl⟩
    unfold encodeEntryMetadata
    simp only [List.append_assoc]
    refine ⟨_, _, rfl, _, _, ⟨pathLen, rfl⟩, (), _, ⟨safe, rfl⟩, _, _, rfl, ?_⟩
    refine ⟨_, _, rfl, _, _, rfl, _, _, rfl, _, _, rfl, ?_⟩
    exact ⟨_, _, ⟨targetLen, rfl⟩, rfl, rfl⟩

theorem parseEntryMetadata_ok (bytes : Bytes) (m : EntryMetadata) :
    parseEntryMetadata bytes = .ok m ↔ MetadataRules m ∧ encodeEntryMetadata m = bytes := by
  unfold parseEntryMetadata
  simp only [Result.bind_eq_ok, decodeAll_ok, readEntryMetadata_run_ok, List.append_nil]
  constructor
  · rintro ⟨n, ⟨path, pathLen, targetLen, rfl⟩, checked⟩
    split_ifs at checked with stray link dir
    cases checked
    refine ⟨⟨path, pathLen, targetLen, ?_, ?_⟩, rfl⟩
    · intro kind
      simpa [kind] using stray
    · intro kind
      cases h : m.kind with
      | regularFile => exact absurd h kind
      | directory => simpa [h] using dir
      | symlink => simpa [h] using link
  · rintro ⟨rules, rfl⟩
    refine ⟨m, ⟨rules.path, rules.pathLen, rules.targetLen, rfl⟩, ?_⟩
    rw [if_neg, if_neg, if_neg]
    · rfl
    · rintro ⟨kind, size⟩
      exact size (rules.size (by rw [kind]; decide))
    · rintro ⟨kind, size⟩
      exact size (rules.size (by rw [kind]; decide))
    · rintro ⟨kind, target⟩
      exact target (by rw [rules.target kind]; rfl)

theorem serializeEntryMetadata_ok (m : EntryMetadata) (bytes : Bytes) :
    serializeEntryMetadata m = .ok bytes ↔
      (genericString m.relativePath).length < 2 ^ 32 ∧ m.symlinkTargetUtf8.length < 2 ^ 32 ∧
        encodeEntryMetadata { m with relativePath := genericString m.relativePath } = bytes := by
  unfold serializeEntryMetadata appendString
  rw [Result.bind_eq_ok]
  constructor
  · rintro ⟨path, hpath, rest⟩
    rw [Result.bind_eq_ok] at rest
    obtain ⟨target, htarget, rest⟩ := rest
    split_ifs at hpath htarget with h1 h2
    cases hpath
    cases htarget
    cases rest
    exact ⟨by omega, by omega, rfl⟩
  · rintro ⟨h1, h2, rfl⟩
    refine ⟨_, if_neg (by omega), ?_⟩
    rw [Result.bind_eq_ok]
    exact ⟨_, if_neg (by omega), rfl⟩

end Bseal.Archive
