import Bseal.Archive.Metadata

/-! The codec of records and of entry metadata: round trips, no accepted encoding in front of
another, and a record size that depends on the record alone. -/
namespace Bseal.Archive
open ByteCodec

/-- Metadata as the archive writer makes it. A normalized path is its own generic form. -/
structure EncodableMetadata (m : EntryMetadata) : Prop where
  safe : isSafeRelativePath m.relativePath = true
  normalized : genericString m.relativePath = m.relativePath
  notDot : m.relativePath ≠ dot
  pathLen : m.relativePath.length < 2 ^ 32
  targetLen : m.symlinkTargetUtf8.length < 2 ^ 32
  target : m.kind ≠ .symlink → m.symlinkTargetUtf8 = []
  size : m.kind ≠ .regularFile → m.originalSize = 0

theorem EncodableMetadata.rules {m : EntryMetadata} (encodable : EncodableMetadata m) :
    MetadataRules m := by
  refine ⟨⟨fun single => encodable.notDot ?_, encodable.safe⟩, encodable.pathLen,
    encodable.targetLen, encodable.target, encodable.size⟩
  rw [← encodable.normalized]
  unfold genericString
  rw [single]
  rfl

theorem parseEntryMetadata_serialize {m : EntryMetadata} (encodable : EncodableMetadata m) :
    ∃ bytes, serializeEntryMetadata m = .ok bytes ∧ parseEntryMetadata bytes = .ok m := by
  have generic := encodable.normalized
  refine ⟨encodeEntryMetadata m, ?_, (parseEntryMetadata_ok _ _).mpr ⟨encodable.rules, rfl⟩⟩
  rw [serializeEntryMetadata_ok, generic]
  exact ⟨encodable.pathLen, encodable.targetLen, rfl⟩

/-- The decoder stops where an accepted encoding ends, so what follows it is left over. -/
theorem parseEntryMetadata_prefixFree {front rest : Bytes} {m n : EntryMetadata}
    (accepted : parseEntryMetadata front = .ok m)
    (longer : parseEntryMetadata (front ++ rest) = .ok n) : rest = [] := by
  obtain ⟨rules, encoded⟩ := (parseEntryMetadata_ok _ _).mp accepted
  obtain ⟨rules', encoded'⟩ := (parseEntryMetadata_ok _ _).mp longer
  have short : readEntryMetadata.run (front ++ rest) = .ok (m, rest) :=
    (readEntryMetadata_run_ok ..).mpr
      ⟨rules.path, rules.pathLen, rules.targetLen, by rw [encoded]⟩
  have long : readEntryMetadata.run (front ++ rest) = .ok (n, []) :=
    (readEntryMetadata_run_ok ..).mpr
      ⟨rules'.path, rules'.pathLen, rules'.targetLen, by rw [encoded', List.append_nil]⟩
  rw [short] at long
  exact (Prod.mk.inj (Except.ok.inj long)).2

/-- A cut record has no size yet, and its cut is no error. -/
theorem encodedRecordSizeIfComplete_prefix {record : ArchiveRecord} {front rest : Bytes}
    (small : record.payload.length ≤ kMaxRecordPayloadBytes)
    (cut : front ++ rest = serializeRecord record) (proper : rest ≠ []) :
    encodedRecordSizeIfComplete front = .ok none := by
  have cap : kMaxRecordPayloadBytes < 256 ^ 8 := by decide
  have lengths := congrArg List.length cut
  have more := List.length_pos_iff.mpr proper
  rw [List.length_append, serializeRecord_length] at lengths
  cases front with
  | nil => rfl
  | cons typeByte front =>
    have whole := serializeRecord_cons record []
    rw [List.append_nil, List.append_nil, ← cut, List.cons_append, List.cons.injEq] at whole
    obtain ⟨type, body⟩ := whole
    rw [encodedRecordSizeIfComplete]
    by_cases short : front.length < 8
    · rw [if_pos short]
    · have word : front.take 8 = toLE 8 record.payload.length := by
        rw [← List.take_append_of_le_length (Nat.le_of_not_lt short), body,
          List.take_left' (toLE_length _ _)]
      rw [if_neg short, type, recordType?_code]
      simp only [word, ofLE_toLE_of_lt (small.trans_lt cap)]
      rw [List.length_cons] at lengths
      rw [if_neg (Nat.not_lt.mpr small), if_pos (by omega)]

theorem encodedRecordSizeIfComplete_extension {record : ArchiveRecord}
    (small : record.payload.length ≤ kMaxRecordPayloadBytes) (rest : Bytes) :
    encodedRecordSizeIfComplete (serializeRecord record ++ rest) =
      .ok (some (9 + record.payload.length)) :=
  (encodedRecordSizeIfComplete_some ..).mpr ⟨record, rest, rfl, small, rfl⟩

theorem record_codec :
    (∀ m, EncodableMetadata m →
      ∃ bytes, serializeEntryMetadata m = .ok bytes ∧ parseEntryMetadata bytes = .ok m) ∧
    (∀ bytes m, parseEntryMetadata bytes = .ok m →
      (∀ front rest, front ++ rest = bytes → rest ≠ [] →
        ∃ e, parseEntryMetadata front = .error e) ∧
      ∀ rest, rest ≠ [] → ∃ e, parseEntryMetadata (bytes ++ rest) = .error e) ∧
    ∀ record : ArchiveRecord, record.payload.length ≤ kMaxRecordPayloadBytes →
      parseRecord (serializeRecord record) = .ok record ∧
      (∀ rest, encodedRecordSizeIfComplete (serializeRecord record ++ rest) =
        .ok (some (9 + record.payload.length))) ∧
      ∀ front rest, front ++ rest = serializeRecord record → rest ≠ [] →
        encodedRecordSizeIfComplete front = .ok none := by
  refine ⟨fun m => parseEntryMetadata_serialize, fun bytes m accepted => ⟨?_, ?_⟩, ?_⟩
  · rintro front rest rfl proper
    cases parsed : parseEntryMetadata front with
    | error e => exact ⟨e, rfl⟩
    | ok n => exact absurd (parseEntryMetadata_prefixFree parsed accepted) proper
  · intro rest proper
    cases parsed : parseEntryMetadata (bytes ++ rest) with
    | error e => exact ⟨e, rfl⟩
    | ok n => exact absurd (parseEntryMetadata_prefixFree accepted parsed) proper
  · intro record small
    exact ⟨(parseRecord_ok _ _).mpr ⟨rfl, small⟩, encodedRecordSizeIfComplete_extension small,
      fun front rest => encodedRecordSizeIfComplete_prefix small⟩

def oldFile : EntryMetadata where
  kind := .regularFile
  relativePath := ascii "a/b.txt"
  originalSize := 5
  posixMode := 0o644
  times := ⟨-1, some (-2), none⟩
  symlinkTargetUtf8 := []

theorem record_codec_oldFile :
    ∃ bytes, serializeEntryMetadata oldFile = .ok bytes ∧
      parseEntryMetadata bytes = .ok oldFile := by
  have encodable : EncodableMetadata oldFile :=
    ⟨by decide +kernel, by decide +kernel, by decide +kernel, by decide +kernel,
      by decide +kernel, fun _ => rfl, fun other => absurd rfl other⟩
  exact record_codec.1 oldFile encodable

end Bseal.Archive
