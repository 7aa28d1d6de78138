import Bseal.Archive.PathSanitizer

/-! `archive/RecordFormat`: the records of the inner archive and the metadata of
an entry. Both decoders accept exactly the encodings of values that keep their rules. -/
namespace Bseal.Archive
open ByteCodec

def kRecordPrefixSize : Nat := 9
def kMaxRecordPayloadBytes : Nat := 128 * 1024 * 1024
def kArchiveFormatVersion : UInt32 := 1

inductive RecordType where
  | archiveBegin
  | directoryEntry
  | fileEntry
  | fileBytes
  | fileEnd
  | symlinkEntry
  | archiveEnd
  | randomPadding
  deriving DecidableEq, Repr

def RecordType.code : RecordType → UInt8
  | .archiveBegin => 1
  | .directoryEntry => 2
  | .fileEntry => 3
  | .fileBytes => 4
  | .fileEnd => 5
  | .symlinkEntry => 6
  | .archiveEnd => 7
  | .randomPadding => 8

def recordType? (value : UInt8) : Option RecordType :=
  if value = 1 then some .archiveBegin
  else if value = 2 then some .directoryEntry
  else if value = 3 then some .fileEntry
  else if value = 4 then some .fileBytes
  else if value = 5 then some .fileEnd
  else if value = 6 then some .symlinkEntry
  else if value = 7 then some .archiveEnd
  else if value = 8 then some .randomPadding
  else none

@[simp] theorem recordType?_code (t : RecordType) : recordType? t.code = some t := by
  cases t <;> rfl

theorem recordType?_some {value : UInt8} {t : RecordType} (h : recordType? value = some t) :
    value = t.code := by
  unfold recordType? at h
  split_ifs at h with h1 h2 h3 h4 h5 h6 h7 h8 <;> cases h <;> assumption

structure ArchiveRecord where
  type : RecordType
  payload : Bytes
  deriving DecidableEq, Repr

def serializeRecord (record : ArchiveRecord) : Bytes :=
  putU8 record.type.code ++ toLE 8 record.payload.length ++ record.payload

@[simp] theorem serializeRecord_length (record : ArchiveRecord) :
    (serializeRecord record).length = kRecordPrefixSize + record.payload.length := by
  unfold serializeRecord kRecordPrefixSize
  simp only [List.length_append, putU8_length, toLE_length]

def invalidRecordType : Failure := .invalidArgument "invalid archive record type"

def payloadTooLarge : Failure :=
  .invalidArgument "archive record payload exceeds maximum allowed size"

/-- The complete encoded size if it is available, `none` while bytes are missing. After the cap
the source's check against a 64-bit `SIZE_MAX` never fires. -/
def encodedRecordSizeIfComplete : Bytes → Result (Option Nat)
  | [] => .ok none
  | typeByte :: bytes =>
    if bytes.length < 8 then .ok none
    else match recordType? typeByte with
      | none => .error invalidRecordType
      | some _ =>
        let payloadSize := ofLE (bytes.take 8)
        if payloadSize > kMaxRecordPayloadBytes then .error payloadTooLarge
        else if bytes.length + 1 < kRecordPrefixSize + payloadSize then .ok none
        else .ok (some (kRecordPrefixSize + payloadSize))

def truncatedRecord : Failure := .invalidArgument "truncated archive record"

def readRecord : Decoder Failure ArchiveRecord := do
  let typeByte ← takeU8 truncatedRecord
  match recordType? typeByte with
  | none => throw invalidRecordType
  | some type =>
    let payload ← takeBlock truncatedRecord 8
    pure ⟨type, payload⟩

def decodeAll {α : Type} (read : Decoder Failure α) (what : String) (bytes : Bytes) :
    Result α := do
  let (a, rest) ← read.run bytes
  if rest.isEmpty then pure a
  else throw (.invalidArgument (what ++ " contains trailing bytes"))

def parseRecord (bytes : Bytes) : Result ArchiveRecord := do
  let completeSize ← encodedRecordSizeIfComplete bytes
  if completeSize ≠ some bytes.length then
    throw (.invalidArgument "record buffer does not contain exactly one complete record")
  else decodeAll readRecord "archive record" bytes

theorem putU8_code (t : RecordType) : putU8 t.code = [t.code] := by
  unfold putU8 toLE toLE
  rw [UInt8.ofNat_toNat]

theorem serializeRecord_cons (record : ArchiveRecord) (rest : Bytes) :
    serializeRecord record ++ rest =
      record.type.code :: (toLE 8 record.payload.length ++ (record.payload ++ rest)) := by
  unfold serializeRecord
  rw [putU8_code, List.append_assoc, List.append_assoc, List.singleton_append]

theorem encodedRecordSizeIfComplete_serialize (record : ArchiveRecord) (rest : Bytes)
    (addressable : record.payload.length < 2 ^ 64) :
    encodedRecordSizeIfComplete (serializeRecord record ++ rest) =
      if record.payload.length > kMaxRecordPayloadBytes then .error payloadTooLarge
      else .ok (some (kRecordPrefixSize + record.payload.length)) := by
  have size : ofLE ((toLE 8 record.payload.length ++ (record.payload ++ rest)).take 8) =
      record.payload.length := by
    rw [List.take_left' (toLE_length _ _)]
    exact ofLE_toLE_of_lt addressable
  have len : (toLE 8 record.payload.length ++ (record.payload ++ rest)).length =
      8 + (record.payload.length + rest.length) := by
    simp only [List.length_append, toLE_length]
  rw [serializeRecord_cons, encodedRecordSizeIfComplete, recordType?_code]
  simp only [size, len]
  have whole : ¬8 + (record.payload.length + rest.length) + 1 <
      kRecordPrefixSize + record.payload.length := by
    unfold kRecordPrefixSize
    omega
  rw [if_neg (by omega), if_neg whole]

theorem encodedRecordSizeIfComplete_some (bytes : Bytes) (n : Nat) :
    encodedRecordSizeIfComplete bytes = .ok (some n) ↔
      ∃ record rest, serializeRecord record ++ rest = bytes ∧
        record.payload.length ≤ kMaxRecordPayloadBytes ∧
        n = kRecordPrefixSize + record.payload.length := by
  constructor
  · intro complete
    cases bytes with
    | nil => cases complete
    | cons typeByte bytes =>
      rw [encodedRecordSizeIfComplete] at complete
      split_ifs at complete with short
      · cases complete
      cases valid : recordType? typeByte with
      | none => rw [valid] at complete; cases complete
      | some type =>
        rw [valid] at complete
        simp only at complete
        split_ifs at complete with large missing
        · cases complete
        have n_eq : kRecordPrefixSize + ofLE (bytes.take 8) = n := by simpa using complete
        unfold kRecordPrefixSize at missing
        have body : ((bytes.drop 8).take (ofLE (bytes.take 8))).length = ofLE (bytes.take 8) := by
          rw [List.length_take, List.length_drop]
          omega
        have word : toLE 8 (ofLE (bytes.take 8)) = bytes.take 8 :=
          toLE_ofLE_of_length (by rw [List.length_take]; omega)
        refine ⟨⟨type, (bytes.drop 8).take (ofLE (bytes.take 8))⟩,
          (bytes.drop 8).drop (ofLE (bytes.take 8)), ?_, ?_, ?_⟩
        · rw [serializeRecord_cons, recordType?_some valid, body, word, List.take_append_drop,
            List.take_append_drop]
        · rw [body]
          exact Nat.le_of_not_gt large
        · rw [body]
          exact n_eq.symm
  · rintro ⟨record, rest, rfl, small, rfl⟩
    have cap : kMaxRecordPayloadBytes < 2 ^ 64 := by decide
    rw [encodedRecordSizeIfComplete_serialize record rest (by omega), if_neg (by omega)]

theorem readRecord_run_ok (record : ArchiveRecord) (s t : Bytes) :
    readRecord.run s = .ok (record, t) ↔
      record.payload.length < 256 ^ 8 ∧ serializeRecord record ++ t = s := by
  unfold readRecord serializeRecord
  rw [bind_run_ok]
  constructor
  · rintro ⟨typeByte, u, decoded, rest⟩
    cases valid : recordType? typeByte with
    | none => rw [valid] at rest; cases rest
    | some type =>
      rw [valid] at rest
      simp only [bind_run_ok, takeBlock_run_ok, pure_run_ok] at rest
      obtain ⟨payload, _, ⟨small, whole⟩, rfl, rfl⟩ := rest
      refine ⟨small, ?_⟩
      rw [← (takeU8_run_ok _ _ _ _).mp decoded, ← whole, recordType?_some valid, putBlock]
      simp only [List.append_assoc]
  · rintro ⟨small, rfl⟩
    refine ⟨record.type.code, putBlock 8 record.payload ++ t, ?_, ?_⟩
    · rw [takeU8_run_ok, putBlock]
      simp only [List.append_assoc]
    · rw [recordType?_code]
      simp only [bind_run_ok, takeBlock_run_ok, pure_run_ok]
      exact ⟨record.payload, t, ⟨small, rfl⟩, rfl, rfl⟩

theorem decodeAll_ok {α : Type} (read : Decoder Failure α) (what : String) (bytes : Bytes)
    (a : α) : decodeAll read what bytes = .ok a ↔ read.run bytes = .ok (a, []) := by
  unfold decodeAll
  rw [Result.bind_eq_ok]
  constructor
  · rintro ⟨⟨b, rest⟩, decoded, last⟩
    cases rest with
    | nil =>
      cases last
      exact decoded
    | cons => cases last
  · intro decoded
    exact ⟨(a, []), decoded, rfl⟩

theorem parseRecord_ok (bytes : Bytes) (record : ArchiveRecord) :
    parseRecord bytes = .ok record ↔
      serializeRecord record = bytes ∧ record.payload.length ≤ kMaxRecordPayloadBytes := by
  have cap : kMaxRecordPayloadBytes < 256 ^ 8 := by decide
  unfold parseRecord
  rw [Result.bind_eq_ok]
  constructor
  · rintro ⟨size, complete, parsed⟩
    split_ifs at parsed with partly
    rw [decodeAll_ok, readRecord_run_ok, List.append_nil] at parsed
    obtain ⟨-, rfl⟩ := parsed
    rw [not_not.mp partly, encodedRecordSizeIfComplete_some] at complete
    obtain ⟨other, rest, same, small, len⟩ := complete
    refine ⟨rfl, ?_⟩
    rw [serializeRecord_length] at len
    omega
  · rintro ⟨rfl, small⟩
    refine ⟨some (serializeRecord record).length, ?_, ?_⟩
    · rw [encodedRecordSizeIfComplete_some]
      exact ⟨record, [], List.append_nil _, small, serializeRecord_length _⟩
    · rw [if_neg (by simp), decodeAll_ok, readRecord_run_ok, List.append_nil]
      exact ⟨by omega, rfl⟩

end Bseal.Archive
