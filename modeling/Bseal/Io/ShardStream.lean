import Bseal.Io.ShardSet
import Bseal.Platform.Disk

/-! `ShardReader::read_next_chunk_record`: the chunk frames of a validated shard set, read
file after file. The frames that are read to the end are characterized exactly. -/
namespace Bseal.Io
open Platform

structure ChunkRecord where
  chunkIndex : UInt64
  shardIndex : UInt32
  plaintextSize : UInt64
  frameFlags : UInt16
  frameHeaderBytes : Bytes
  ciphertext : Bytes
  deriving DecidableEq

structure ShardCursor where
  rest : Bytes
  position : Nat

/-- The members reading changes; `remaining` are the shards from `current_shard_pos_` on. -/
structure ShardReader where
  remaining : List ShardInfo
  stream : Option ShardCursor
  recordInShard : UInt64
  seenChunkIndices : List UInt64
  sawFinalChunk : Bool
  expectedTotalChunkCount : UInt64

section Open
variable (hmacSha256 : Bytes → Bytes → Bytes32)

def ShardReader.start (shards : List ShardInfo) (total : UInt64) : ShardReader where
  remaining := shards
  stream := none
  recordInShard := 0
  seenChunkIndices := []
  sawFinalChunk := false
  expectedTotalChunkCount := total

def openShardReader (shards : List ShardInfo) (headerAuthenticationKey : Bytes)
    (validation : ShardReaderValidation) : Result ShardReader :=
  if headerAuthenticationKey.length ≠ 32 ∨ allZero headerAuthenticationKey then
    .error (.invalidArgument "header_authentication_key must be 32 non-zero bytes")
  else do
    let (sorted, total) ← validateShards hmacSha256 validation headerAuthenticationKey shards
    pure (.start sorted total)

end Open

section Read
variable (files : Files)

/-- The payload of a shard starts behind its two headers. -/
def openCurrentShard (shard : ShardInfo) : Option ShardCursor → Result ShardCursor
  | some cursor => .ok cursor
  | none =>
    match files shard.path with
    | none => .error (.error ("failed to open shard for reading: " ++ text shard.path))
    | some content => .ok ⟨content.drop 272, 272⟩

def ShardInfo.payloadEnd (shard : ShardInfo) : UInt64 := kPayloadOffset + shard.shardPayloadLen

def closeCurrentShard_checkTrailingGarbage (shard : ShardInfo) (cursor : ShardCursor) :
    Result Unit :=
  if UInt64.ofNat cursor.position ≠ shard.payloadEnd then
    .error (.invalidArgument ("shard payload length mismatch: " ++ text shard.path))
  else if cursor.rest ≠ [] then
    .error (.invalidArgument
      ("trailing garbage after declared chunk frames: " ++ text shard.path))
  else .ok ()

/-- The checks on the header of a frame, in source order. -/
def checkFrameHeader (shard : ShardInfo) (r : ShardReader) (h : ChunkFrameHeaderV1) :
    Result Unit :=
  let expectedChunkIndex := shard.firstChunkIndex + r.recordInShard
  let isFinal := h.frameFlags &&& kChunkFrameFlagFinalChunk ≠ 0
  let shouldBeFinal := r.expectedTotalChunkCount ≠ 0 ∧
    h.globalChunkIndex = r.expectedTotalChunkCount - 1
  if h.shardIndex ≠ shard.shardIndex then
    .error (.invalidArgument "chunk frame shard_index does not match enclosing shard")
  else if h.globalChunkIndex ≠ expectedChunkIndex then
    .error (.invalidArgument (if h.globalChunkIndex < expectedChunkIndex then
      "duplicate or reordered chunk index" else "missing chunk index"))
  else if h.globalChunkIndex ∈ r.seenChunkIndices then
    .error (.invalidArgument "duplicate chunk index")
  else if h.tagLen ≠ 16 then .error (.invalidArgument "invalid chunk frame tag length")
  else if h.plaintextLen > shard.globalHeader.chunkPlainSize then
    .error (.invalidArgument "invalid chunk frame plaintext_len")
  else if h.ciphertextLen ≠ h.plaintextLen.toUInt64 then
    .error (.invalidArgument "invalid ciphertext_length")
  else if ¬(isFinal ↔ shouldBeFinal) then
    .error (.invalidArgument "invalid final chunk marker")
  else if isFinal ∧ r.sawFinalChunk then
    .error (.invalidArgument "duplicate final chunk marker")
  else if ¬isFinal ∧ h.plaintextLen ≠ shard.globalHeader.chunkPlainSize then
    .error (.invalidArgument "non-final chunk has partial plaintext length")
  else .ok ()

def checkFrameBody (shard : ShardInfo) (afterHeader bodyLen : UInt64) : Result Unit :=
  if afterHeader > shard.payloadEnd ∨ bodyLen > shard.payloadEnd - afterHeader then
    .error (.invalidArgument "chunk frame exceeds declared shard payload")
  else .ok ()

structure Frame where
  header : ChunkFrameHeaderV1
  body : Bytes

namespace Frame

def bytes (f : Frame) : Bytes := encodeChunkFrameHeaderV1 f.header ++ f.body

def record (f : Frame) : ChunkRecord :=
  ⟨f.header.globalChunkIndex, f.header.shardIndex, f.header.plaintextLen.toUInt64,
    f.header.frameFlags, encodeChunkFrameHeaderV1 f.header, f.body⟩

end Frame

def ShardReader.advance (r : ShardReader) (h : ChunkFrameHeaderV1) (cursor : ShardCursor) :
    ShardReader :=
  { r with
    stream := some cursor
    recordInShard := r.recordInShard + 1
    seenChunkIndices := h.globalChunkIndex :: r.seenChunkIndices
    sawFinalChunk := r.sawFinalChunk || h.frameFlags &&& kChunkFrameFlagFinalChunk ≠ 0 }

def readFrame (shard : ShardInfo) (cursor : ShardCursor) (r : ShardReader) :
    Result (ChunkRecord × ShardReader) := do
  let (headerBytes, rest) ←
    readExact cursor.rest kChunkFrameHeaderV1Size shard.path "truncated frame header"
  let h ← parseChunkFrameHeaderV1 headerBytes
  checkFrameHeader shard r h
  let size ← chunkFrameV1EncodedSize h
  let bodyLen := size - 40
  let afterHeader := cursor.position + kChunkFrameHeaderV1Size
  checkFrameBody shard (UInt64.ofNat afterHeader) bodyLen
  let (ciphertext, rest) ← readExact rest bodyLen.toNat shard.path "truncated ciphertext"
  let record : ChunkRecord := ⟨h.globalChunkIndex, h.shardIndex, h.plaintextLen.toUInt64,
    h.frameFlags, headerBytes, ciphertext⟩
  pure (record, r.advance h ⟨rest, afterHeader + bodyLen.toNat⟩)

def endOfArchive (r : ShardReader) : Result Unit :=
  if UInt64.ofNat r.seenChunkIndices.length ≠ r.expectedTotalChunkCount then
    .error (.invalidArgument "missing chunk index at end of archive")
  else if r.expectedTotalChunkCount ≠ 0 ∧ ¬r.sawFinalChunk then
    .error (.invalidArgument "missing final chunk marker")
  else .ok ()

def ShardReader.nextShard (r : ShardReader) (later : List ShardInfo) : ShardReader :=
  { r with remaining := later, stream := none, recordInShard := 0 }

/-- The loop of `read_next_chunk_record` over the remaining shards. -/
def readFrom : List ShardInfo → ShardReader → Result (Option ChunkRecord × ShardReader)
  | [], r => do
    endOfArchive r
    pure (none, r)
  | shard :: later, r => do
    let cursor ← openCurrentShard files shard r.stream
    if r.recordInShard ≥ shard.chunkCount then do
      closeCurrentShard_checkTrailingGarbage shard cursor
      readFrom later (r.nextShard later)
    else do
      let (record, r) ← readFrame shard cursor r
      pure (some record, r)

def readNextChunkRecord (r : ShardReader) : Result (Option ChunkRecord × ShardReader) :=
  readFrom files r.remaining r

/-- Repeated reading that returns these records and then the end. -/
inductive Reads : ShardReader → List ChunkRecord → Prop where
  | finish {r r' : ShardReader} : readNextChunkRecord files r = .ok (none, r') → Reads r []
  | record {r r' : ShardReader} {c : ChunkRecord} {records : List ChunkRecord} :
      readNextChunkRecord files r = .ok (some c, r') → Reads r' records → Reads r (c :: records)

/-- Repeated reading that returns some records and then throws. -/
inductive Fails : ShardReader → Failure → Prop where
  | error {r : ShardReader} {e : Failure} : readNextChunkRecord files r = .error e → Fails r e
  | record {r r' : ShardReader} {c : ChunkRecord} {e : Failure} :
      readNextChunkRecord files r = .ok (some c, r') → Fails r' e → Fails r e

structure FrameRules (shard : ShardInfo) (total index : Nat) (f : Frame) : Prop where
  header : ChunkFrameRules f.header
  shardIndex : f.header.shardIndex = shard.shardIndex
  chunkIndex : f.header.globalChunkIndex.toNat = index
  plaintextLe : f.header.plaintextLen ≤ shard.globalHeader.chunkPlainSize
  final : f.header.frameFlags &&& kChunkFrameFlagFinalChunk ≠ 0 ↔ index + 1 = total
  full : index + 1 ≠ total → f.header.plaintextLen = shard.globalHeader.chunkPlainSize
  body : f.body.length = f.header.plaintextLen.toNat + 16

structure ShardReader.At (r : ShardReader) (index : Nat) : Prop where
  member : ∀ i, i ∈ r.seenChunkIndices ↔ i.toNat < index
  length : r.seenChunkIndices.length = index
  final : r.sawFinalChunk = decide (r.expectedTotalChunkCount.toNat ≤ index)

theorem Frame.bytes_length {f : Frame} {shard : ShardInfo} {total index : Nat}
    (rules : FrameRules shard total index f) :
    f.bytes.length = 40 + f.header.plaintextLen.toNat + 16 := by
  rw [Frame.bytes, List.length_append, encodeChunkFrameHeaderV1_length, rules.body,
    kChunkFrameHeaderV1Size]
  omega

theorem checkFrameHeader_ok {shard : ShardInfo} {r : ShardReader} {index : Nat}
    (at_ : r.At index) (below : index < r.expectedTotalChunkCount.toNat)
    (place : (shard.firstChunkIndex + r.recordInShard).toNat = index)
    (h : ChunkFrameHeaderV1) (u : Unit) :
    checkFrameHeader shard r h = .ok u ↔
      h.shardIndex = shard.shardIndex ∧ h.globalChunkIndex.toNat = index ∧ h.tagLen = 16 ∧
        h.plaintextLen ≤ shard.globalHeader.chunkPlainSize ∧
        h.ciphertextLen = h.plaintextLen.toUInt64 ∧
        (h.frameFlags &&& kChunkFrameFlagFinalChunk ≠ 0 ↔
          index + 1 = r.expectedTotalChunkCount.toNat) ∧
        (index + 1 ≠ r.expectedTotalChunkCount.toNat →
          h.plaintextLen = shard.globalHeader.chunkPlainSize) := by
  have nonzero : r.expectedTotalChunkCount ≠ 0 := by
    intro zero
    rw [zero] at below
    exact absurd below (Nat.not_lt_zero _)
  have unsaw : r.sawFinalChunk = false := by
    rw [at_.final]
    exact decide_eq_false (by omega)
  have expected : h.globalChunkIndex = shard.firstChunkIndex + r.recordInShard ↔
      h.globalChunkIndex.toNat = index := by rw [← UInt64.toNat_inj, place]
  have last : h.globalChunkIndex.toNat = index →
      (h.globalChunkIndex = r.expectedTotalChunkCount - 1 ↔
        index + 1 = r.expectedTotalChunkCount.toNat) := by
    intro here
    rw [← UInt64.toNat_inj, u64_sub_one_toNat nonzero, here]
    omega
  unfold checkFrameHeader
  simp only [Result.guard_eq_ok, unsaw, expected, Bool.false_eq_true, and_false, not_false_eq_true,
    true_and, not_not, ne_eq, UInt32.not_lt, gt_iff_lt, nonzero, and_true]
  constructor
  · rintro ⟨shardIndex, here, -, tag, size, cipher, final, full⟩
    rw [last here] at final
    exact ⟨shardIndex, here, tag, size, cipher, final, fun more =>
      not_not.mp fun partly =>
        full ⟨not_not.mp fun flagged => more (final.mp flagged), partly⟩⟩
  · rintro ⟨shardIndex, here, tag, size, cipher, final, full⟩
    have fresh : h.globalChunkIndex ∉ r.seenChunkIndices := by
      rw [at_.member, here]
      exact Nat.lt_irrefl _
    refine ⟨shardIndex, here, fresh, tag, size, cipher, by rw [last here]; exact final, ?_⟩
    rintro ⟨unflagged, partly⟩
    exact partly (full fun more => final.mpr more unflagged)

theorem chunkFrameV1EncodedSize_of_rules {h : ChunkFrameHeaderV1} (rules : ChunkFrameRules h) :
    ∃ size, chunkFrameV1EncodedSize h = .ok size ∧
      (size - 40).toNat = h.plaintextLen.toNat + 16 := by
  have small := h.plaintextLen.toNat_lt
  have tag : h.tagLen ≠ 0 := by
    rw [rules.tagLen]
    decide
  have total : (UInt64.ofNat (56 + h.plaintextLen.toNat)).toNat = 56 + h.plaintextLen.toNat := by
    rw [UInt64.toNat_ofNat_of_lt' (by simp only [UInt64.size]; omega)]
  refine ⟨UInt64.ofNat (56 + h.plaintextLen.toNat), ?_, ?_⟩
  · unfold chunkFrameV1EncodedSize validateChunkFrameHeaderV1
    rw [if_neg (not_not_intro rules.frameFlags), if_neg tag, Result.ok_bind,
      chunkFrameV1EncodedSizeFromParams_ok, total, rules.ciphertextLen, rules.tagLen,
      UInt32.toNat_toUInt64, show (16 : UInt16).toNat = 16 from rfl]
    omega
  · rw [UInt64.toNat_sub_of_le _ _ (UInt64.le_iff_toNat_le.mpr
      (by rw [total, show (40 : UInt64).toNat = 40 from rfl]; omega)), total]
    simp
    omega

def ShardCursor.In (cursor : ShardCursor) (shard : ShardInfo) : Prop :=
  cursor.position + cursor.rest.length = 272 + shard.shardPayloadLen.toNat ∧
    272 + shard.shardPayloadLen.toNat < 2 ^ 64

theorem ShardCursor.In.payloadEnd {cursor : ShardCursor} {shard : ShardInfo}
    (inside : cursor.In shard) :
    shard.payloadEnd.toNat = cursor.position + cursor.rest.length := by
  rw [ShardInfo.payloadEnd, UInt64.toNat_add, inside.1, show kPayloadOffset.toNat = 272 from rfl,
    Nat.mod_eq_of_lt inside.2]

theorem readFrame_advance {shard : ShardInfo} {cursor : ShardCursor} {r r' : ShardReader}
    {c : ChunkRecord} (read : readFrame shard cursor r = .ok (c, r')) :
    ∃ h cursor', r' = r.advance h cursor' := by
  unfold readFrame at read
  simp only [Result.bind_eq_ok, Prod.exists] at read
  obtain ⟨_, _, -, h, -, _, -, _, -, _, -, _, rest, -, result⟩ := read
  cases result
  exact ⟨h, _, rfl⟩

theorem readFrame_ok {shard : ShardInfo} {cursor : ShardCursor} {r : ShardReader} {index : Nat}
    (at_ : r.At index) (below : index < r.expectedTotalChunkCount.toNat)
    (place : (shard.firstChunkIndex + r.recordInShard).toNat = index) (inside : cursor.In shard)
    (c : ChunkRecord) (r' : ShardReader) :
    readFrame shard cursor r = .ok (c, r') ↔
      ∃ f rest, FrameRules shard r.expectedTotalChunkCount.toNat index f ∧
        cursor.rest = f.bytes ++ rest ∧ c = f.record ∧
        r' = r.advance f.header ⟨rest, cursor.position + f.bytes.length⟩ := by
  unfold readFrame
  simp only [Result.bind_eq_ok, Prod.exists, readExact_ok, checkFrameHeader_ok at_ below place]
  constructor
  · rintro ⟨headerBytes, _, ⟨headerLen, split⟩, h, parsed, u, ⟨shardIndex, here, -, size, -,
      final, full⟩, encoded, sized, u', fits, body, rest, ⟨bodyLen, rfl⟩, result⟩
    obtain ⟨rules, _, same⟩ := (parseChunkFrameHeaderV1_ok _ _).mp parsed
    obtain ⟨_, sized', bodySize⟩ := chunkFrameV1EncodedSize_of_rules rules
    rw [sized] at sized'
    cases sized'
    have header := eq_of_append_length same
      (by rw [headerLen, encodeChunkFrameHeaderV1_length])
    subst header
    cases result
    have frame : FrameRules shard r.expectedTotalChunkCount.toNat index ⟨h, body⟩ :=
      ⟨rules, shardIndex, here, size, final, full, by rw [bodyLen, bodySize]⟩
    refine ⟨⟨h, body⟩, rest, frame, ?_, rfl, ?_⟩
    · rw [← split, Frame.bytes, List.append_assoc]
    · have stop : cursor.position + kChunkFrameHeaderV1Size + (encoded - 40).toNat =
          cursor.position + (Frame.mk h body).bytes.length := by
        rw [Frame.bytes_length frame, bodySize, kChunkFrameHeaderV1Size]
        simp only
        omega
      rw [stop]
  · rintro ⟨f, rest, rules, same, rfl, rfl⟩
    obtain ⟨encoded, sized, bodySize⟩ := chunkFrameV1EncodedSize_of_rules rules.header
    have len := Frame.bytes_length rules
    have whole := inside.payloadEnd
    rw [same, List.length_append] at whole
    have stop := shard.payloadEnd.toNat_lt
    have after : (UInt64.ofNat (cursor.position + kChunkFrameHeaderV1Size)).toNat =
        cursor.position + 40 := by
      rw [UInt64.toNat_ofNat_of_lt' (by simp only [UInt64.size, kChunkFrameHeaderV1Size]; omega),
        kChunkFrameHeaderV1Size]
    refine ⟨encodeChunkFrameHeaderV1 f.header, f.body ++ rest,
      ⟨encodeChunkFrameHeaderV1_length _, by rw [same, Frame.bytes, List.append_assoc]⟩, f.header,
      (parseChunkFrameHeaderV1_ok _ _).mpr ⟨rules.header, [], List.append_nil _⟩, (),
      ⟨rules.shardIndex, rules.chunkIndex, rules.header.tagLen, rules.plaintextLe,
        rules.header.ciphertextLen, rules.final, rules.full⟩, encoded, sized, (), ?_, f.body, rest,
      ⟨by rw [rules.body, bodySize], rfl⟩, ?_⟩
    · unfold checkFrameBody
      rw [if_neg]
      rintro (exceeds | exceeds)
      · rw [gt_iff_lt, UInt64.lt_iff_toNat_lt, after] at exceeds
        omega
      · rw [gt_iff_lt, UInt64.lt_iff_toNat_lt, bodySize, UInt64.toNat_sub_of_le _ _
          (UInt64.le_iff_toNat_le.mpr (by rw [after]; omega)), after] at exceeds
        omega
    · have stop : cursor.position + kChunkFrameHeaderV1Size + (encoded - 40).toNat =
          cursor.position + f.bytes.length := by
        rw [bodySize, len, kChunkFrameHeaderV1Size]
        omega
      rw [stop]
      rfl

def ShardReader.reading (remaining : List ShardInfo) (stream : Option ShardCursor)
    (record : UInt64) (index : Nat) (total : UInt64) : ShardReader :=
  ⟨remaining, stream, record, ((List.range index).map UInt64.ofNat).reverse,
    decide (total.toNat ≤ index), total⟩

section Reading
variable (remaining : List ShardInfo) (stream : Option ShardCursor) (record : UInt64) (index : Nat)
  (total : UInt64)

theorem ShardReader.reading_remaining :
    (reading remaining stream record index total).remaining = remaining := rfl

theorem ShardReader.reading_stream :
    (reading remaining stream record index total).stream = stream := rfl

theorem ShardReader.reading_recordInShard :
    (reading remaining stream record index total).recordInShard = record := rfl

end Reading

theorem ShardReader.reading_at (remaining : List ShardInfo) (stream : Option ShardCursor)
    (record : UInt64) (index : Nat) (total : UInt64) (small : index < 2 ^ 64) :
    (reading remaining stream record index total).At index := by
  refine ⟨fun i => ?_, by simp [reading], rfl⟩
  simp only [reading, List.mem_reverse, List.mem_map, List.mem_range]
  constructor
  · rintro ⟨n, below, rfl⟩
    rwa [UInt64.toNat_ofNat_of_lt' (by simp only [UInt64.size]; omega)]
  · intro below
    exact ⟨i.toNat, below, UInt64.ofNat_toNat⟩

theorem ShardReader.reading_advance {remaining : List ShardInfo} {stream : Option ShardCursor}
    {record total : UInt64} {index : Nat} {shard : ShardInfo} {f : Frame}
    (rules : FrameRules shard total.toNat index f) (below : index < total.toNat)
    (cursor : ShardCursor) :
    (reading remaining stream record index total).advance f.header cursor =
      reading remaining (some cursor) (record + 1) (index + 1) total := by
  have here : f.header.globalChunkIndex = UInt64.ofNat index := by
    rw [← rules.chunkIndex, UInt64.ofNat_toNat]
  have unsaw : decide (total.toNat ≤ index) = false := decide_eq_false (by omega)
  have saw : decide (f.header.frameFlags &&& kChunkFrameFlagFinalChunk ≠ 0) =
      decide (total.toNat ≤ index + 1) :=
    decide_eq_decide.mpr (rules.final.trans (by omega))
  simp only [advance, reading, here, unsaw, saw, Bool.false_or, List.range_succ, List.map_append,
    List.map_cons, List.map_nil, List.reverse_append, List.reverse_cons, List.reverse_nil,
    List.nil_append, List.singleton_append]

def FramesFrom (shard : ShardInfo) (total : Nat) : Nat → List Frame → Prop
  | _, [] => True
  | index, f :: frames => FrameRules shard total index f ∧ FramesFrom shard total (index + 1) frames

theorem Reads.congr {r₁ r₂ : ShardReader}
    (same : ∀ result, readNextChunkRecord files r₁ = .ok result ↔
      readNextChunkRecord files r₂ = .ok result)
    (records : List ChunkRecord) : Reads files r₁ records ↔ Reads files r₂ records := by
  constructor
  · rintro (finished | ⟨first, later⟩)
    · exact .finish ((same _).mp finished)
    · exact .record ((same _).mp first) later
  · rintro (finished | ⟨first, later⟩)
    · exact .finish ((same _).mpr finished)
    · exact .record ((same _).mpr first) later

theorem readNextChunkRecord_frame (shard : ShardInfo) (later : List ShardInfo) (total : UInt64)
    (cursor : ShardCursor) (record : UInt64) (index : Nat) (inside : cursor.In shard)
    (more : record < shard.chunkCount)
    (place : shard.firstChunkIndex.toNat + record.toNat = index) (below : index < total.toNat)
    (next : Option ChunkRecord) (r' : ShardReader) :
    readNextChunkRecord files (.reading (shard :: later) (some cursor) record index total) =
        .ok (next, r') ↔
      ∃ f rest, FrameRules shard total.toNat index f ∧ cursor.rest = f.bytes ++ rest ∧
        next = some f.record ∧ r' = .reading (shard :: later)
          (some ⟨rest, cursor.position + f.bytes.length⟩) (record + 1) (index + 1) total := by
  have small := total.toNat_lt
  have at_ := ShardReader.reading_at (shard :: later) (some cursor) record index total (by omega)
  have placed : (shard.firstChunkIndex + record).toNat = index := by
    rw [UInt64.toNat_add, place, Nat.mod_eq_of_lt (by omega)]
  have reads : readNextChunkRecord files
      (.reading (shard :: later) (some cursor) record index total) = (do
        let (c, r) ← readFrame shard cursor
          (.reading (shard :: later) (some cursor) record index total)
        pure (some c, r)) := by
    rw [readNextChunkRecord, ShardReader.reading_remaining, readFrom, ShardReader.reading_stream,
      openCurrentShard, Result.ok_bind, ShardReader.reading_recordInShard,
      if_neg (UInt64.not_le.mpr more)]
  rw [reads]
  simp only [Result.bind_eq_ok, Prod.exists]
  constructor
  · rintro ⟨c, r, framed, result⟩
    obtain ⟨f, rest, rules, same, rfl, rfl⟩ :=
      (readFrame_ok at_ below placed inside c r).mp framed
    cases result
    exact ⟨f, rest, rules, same, rfl, ShardReader.reading_advance rules below _⟩
  · rintro ⟨f, rest, rules, same, rfl, rfl⟩
    refine ⟨f.record, _, (readFrame_ok at_ below placed inside _ _).mpr
      ⟨f, rest, rules, same, rfl, rfl⟩, ?_⟩
    rw [ShardReader.reading_advance rules below]
    rfl

theorem readNextChunkRecord_close (shard : ShardInfo) (later : List ShardInfo) (total : UInt64)
    (cursor : ShardCursor) (record : UInt64) (index : Nat) (inside : cursor.In shard)
    (done : shard.chunkCount ≤ record) (next : Option ChunkRecord) (r' : ShardReader) :
    readNextChunkRecord files (.reading (shard :: later) (some cursor) record index total) =
        .ok (next, r') ↔
      cursor.rest = [] ∧
        readNextChunkRecord files (.reading later none 0 index total) = .ok (next, r') := by
  have stop := shard.payloadEnd.toNat_lt
  have position : UInt64.ofNat cursor.position = shard.payloadEnd ↔ cursor.rest = [] := by
    rw [← UInt64.toNat_inj, inside.payloadEnd, ← List.length_eq_zero_iff]
    rw [inside.payloadEnd] at stop
    rw [UInt64.toNat_ofNat_of_lt' (by simp only [UInt64.size]; omega)]
    omega
  have reads : readNextChunkRecord files
      (.reading (shard :: later) (some cursor) record index total) = (do
        closeCurrentShard_checkTrailingGarbage shard cursor
        readNextChunkRecord files (.reading later none 0 index total)) := by
    rw [readNextChunkRecord, ShardReader.reading_remaining, readFrom, ShardReader.reading_stream,
      openCurrentShard, Result.ok_bind, ShardReader.reading_recordInShard, if_pos done]
    rfl
  rw [reads, Result.bind_eq_ok]
  unfold closeCurrentShard_checkTrailingGarbage
  simp only [Result.guard_eq_ok, not_not, ne_eq, position]
  constructor
  · rintro ⟨_, ⟨empty, -⟩, rest⟩
    exact ⟨empty, rest⟩
  · rintro ⟨empty, rest⟩
    exact ⟨(), ⟨empty, empty, trivial⟩, rest⟩

theorem reads_shard (shard : ShardInfo) (later : List ShardInfo) (total : UInt64) (left : Nat)
    (cursor : ShardCursor) (record : UInt64) (index : Nat) (records : List ChunkRecord)
    (inside : cursor.In shard) (counted : record.toNat + left = shard.chunkCount.toNat)
    (place : shard.firstChunkIndex.toNat + record.toNat = index)
    (within : index + left ≤ total.toNat) :
    Reads files (.reading (shard :: later) (some cursor) record index total) records ↔
      ∃ frames more, records = frames.map Frame.record ++ more ∧ frames.length = left ∧
        FramesFrom shard total.toNat index frames ∧ cursor.rest = frames.flatMap Frame.bytes ∧
        Reads files (.reading later none 0 (index + left) total) more := by
  induction left generalizing cursor record index records with
  | zero =>
    have done : shard.chunkCount ≤ record := UInt64.le_iff_toNat_le.mpr (by omega)
    have close := readNextChunkRecord_close files shard later total cursor record index inside done
    constructor
    · intro reads
      have empty : cursor.rest = [] := by
        rcases reads with finished | ⟨first, -⟩
        · exact ((close _ _).mp finished).1
        · exact ((close _ _).mp first).1
      refine ⟨[], records, rfl, rfl, trivial, empty, (Reads.congr files ?_ records).mp reads⟩
      rintro ⟨next, r'⟩
      rw [close, and_iff_right empty, Nat.add_zero]
    · rintro ⟨frames, more, rfl, len, -, rest, reads⟩
      obtain rfl := List.length_eq_zero_iff.mp len
      have empty : cursor.rest = [] := rest
      refine (Reads.congr files ?_ more).mpr reads
      rintro ⟨next, r'⟩
      rw [close, and_iff_right empty, Nat.add_zero]
  | succ left ih =>
    have fewer : record < shard.chunkCount := UInt64.lt_iff_toNat_lt.mpr (by omega)
    have frame := readNextChunkRecord_frame files shard later total cursor record index inside
      fewer place (by omega)
    have count := shard.chunkCount.toNat_lt
    have one : (record + 1).toNat = record.toNat + 1 := by
      rw [UInt64.toNat_add, show (1 : UInt64).toNat = 1 from rfl, Nat.mod_eq_of_lt (by omega)]
    have onward : ∀ (f : Frame) (rest : Bytes) (records : List ChunkRecord),
        cursor.rest = f.bytes ++ rest → _ := fun f rest records same =>
      ih ⟨rest, cursor.position + f.bytes.length⟩ (record + 1) (index + 1) records
        ⟨by rw [← inside.1, same, List.length_append]; simp only; omega, inside.2⟩
        (by omega) (by omega) (by omega)
    rw [show index + (left + 1) = index + 1 + left by omega]
    constructor
    · rintro (finished | ⟨first, rest⟩)
      · obtain ⟨_, _, _, _, impossible, _⟩ := (frame _ _).mp finished
        cases impossible
      · obtain ⟨f, rest', rules, same, some_, rfl⟩ := (frame _ _).mp first
        cases some_
        obtain ⟨frames, more, rfl, len, later', cursor', reads⟩ := (onward f rest' _ same).mp rest
        refine ⟨f :: frames, more, rfl, by rw [List.length_cons, len], ⟨rules, later'⟩, ?_, reads⟩
        rw [same, List.flatMap_cons, ← cursor']
    · rintro ⟨frames, more, rfl, len, rules, rest, reads⟩
      obtain ⟨f, frames, rfl⟩ := List.exists_cons_of_length_eq_add_one len
      rw [List.flatMap_cons] at rest
      exact .record ((frame _ _).mpr ⟨f, _, rules.1, rest, rfl, rfl⟩)
        ((onward f _ _ rest).mpr ⟨frames, more, rfl, Nat.succ.inj len, rules.2, rfl, reads⟩)

theorem readNextChunkRecord_open (shard : ShardInfo) (later : List ShardInfo) (record : UInt64)
    (index : Nat) (total : UInt64) (content : Bytes) (here : files shard.path = some content) :
    readNextChunkRecord files (.reading (shard :: later) none record index total) =
      readNextChunkRecord files
        (.reading (shard :: later) (some ⟨content.drop 272, 272⟩) record index total) := by
  rw [readNextChunkRecord, readNextChunkRecord, ShardReader.reading_remaining,
    ShardReader.reading_remaining, readFrom, readFrom, ShardReader.reading_stream,
    ShardReader.reading_stream, openCurrentShard, openCurrentShard, here, Result.ok_bind,
    Result.ok_bind, ShardReader.reading_recordInShard, ShardReader.reading_recordInShard]
  by_cases done : record ≥ shard.chunkCount
  · rw [if_pos done, if_pos done]
    rfl
  · rw [if_neg done, if_neg done]
    rfl

def ShardFile (shard : ShardInfo) : Prop :=
  ∃ payload, files shard.path = some (serializeGlobalPublicHeader shard.globalHeader ++
      serializeShardPublicHeader shard.shardHeader ++ payload) ∧
    payload.length = shard.shardPayloadLen.toNat ∧ 272 + shard.shardPayloadLen.toNat < 2 ^ 64

structure ShardHolds (total : Nat) (shard : ShardInfo) (frames : List Frame) : Prop where
  count : frames.length = shard.chunkCount.toNat
  rules : FramesFrom shard total shard.firstChunkIndex.toNat frames
  content : files shard.path = some (serializeGlobalPublicHeader shard.globalHeader ++
    serializeShardPublicHeader shard.shardHeader ++ frames.flatMap Frame.bytes)

theorem reads_unopened (shard : ShardInfo) (later : List ShardInfo) (total : UInt64)
    (records : List ChunkRecord) (file : ShardFile files shard)
    (within : shard.firstChunkIndex.toNat + shard.chunkCount.toNat ≤ total.toNat) :
    Reads files (.reading (shard :: later) none 0 shard.firstChunkIndex.toNat total) records ↔
      ∃ frames more, records = frames.map Frame.record ++ more ∧
        ShardHolds files total.toNat shard frames ∧
        Reads files (.reading later none 0
          (shard.firstChunkIndex.toNat + shard.chunkCount.toNat) total) more := by
  obtain ⟨payload, here, len, small⟩ := file
  have headers : (serializeGlobalPublicHeader shard.globalHeader ++
      serializeShardPublicHeader shard.shardHeader).length = 272 := by simp; rfl
  have opened := readNextChunkRecord_open files shard later 0 shard.firstChunkIndex.toNat total _
    here
  rw [List.drop_left' headers] at opened
  have whole := reads_shard files shard later total shard.chunkCount.toNat ⟨payload, 272⟩ 0
    shard.firstChunkIndex.toNat records ⟨by rw [← len], small⟩ (Nat.zero_add _) rfl within
  refine (Reads.congr files (fun result => by rw [opened]) records).trans (whole.trans ?_)
  refine exists_congr fun frames => exists_congr fun more => and_congr_right fun _ => ?_
  constructor
  · rintro ⟨count, rules, rfl, reads⟩
    exact ⟨⟨count, rules, here⟩, reads⟩
  · rintro ⟨⟨count, rules, content⟩, reads⟩
    rw [here, Option.some.injEq, List.append_cancel_left_eq] at content
    exact ⟨count, rules, content, reads⟩

theorem endOfArchive_reading (remaining : List ShardInfo) (stream : Option ShardCursor)
    (record total : UInt64) :
    endOfArchive (.reading remaining stream record total.toNat total) = .ok () := by
  have complete := ShardReader.reading_at remaining stream record total.toNat total total.toNat_lt
  have saw : (ShardReader.reading remaining stream record total.toNat total).sawFinalChunk = true :=
    complete.final.trans (decide_eq_true le_rfl)
  unfold endOfArchive
  rw [complete.length, UInt64.ofNat_toNat, if_neg, if_neg]
  · exact fun missing => missing.2 saw
  · exact not_not_intro rfl

/-- Reading a covered range of shards to the end, exactly: every file is its headers and its
frames, and the records are theirs. -/
theorem reads_iff (total : UInt64) (shards : List ShardInfo) (first : Nat)
    (records : List ChunkRecord) (covers : Covers shards first total.toNat)
    (shardFiles : ∀ s ∈ shards, ShardFile files s) :
    Reads files (.reading shards none 0 first total) records ↔
      ∃ groups, records = groups.flatten.map Frame.record ∧
        List.Forall₂ (ShardHolds files total.toNat) shards groups := by
  induction shards generalizing first records with
  | nil =>
    have last : first = total.toNat := covers
    subst last
    have finished : readNextChunkRecord files (.reading [] none 0 total.toNat total) =
        .ok (none, .reading [] none 0 total.toNat total) := by
      rw [readNextChunkRecord, ShardReader.reading_remaining, readFrom, endOfArchive_reading]
      rfl
    constructor
    · rintro (_ | ⟨first, -⟩)
      · exact ⟨[], rfl, .nil⟩
      · rw [finished] at first
        cases first
    · rintro ⟨_, rfl, none⟩
      cases none
      exact .finish finished
  | cons shard shards ih =>
    obtain ⟨rfl, rest⟩ := covers
    rw [reads_unopened files shard shards total records (shardFiles shard List.mem_cons_self)
      rest.le]
    simp only [ih _ _ rest fun s member => shardFiles s (List.mem_cons_of_mem _ member)]
    constructor
    · rintro ⟨frames, _, rfl, holds, groups, rfl, all⟩
      exact ⟨frames :: groups, by rw [List.flatten_cons, List.map_append], .cons holds all⟩
    · rintro ⟨_, rfl, _ | ⟨holds, all⟩⟩
      exact ⟨_, _, by rw [List.flatten_cons, List.map_append], holds, _, rfl, all⟩

/-- The size check leaves no room for a wrap: the payload is as long as its header says. -/
theorem ShardInfoRules.shardFile {blake3 : Bytes → Bytes32} {content : Bytes} {shard : ShardInfo}
    (rules : ShardInfoRules blake3 shard.path content shard)
    (there : files shard.path = some content) (sized : content.length < 2 ^ 64) :
    ShardFile files shard := by
  obtain ⟨payload, rfl⟩ := rules.layout
  have len : (serializeGlobalPublicHeader shard.globalHeader ++
      serializeShardPublicHeader shard.shardHeader ++ payload).length = 272 + payload.length := by
    simp only [List.length_append, serializeGlobalPublicHeader_length,
      serializeShardPublicHeader_length, kGlobalPublicHeaderV1Size, kShardPublicHeaderV1Size]
  have declared := shard.shardHeader.shardPayloadLen.toNat_lt
  have size := congrArg UInt64.toNat (rules.fileSize.symm.trans rules.expectedSize)
  rw [UInt64.toNat_ofNat_of_lt' (by simp only [UInt64.size]; omega), UInt64.toNat_add,
    show kPayloadOffset.toNat = 272 from rfl, len] at size
  rw [len] at sized
  refine ⟨payload, there, ?_, ?_⟩ <;> (rw [ShardInfo.shardPayloadLen]; omega)

theorem FramesFrom.indices {shard : ShardInfo} {total index : Nat} {frames : List Frame}
    (rules : FramesFrom shard total index frames) :
    frames.map (fun f => f.header.globalChunkIndex.toNat) = List.range' index frames.length := by
  induction frames generalizing index with
  | nil => rfl
  | cons f frames ih =>
    rw [List.map_cons, ih rules.2, rules.1.chunkIndex, List.length_cons, List.range'_succ]

theorem FramesFrom.mem {shard : ShardInfo} {total index : Nat} {frames : List Frame}
    (rules : FramesFrom shard total index frames) :
    ∀ f ∈ frames, FrameRules shard total f.header.globalChunkIndex.toNat f := by
  induction frames generalizing index with
  | nil => exact fun f member => absurd member List.not_mem_nil
  | cons f frames ih =>
    intro g member
    rcases List.mem_cons.mp member with rfl | later
    · rw [rules.1.chunkIndex]
      exact rules.1
    · exact ih rules.2 g later

variable {files}

theorem holds_indices {total first : Nat} {shards : List ShardInfo} {groups : List (List Frame)}
    (all : List.Forall₂ (ShardHolds files total) shards groups)
    (covers : Covers shards first total) :
    groups.flatten.map (fun f => f.header.globalChunkIndex.toNat) =
      List.range' first (total - first) := by
  induction all generalizing first with
  | nil =>
    have last : first = total := covers
    rw [last, Nat.sub_self]
    rfl
  | @cons shard frames shards groups holds all ih =>
    obtain ⟨rfl, rest⟩ := covers
    have later := rest.le
    rw [List.flatten_cons, List.map_append, holds.rules.indices, ih rest, holds.count,
      List.range'_append_1]
    congr 1
    omega

theorem holds_mem {total : Nat} {shards : List ShardInfo} {groups : List (List Frame)}
    (all : List.Forall₂ (ShardHolds files total) shards groups) : ∀ f ∈ groups.flatten,
      ∃ shard ∈ shards, FrameRules shard total f.header.globalChunkIndex.toNat f := by
  induction all with
  | nil => exact fun f member => absurd member List.not_mem_nil
  | cons holds all ih =>
    intro f member
    rw [List.flatten_cons, List.mem_append] at member
    rcases member with here | later
    · exact ⟨_, List.mem_cons_self, holds.rules.mem f here⟩
    · obtain ⟨shard, among, rules⟩ := ih f later
      exact ⟨shard, List.mem_cons_of_mem _ among, rules⟩

theorem ShardHolds.payloadLen {total : Nat} {shard : ShardInfo} {frames : List Frame}
    (holds : ShardHolds files total shard frames) (file : ShardFile files shard) :
    shard.shardPayloadLen.toNat =
      (frames.map fun f => 40 + f.header.plaintextLen.toNat + 16).sum := by
  obtain ⟨payload, there, len, -⟩ := file
  have content := holds.content
  rw [there, Option.some.injEq, List.append_cancel_left_eq] at content
  rw [← len, content, List.length_flatMap]
  exact congrArg List.sum (List.map_congr_left fun f member =>
    Frame.bytes_length (holds.rules.mem f member))

theorem ShardReader.start_eq (shards : List ShardInfo) {total : UInt64} (more : 0 < total.toNat) :
    ShardReader.start shards total = .reading shards none 0 0 total := by
  have unsaw : decide (total.toNat ≤ 0) = false := decide_eq_false (Nat.not_le.mpr more)
  rw [ShardReader.reading, unsaw]
  rfl

def ShardReader.left (r : ShardReader) : Nat × Nat :=
  (r.remaining.length,
    (r.remaining.head?.elim 0 fun shard => shard.chunkCount.toNat) - r.recordInShard.toNat)

theorem readFrom_left {shards : List ShardInfo} {r r' : ShardReader} {c : ChunkRecord}
    (here : r.remaining = shards) (read : readFrom files shards r = .ok (some c, r')) :
    Prod.Lex (· < ·) (· < ·) r'.left r.left := by
  induction shards generalizing r with
  | nil =>
    obtain ⟨_, -, finished⟩ := (Result.bind_eq_ok ..).mp read
    cases finished
  | cons shard later ih =>
    rw [readFrom] at read
    obtain ⟨cursor, -, read⟩ := (Result.bind_eq_ok ..).mp read
    by_cases close : r.recordInShard ≥ shard.chunkCount
    · rw [if_pos close] at read
      obtain ⟨_, -, read⟩ := (Result.bind_eq_ok ..).mp read
      have shorter : (r.nextShard later).left.1 < r.left.1 := by
        rw [ShardReader.left, ShardReader.left, here]
        exact Nat.lt_succ_self _
      rcases Prod.lex_def.mp (ih rfl read) with fewer | ⟨same, -⟩
      · exact Prod.lex_def.mpr (.inl (fewer.trans shorter))
      · exact Prod.lex_def.mpr (.inl (same.trans_lt shorter))
    · rw [if_neg close] at read
      obtain ⟨⟨record, next⟩, frame, finished⟩ := (Result.bind_eq_ok ..).mp read
      cases finished
      obtain ⟨h, cursor', rfl⟩ := readFrame_advance frame
      have more := UInt64.lt_iff_toNat_lt.mp (UInt64.not_le.mp close)
      have count := shard.chunkCount.toNat_lt
      have next : (r.recordInShard + 1).toNat = r.recordInShard.toNat + 1 := by
        rw [UInt64.toNat_add, UInt64.toNat_one, Nat.mod_eq_of_lt (by omega)]
      refine Prod.lex_def.mpr (.inr ⟨rfl, ?_⟩)
      rw [ShardReader.left, ShardReader.left, ShardReader.advance, here, next]
      simp only [List.head?_cons, Option.elim_some]
      omega

/-- Reading comes to an end: there is a last record, or an error is thrown. -/
theorem reads_or_fails (r : ShardReader) :
    (∃ e, Fails files r e) ∨ ∃ records, Reads files r records := by
  have wf : WellFounded (Prod.Lex (· < ·) (· < ·) : Nat × Nat → Nat × Nat → Prop) :=
    WellFounded.prod_lex Nat.lt_wfRel.wf Nat.lt_wfRel.wf
  induction h : r.left using wf.induction generalizing r with
  | _ left ih =>
    cases read : readNextChunkRecord files r with
    | error e => exact .inl ⟨e, .error read⟩
    | ok next =>
      obtain ⟨_ | c, r'⟩ := next
      · exact .inr ⟨[], .finish read⟩
      · rcases ih _ (h ▸ readFrom_left rfl read) r' rfl with ⟨e, fails⟩ | ⟨records, reads⟩
        · exact .inl ⟨e, .record read fails⟩
        · exact .inr ⟨_, .record read reads⟩

section Accepted
variable (blake3 : Bytes → Bytes32) (hmacSha256 : Bytes → Bytes → Bytes32)
  (validation : ShardReaderValidation) (authKey : Bytes)

/-- An accepted shard set: its shards are one archive with one header, and their files have the
sizes that their headers declare. -/
theorem accepted_set {inputDir : Bytes} {listing : Option (List Bytes)}
    {shards sorted : List ShardInfo} {total : UInt64}
    (sized : ∀ path content, files path = some content → content.length < 2 ^ 64)
    (found : discover blake3 files inputDir listing = .ok shards)
    (valid : validateShards hmacSha256 validation authKey shards = .ok (sorted, total)) :
    sorted.Perm shards ∧ ∃ g, sorted ≠ [] ∧ (∀ s ∈ sorted, s.globalHeader = g) ∧
      GlobalHeaderRules g ∧ g.globalChunkCount = total ∧ Covers sorted 0 total.toNat ∧
      ∀ s ∈ sorted, ShardFile files s := by
  have known := discover_mem blake3 files found
  have accepted : ∀ s ∈ shards, s.Accepted := fun s member => by
    obtain ⟨_, _, rules⟩ := known s member
    exact rules.accepted
  obtain ⟨perm, set⟩ := (validateShards_ok _ _ _ _ _ _ accepted).mp valid
  obtain ⟨front, atFront⟩ := List.exists_mem_of_ne_nil _ set.nonempty
  obtain ⟨_, _, rules⟩ := known front (perm.mem_iff.mp atFront)
  refine ⟨perm, front.globalHeader, set.nonempty, fun s member => ?_, rules.globalRules,
    set.globalChunkCount front atFront, set.covers, fun s member => ?_⟩
  · exact (accepted s (perm.mem_iff.mp member)).globalHeader_eq
      (accepted front (perm.mem_iff.mp atFront)) (set.checks s member front atFront).globalHeader
  · obtain ⟨content, there, rules⟩ := known s (perm.mem_iff.mp member)
    exact rules.shardFile files there (sized _ _ there)

end Accepted
end Read

def fiveBytesFrame : Frame :=
  ⟨⟨kChunkFrameFlagFinalChunk, 0, 0, 5, 5, 16⟩, [1, 2, 3, 4, 5] ++ List.replicate 16 0⟩

def fiveBytesShard (g : GlobalPublicHeaderV1) : ShardInfo where
  path := ascii "d/a.bin"
  globalHeader := g
  shardHeader := ⟨kShardHeaderV1Magic, 80, 0, 0, 1, 61, zeroMac, 0⟩
  publicHeaderHash := zeroMac
  fileSize := 333

def fiveBytesFiles (g : GlobalPublicHeaderV1) : Files := fun path =>
  if path = ascii "d/a.bin" then
    some (serializeGlobalPublicHeader g ++
      serializeShardPublicHeader (fiveBytesShard g).shardHeader ++ fiveBytesFrame.bytes)
  else none

theorem fiveBytesFiles_reads (g : GlobalPublicHeaderV1) (size : 5 ≤ g.chunkPlainSize) :
    Reads (fiveBytesFiles g) (.start [fiveBytesShard g] 1) [fiveBytesFrame.record] := by
  have final : kChunkFrameFlagFinalChunk &&& kChunkFrameFlagFinalChunk ≠ 0 ↔ 0 + 1 = 1 := by decide
  have flags : kChunkFrameFlagFinalChunk &&& ~~~kChunkFrameKnownFlags = 0 := by decide
  have small : 272 + 61 < 2 ^ 64 := by decide
  have holds : ShardHolds (fiveBytesFiles g) 1 (fiveBytesShard g) [fiveBytesFrame] := by
    refine ⟨rfl, ⟨⟨⟨flags, rfl, rfl⟩, rfl, rfl, size, final, fun no => absurd rfl no, rfl⟩,
      trivial⟩, ?_⟩
    rw [fiveBytesFiles, List.flatMap_singleton]
    exact if_pos rfl
  have file : ShardFile (fiveBytesFiles g) (fiveBytesShard g) :=
    ⟨fiveBytesFrame.bytes, if_pos rfl, rfl, small⟩
  exact (reads_iff (fiveBytesFiles g) 1 [fiveBytesShard g] 0 _ ⟨rfl, rfl⟩
    (List.forall_mem_singleton.mpr file)).mpr ⟨[[fiveBytesFrame]], rfl, .cons holds .nil⟩

end Bseal.Io
