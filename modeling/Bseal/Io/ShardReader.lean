import Bseal.Io.ChunkFrame
import Bseal.Io.ShardHeader

/-! `io/ShardReader`: the headers of one shard file, given its content. -/
namespace Bseal.Io

structure ShardInfo where
  path : Bytes
  globalHeader : GlobalPublicHeaderV1
  shardHeader : ShardPublicHeaderV1
  publicHeaderHash : Bytes32
  fileSize : UInt64

def readExact (content : Bytes) (count : Nat) (path : Bytes) (message : String) :
    Result (Bytes × Bytes) :=
  if content.length < count then .error (.invalidArgument (message ++ ": " ++ text path))
  else .ok (content.take count, content.drop count)

def kPayloadOffset : UInt64 := 272

/-- Parse one shard file; the expected file size is computed in 64 bits. -/
def readShardInfo (blake3 : Bytes → Bytes32) (path content : Bytes) : Result ShardInfo := do
  let fileSize := UInt64.ofNat content.length
  let (globalBytes, rest) ← readExact content 192 path "truncated global public header"
  let globalHeader ← parseGlobalPublicHeader globalBytes
  let (shardBytes, _) ← readExact rest 80 path "truncated shard public header"
  let shardHeader ← parseShardPublicHeader shardBytes
  if shardHeader.shardIndex ≥ globalHeader.shardCount then
    .error (.invalidArgument ("shard_index " ++ toString shardHeader.shardIndex ++
      " >= shard_count " ++ toString globalHeader.shardCount ++ ": " ++ text path))
  else
    let expectedFileSize := kPayloadOffset + shardHeader.shardPayloadLen
    if fileSize ≠ expectedFileSize then
      .error (.invalidArgument ("file size mismatch (expected " ++ toString expectedFileSize ++
        ", got " ++ toString fileSize ++ "): " ++ text path))
    else
      .ok ⟨path, globalHeader, shardHeader,
        computePublicHeaderHash blake3 globalHeader shardHeader, fileSize⟩

structure ShardInfoRules (blake3 : Bytes → Bytes32) (path content : Bytes) (info : ShardInfo) :
    Prop where
  path : info.path = path
  globalMagic : info.globalHeader.magic = kGlobalHeaderV1Magic
  globalRules : GlobalHeaderRules info.globalHeader
  shardMagic : info.shardHeader.shardMagic = kShardHeaderV1Magic
  shardRules : ShardHeaderRules info.shardHeader
  layout : ∃ payload, serializeGlobalPublicHeader info.globalHeader ++
    serializeShardPublicHeader info.shardHeader ++ payload = content
  shardIndex : info.shardHeader.shardIndex < info.globalHeader.shardCount
  hash : info.publicHeaderHash =
    computePublicHeaderHash blake3 info.globalHeader info.shardHeader
  fileSize : info.fileSize = UInt64.ofNat content.length
  expectedSize : info.fileSize = kPayloadOffset + info.shardHeader.shardPayloadLen

theorem readExact_ok (content : Bytes) (count : Nat) (path : Bytes) (message : String)
    (front back : Bytes) :
    readExact content count path message = .ok (front, back) ↔
      front.length = count ∧ front ++ back = content := by
  unfold readExact
  by_cases short : content.length < count
  · rw [if_pos short]
    constructor
    · intro h
      cases h
    · rintro ⟨len, rfl⟩
      simp only [List.length_append] at short
      omega
  · rw [if_neg short, Except.ok.injEq, Prod.mk.injEq]
    constructor
    · rintro ⟨rfl, rfl⟩
      exact ⟨by rw [List.length_take]; omega, List.take_append_drop ..⟩
    · rintro ⟨rfl, rfl⟩
      exact ⟨List.take_left' rfl, List.drop_left' rfl⟩

theorem eq_of_append_length {a rest b : Bytes} (same : a ++ rest = b)
    (len : b.length = a.length) : a = b := by
  have none : rest = [] := by
    have total := congrArg List.length same
    rw [List.length_append] at total
    exact List.length_eq_zero_iff.mp (by omega)
  rw [← same, none, List.append_nil]

theorem readShardInfo_ok (blake3 : Bytes → Bytes32) (path content : Bytes) (info : ShardInfo) :
    readShardInfo blake3 path content = .ok info ↔ ShardInfoRules blake3 path content info := by
  unfold readShardInfo
  simp only [Result.bind_eq_ok, Prod.exists, readExact_ok, parseGlobalPublicHeader_ok,
    parseShardPublicHeader_ok]
  constructor
  · rintro ⟨front, _, ⟨glen, rfl⟩, g, ⟨gmagic, grules, _, gsame⟩, middle, payload, ⟨slen, rfl⟩, s,
      ⟨⟨smagic, srules⟩, _, ssame⟩, checked⟩
    have gbytes := eq_of_append_length gsame (by rw [glen, serializeGlobalPublicHeader_length]; rfl)
    have sbytes := eq_of_append_length ssame (by rw [slen, serializeShardPublicHeader_length]; rfl)
    by_cases index : s.shardIndex ≥ g.shardCount
    · rw [if_pos index] at checked
      cases checked
    rw [if_neg index] at checked
    by_cases size : UInt64.ofNat (front ++ (middle ++ payload)).length ≠
        kPayloadOffset + s.shardPayloadLen
    · rw [if_pos size] at checked
      cases checked
    rw [if_neg size] at checked
    cases checked
    refine ⟨rfl, gmagic, grules, smagic, srules, ⟨payload, ?_⟩, ?_, rfl, rfl, not_not.mp size⟩
    · rw [List.append_assoc, gbytes, sbytes]
    · exact UInt32.not_le.mp index
  · rintro ⟨rfl, gmagic, grules, smagic, srules, ⟨payload, rfl⟩, index, hash, fileSize, size⟩
    refine ⟨serializeGlobalPublicHeader info.globalHeader, _, ⟨by simp; rfl, ?_⟩,
      info.globalHeader, ⟨gmagic, grules, [], by simp⟩,
      serializeShardPublicHeader info.shardHeader, payload, ⟨by simp; rfl, rfl⟩,
      info.shardHeader, ⟨⟨smagic, srules⟩, [], by simp⟩, ?_⟩
    · rw [List.append_assoc]
    · rw [if_neg (UInt32.not_le.mpr index), ← fileSize, if_neg (not_not_intro size), ← hash]

end Bseal.Io
