import Bseal.Io.GlobalHeader

/-! `ShardPublicHeaderV1` of `io/ShardFrame`: the 80 bytes after the global header,
and the two digests over both headers. The hash and the MAC are taken as functions. -/
namespace Bseal.Io
open ByteCodec

def kShardHeaderV1Magic : List.Vector UInt8 8 := ⟨ascii "BSEAL-S1", rfl⟩

/-- The domain strings end with their NUL byte. -/
def kPublicHeaderHashDomain : Bytes := ascii "BSEAL public header hash v1" ++ [0]
def kHeaderMacDomain : Bytes := ascii "BSEAL header mac v1" ++ [0]

structure ShardPublicHeaderV1 where
  shardMagic : List.Vector UInt8 8
  shardHeaderLen : UInt32
  shardIndex : UInt32
  firstGlobalChunkIndex : UInt64
  shardChunkCount : UInt64
  shardPayloadLen : UInt64
  headerMac : Bytes32
  reserved0 : UInt64
  deriving DecidableEq

def serializeShardPublicHeader (h : ShardPublicHeaderV1) : Bytes :=
  putArray h.shardMagic ++ putU32 h.shardHeaderLen ++ putU32 h.shardIndex ++
  putU64 h.firstGlobalChunkIndex ++ putU64 h.shardChunkCount ++ putU64 h.shardPayloadLen ++
  putArray h.headerMac ++ putU64 h.reserved0

@[simp] theorem serializeShardPublicHeader_length (h : ShardPublicHeaderV1) :
    (serializeShardPublicHeader h).length = kShardPublicHeaderV1Size := by
  unfold serializeShardPublicHeader kShardPublicHeaderV1Size
  simp only [List.length_append, putU32_length, putU64_length, putArray_length]

def zeroMac : Bytes32 := List.Vector.replicate 32 0

def serializeShardPublicHeaderForMac (h : ShardPublicHeaderV1) : Bytes :=
  serializeShardPublicHeader { h with headerMac := zeroMac }

def truncatedShardHeader : Failure := .invalidArgument "truncated shard public header"

structure ShardHeaderRules (h : ShardPublicHeaderV1) : Prop where
  shardHeaderLen : h.shardHeaderLen = 80
  shardChunkCount : h.shardChunkCount ≠ 0
  shardPayloadLen : h.shardPayloadLen ≠ 0
  reserved0 : h.reserved0 = 0

def rejectShardHeader (h : ShardPublicHeaderV1) : Decoder Failure Unit := do
  reject (h.shardHeaderLen ≠ 80) "shard_header_len mismatch"
  reject (h.shardChunkCount = 0) "shard_chunk_count is zero"
  reject (h.shardPayloadLen = 0) "shard_payload_len is zero"
  reject (h.reserved0 ≠ 0) "non-zero reserved0 in shard header"

def readShardHeader : Decoder Failure ShardPublicHeaderV1 := do
  let e := truncatedShardHeader
  let shardMagic ← takeArray e 8
  reject (shardMagic ≠ kShardHeaderV1Magic) "wrong shard header magic"
  let shardHeaderLen ← takeU32 e
  let shardIndex ← takeU32 e
  let firstGlobalChunkIndex ← takeU64 e
  let shardChunkCount ← takeU64 e
  let shardPayloadLen ← takeU64 e
  let headerMac ← takeArray e 32
  let reserved0 ← takeU64 e
  let h : ShardPublicHeaderV1 := ⟨shardMagic, shardHeaderLen, shardIndex,
    firstGlobalChunkIndex, shardChunkCount, shardPayloadLen, headerMac, reserved0⟩
  rejectShardHeader h
  pure h

def parseShardPublicHeader (bytes : Bytes) : Result ShardPublicHeaderV1 :=
  decodeFront truncatedShardHeader kShardPublicHeaderV1Size readShardHeader bytes

theorem rejectShardHeader_run_ok (h : ShardPublicHeaderV1) (u : Unit) (s t : Bytes) :
    (rejectShardHeader h).run s = .ok (u, t) ↔ ShardHeaderRules h ∧ s = t := by
  simp only [rejectShardHeader, reject_bind_run_ok, reject_run_ok, ne_eq, not_not]
  constructor
  · rintro ⟨len, chunks, payload, r0, rfl⟩
    exact ⟨⟨len, chunks, payload, r0⟩, rfl⟩
  · rintro ⟨rules, rfl⟩
    exact ⟨rules.shardHeaderLen, rules.shardChunkCount, rules.shardPayloadLen, rules.reserved0,
      rfl⟩

theorem readShardHeader_run_ok (h : ShardPublicHeaderV1) (s t : Bytes) :
    readShardHeader.run s = .ok (h, t) ↔
      (h.shardMagic = kShardHeaderV1Magic ∧ ShardHeaderRules h) ∧
        serializeShardPublicHeader h ++ t = s := by
  unfold readShardHeader
  simp only [bind_run_ok, takeArray_run_ok, takeU32_run_ok, takeU64_run_ok, reject_run_ok,
    rejectShardHeader_run_ok, pure_run_ok, not_not, ne_eq]
  constructor
  · rintro ⟨_, _, rfl, _, _, ⟨magic, rfl⟩, _, _, rfl, _, _, rfl, _, _, rfl, parsed⟩
    obtain ⟨_, _, rfl, _, _, rfl, _, _, rfl, _, _, rfl, _, _, ⟨rules, rfl⟩, rfl, rfl⟩ := parsed
    refine ⟨⟨magic, rules⟩, ?_⟩
    unfold serializeShardPublicHeader
    simp only [List.append_assoc]
  · rintro ⟨⟨magic, rules⟩, rfl⟩
    unfold serializeShardPublicHeader
    simp only [List.append_assoc]
    refine ⟨_, _, rfl, (), _, ⟨magic, rfl⟩, _, _, rfl, _, _, rfl, _, _, rfl, ?_⟩
    exact ⟨_, _, rfl, _, _, rfl, _, _, rfl, _, _, rfl, (), _, ⟨rules, rfl⟩, rfl, rfl⟩

theorem parseShardPublicHeader_ok (bytes : Bytes) (h : ShardPublicHeaderV1) :
    parseShardPublicHeader bytes = .ok h ↔
      (h.shardMagic = kShardHeaderV1Magic ∧ ShardHeaderRules h) ∧
        ∃ rest, serializeShardPublicHeader h ++ rest = bytes :=
  decodeFront_ok (fun a _ => serializeShardPublicHeader_length a) readShardHeader_run_ok h bytes

section Digests
variable (blake3 : Bytes → Bytes32) (hmacSha256 : Bytes → Bytes → Bytes32)

def computePublicHeaderHash (g : GlobalPublicHeaderV1) (s : ShardPublicHeaderV1) : Bytes32 :=
  blake3 (kPublicHeaderHashDomain ++ serializeGlobalPublicHeader g ++
    serializeShardPublicHeaderForMac s)

def computeShardHeaderMac (key : Bytes) (g : GlobalPublicHeaderV1) (s : ShardPublicHeaderV1) :
    Result Bytes32 :=
  if key.isEmpty then .error (.invalidArgument "header authentication key is empty")
  else .ok (hmacSha256 key (kHeaderMacDomain ++ serializeGlobalPublicHeader g ++
    serializeShardPublicHeaderForMac s))

def verifyShardHeaderMac (key : Bytes) (g : GlobalPublicHeaderV1) (s : ShardPublicHeaderV1) :
    Result Bool := do
  let expected ← computeShardHeaderMac hmacSha256 key g s
  pure (expected = s.headerMac)

theorem verifyShardHeaderMac_computed (key : Bytes) (g : GlobalPublicHeaderV1)
    (s : ShardPublicHeaderV1) (mac : Bytes32)
    (computed : computeShardHeaderMac hmacSha256 key g s = .ok mac) :
    verifyShardHeaderMac hmacSha256 key g { s with headerMac := mac } = .ok true := by
  have same : computeShardHeaderMac hmacSha256 key g { s with headerMac := mac } = .ok mac :=
    computed
  unfold verifyShardHeaderMac
  rw [same]
  simp [bind, Except.bind, pure, Except.pure]

def shardHeaderMac (key : Bytes) (g : GlobalPublicHeaderV1) (s : ShardPublicHeaderV1) : Bytes32 :=
  hmacSha256 key (kHeaderMacDomain ++ serializeGlobalPublicHeader g ++
    serializeShardPublicHeaderForMac s)

theorem computeShardHeaderMac_of_key (key : Bytes) (g : GlobalPublicHeaderV1)
    (s : ShardPublicHeaderV1) (there : key ≠ []) :
    computeShardHeaderMac hmacSha256 key g s = .ok (shardHeaderMac hmacSha256 key g s) := by
  unfold computeShardHeaderMac
  rw [if_neg (by simpa using there)]
  rfl

def ShardPublicHeaderV1.signed (key : Bytes) (g : GlobalPublicHeaderV1)
    (s : ShardPublicHeaderV1) : ShardPublicHeaderV1 :=
  { s with headerMac := shardHeaderMac hmacSha256 key g s }

end Digests
end Bseal.Io
