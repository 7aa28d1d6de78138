import Bseal.Common.Errors

/-! `GlobalPublicHeaderV1` of `io/ShardFrame`: the 192 bytes every shard file
starts with. Fields have the widths of the source, so a header value is exactly
what 192 bytes can say, and the decoder's rejection rules stand in source order. -/
namespace Bseal.Io
open ByteCodec

def kGlobalHeaderV1Magic : List.Vector UInt8 8 := ⟨ascii "BSEAL-F1", rfl⟩
def kGlobalPublicHeaderV1Size : Nat := 192
def kShardPublicHeaderV1Size : Nat := 80
def kChunkFrameHeaderV1Size : Nat := 40

def kAeadAlgIdXChaCha20Poly1305 : UInt16 := 1
def kAeadAlgIdAes256Gcm : UInt16 := 2
def kKdfAlgIdArgon2idHkdf : UInt16 := 1
def kHashAlgIdBlake3 : UInt16 := 1
def kMacAlgIdHmacSha256 : UInt16 := 1

structure GlobalPublicHeaderV1 where
  magic : List.Vector UInt8 8
  formatMajor : UInt16
  formatMinor : UInt16
  globalHeaderLen : UInt32
  shardHeaderLen : UInt32
  frameHeaderLen : UInt16
  globalFlags : UInt16
  archiveId : Bytes32
  aeadAlgId : UInt16
  kdfAlgId : UInt16
  hashAlgId : UInt16
  macAlgId : UInt16
  kdfSalt : Bytes32
  argon2Version : UInt32
  argon2MemoryKib : UInt32
  argon2Iterations : UInt32
  argon2Parallelism : UInt32
  chunkPlainSize : UInt32
  shardCount : UInt32
  globalChunkCount : UInt64
  paddedPlaintextSize : UInt64
  finalPlaintextChunkLen : UInt32
  paddingPolicyId : UInt16
  reserved0 : UInt16
  paddingPolicyValue : UInt64
  maxShardPayloadLen : UInt64
  requiredFeatureFlags : UInt64
  reserved1 : List.Vector UInt8 24
  deriving DecidableEq

def isPowerOfTwo32 (v : UInt32) : Bool := v ≠ 0 && (v &&& (v - 1)) == 0

def isPowerOfTwo64 (v : UInt64) : Bool := v ≠ 0 && (v &&& (v - 1)) == 0

/-- The source's check that the output has 192 bytes never fires: see the length below. -/
def serializeGlobalPublicHeader (h : GlobalPublicHeaderV1) : Bytes :=
  putArray h.magic ++ putU16 h.formatMajor ++ putU16 h.formatMinor ++
  putU32 h.globalHeaderLen ++ putU32 h.shardHeaderLen ++ putU16 h.frameHeaderLen ++
  putU16 h.globalFlags ++ putArray h.archiveId ++
  putU16 h.aeadAlgId ++ putU16 h.kdfAlgId ++ putU16 h.hashAlgId ++ putU16 h.macAlgId ++
  putArray h.kdfSalt ++
  putU32 h.argon2Version ++ putU32 h.argon2MemoryKib ++ putU32 h.argon2Iterations ++
  putU32 h.argon2Parallelism ++
  putU32 h.chunkPlainSize ++ putU32 h.shardCount ++ putU64 h.globalChunkCount ++
  putU64 h.paddedPlaintextSize ++ putU32 h.finalPlaintextChunkLen ++
  putU16 h.paddingPolicyId ++ putU16 h.reserved0 ++
  putU64 h.paddingPolicyValue ++ putU64 h.maxShardPayloadLen ++
  putU64 h.requiredFeatureFlags ++ putArray h.reserved1

@[simp] theorem serializeGlobalPublicHeader_length (h : GlobalPublicHeaderV1) :
    (serializeGlobalPublicHeader h).length = kGlobalPublicHeaderV1Size := by
  unfold serializeGlobalPublicHeader kGlobalPublicHeaderV1Size
  simp only [List.length_append, putU16_length, putU32_length, putU64_length, putArray_length]

/-- The padded size as `parse_global_public_header` recomputes it, in 64-bit arithmetic. -/
def expectedPaddedSize (h : GlobalPublicHeaderV1) : UInt64 :=
  (h.globalChunkCount - 1) * h.chunkPlainSize.toUInt64 + h.finalPlaintextChunkLen.toUInt64

def truncatedGlobalHeader : Failure := .invalidArgument "truncated global public header"

def reject (c : Prop) [Decidable c] (message : String) : Decoder Failure Unit :=
  rejectIf c (.invalidArgument message)

@[simp] theorem reject_run_ok (c : Prop) [Decidable c] (message : String) (u : Unit)
    (s t : Bytes) : (reject c message).run s = .ok (u, t) ↔ ¬c ∧ s = t :=
  rejectIf_run_ok c _ u s t

theorem reject_bind_run_ok {β : Type} (c : Prop) [Decidable c] (message : String)
    (f : Unit → Decoder Failure β) (s : Bytes) (r : β × Bytes) :
    (reject c message >>= f).run s = .ok r ↔ ¬c ∧ (f ()).run s = .ok r :=
  rejectIf_bind_run_ok c _ f s r

/-- The rules every non-`none` padding policy shares: a full final chunk and a size that is a
multiple of the chunk size. -/
def rejectPartialChunk (h : GlobalPublicHeaderV1) (policy : String) : Decoder Failure Unit := do
  reject (h.paddedPlaintextSize % h.chunkPlainSize.toUInt64 ≠ 0)
    ("padded_plaintext_size is not a multiple of chunk_plain_size for '" ++ policy ++
      "' padding policy")
  reject (h.finalPlaintextChunkLen ≠ h.chunkPlainSize)
    ("final_plaintext_chunk_len must equal chunk_plain_size for '" ++ policy ++
      "' padding policy")

def rejectPaddingPolicy (h : GlobalPublicHeaderV1) : Decoder Failure Unit :=
  if h.paddingPolicyId = 0 then
    reject (h.paddingPolicyValue ≠ 0) "padding_policy_value must be 0 for 'none' padding policy"
  else if h.paddingPolicyId = 1 then do
    reject (h.paddingPolicyValue ≠ 0) "padding_policy_value must be 0 for 'chunk' padding policy"
    rejectPartialChunk h "chunk"
  else if h.paddingPolicyId = 2 then do
    reject (h.paddingPolicyValue ≠ 0) "padding_policy_value must be 0 for 'power2' padding policy"
    reject (¬isPowerOfTwo64 h.paddedPlaintextSize)
      "padded_plaintext_size is not a power of two for 'power2' padding policy"
    rejectPartialChunk h "power2"
  else if h.paddingPolicyId = 3 then do
    reject (h.paddingPolicyValue ≠ h.paddedPlaintextSize)
      "padding_policy_value must equal padded_plaintext_size for 'fixed-size' padding policy"
    rejectPartialChunk h "fixed-size"
  else
    throw (.invalidArgument ("unsupported padding_policy_id: " ++ toString h.paddingPolicyId))

/-- The rejection rules of `parse_global_public_header` after the magic, in source order. -/
def rejectGlobalHeader (h : GlobalPublicHeaderV1) : Decoder Failure Unit := do
  reject (h.formatMajor ≠ 1 ∨ h.formatMinor ≠ 0) "unsupported format version"
  reject (h.globalHeaderLen ≠ 192) "global_header_len mismatch"
  reject (h.shardHeaderLen ≠ 80) "shard_header_len mismatch in global header"
  reject (h.frameHeaderLen ≠ 40) "frame_header_len mismatch in global header"
  reject (h.globalFlags ≠ 0) "non-zero global_flags"
  reject (h.aeadAlgId ≠ kAeadAlgIdXChaCha20Poly1305 ∧ h.aeadAlgId ≠ kAeadAlgIdAes256Gcm)
    "unknown aead_alg_id"
  reject (h.kdfAlgId ≠ kKdfAlgIdArgon2idHkdf) "unknown kdf_alg_id"
  reject (h.hashAlgId ≠ kHashAlgIdBlake3) "unknown hash_alg_id"
  reject (h.macAlgId ≠ kMacAlgIdHmacSha256) "unknown mac_alg_id"
  reject (h.shardCount = 0) "shard_count is zero"
  reject (h.globalChunkCount = 0) "global_chunk_count is zero"
  reject (h.paddedPlaintextSize = 0) "padded_plaintext_size is zero"
  reject (¬isPowerOfTwo32 h.chunkPlainSize ∨ h.chunkPlainSize < 65536 ∨
      h.chunkPlainSize > 67108864)
    "chunk_plain_size is not a power of two in [65536, 67108864]"
  reject (h.finalPlaintextChunkLen = 0) "final_plaintext_chunk_len is zero"
  reject (h.finalPlaintextChunkLen > h.chunkPlainSize)
    "final_plaintext_chunk_len > chunk_plain_size"
  reject (h.paddedPlaintextSize ≠ expectedPaddedSize h)
    "padded_plaintext_size is inconsistent with chunk counts"
  reject (h.shardCount.toUInt64 > h.globalChunkCount) "shard_count > global_chunk_count"
  rejectPaddingPolicy h
  reject (h.maxShardPayloadLen = 0) "max_shard_payload_len is zero"
  reject (h.requiredFeatureFlags ≠ 0) "non-zero required_feature_flags"
  reject (h.reserved0 ≠ 0) "non-zero reserved0 in global header"
  reject (¬allZero (putArray h.reserved1)) "non-zero reserved1 in global header"

def readGlobalHeader : Decoder Failure GlobalPublicHeaderV1 := do
  let e := truncatedGlobalHeader
  let magic ← takeArray e 8
  reject (magic ≠ kGlobalHeaderV1Magic)
    "wrong global header magic (old BSEAL01\\0 format is not supported)"
  let formatMajor ← takeU16 e
  let formatMinor ← takeU16 e
  let globalHeaderLen ← takeU32 e
  let shardHeaderLen ← takeU32 e
  let frameHeaderLen ← takeU16 e
  let globalFlags ← takeU16 e
  let archiveId ← takeArray e 32
  let aeadAlgId ← takeU16 e
  let kdfAlgId ← takeU16 e
  let hashAlgId ← takeU16 e
  let macAlgId ← takeU16 e
  let kdfSalt ← takeArray e 32
  let argon2Version ← takeU32 e
  let argon2MemoryKib ← takeU32 e
  let argon2Iterations ← takeU32 e
  let argon2Parallelism ← takeU32 e
  let chunkPlainSize ← takeU32 e
  let shardCount ← takeU32 e
  let globalChunkCount ← takeU64 e
  let paddedPlaintextSize ← takeU64 e
  let finalPlaintextChunkLen ← takeU32 e
  let paddingPolicyId ← takeU16 e
  let reserved0 ← takeU16 e
  let paddingPolicyValue ← takeU64 e
  let maxShardPayloadLen ← takeU64 e
  let requiredFeatureFlags ← takeU64 e
  let reserved1 ← takeArray e 24
  let h : GlobalPublicHeaderV1 := ⟨magic, formatMajor, formatMinor, globalHeaderLen,
    shardHeaderLen, frameHeaderLen, globalFlags, archiveId, aeadAlgId, kdfAlgId, hashAlgId,
    macAlgId, kdfSalt, argon2Version, argon2MemoryKib, argon2Iterations, argon2Parallelism,
    chunkPlainSize, shardCount, globalChunkCount, paddedPlaintextSize, finalPlaintextChunkLen,
    paddingPolicyId, reserved0, paddingPolicyValue, maxShardPayloadLen, requiredFeatureFlags,
    reserved1⟩
  rejectGlobalHeader h
  pure h

def parseGlobalPublicHeader (bytes : Bytes) : Result GlobalPublicHeaderV1 :=
  decodeFront truncatedGlobalHeader kGlobalPublicHeaderV1Size readGlobalHeader bytes

def FullChunks (h : GlobalPublicHeaderV1) : Prop :=
  h.paddedPlaintextSize % h.chunkPlainSize.toUInt64 = 0 ∧
    h.finalPlaintextChunkLen = h.chunkPlainSize

inductive PaddingPolicyRules (h : GlobalPublicHeaderV1) : Prop where
  | none (id : h.paddingPolicyId = 0) (value : h.paddingPolicyValue = 0)
  | chunk (id : h.paddingPolicyId = 1) (value : h.paddingPolicyValue = 0) (full : FullChunks h)
  | power2 (id : h.paddingPolicyId = 2) (value : h.paddingPolicyValue = 0)
      (power : isPowerOfTwo64 h.paddedPlaintextSize) (full : FullChunks h)
  | fixedSize (id : h.paddingPolicyId = 3) (value : h.paddingPolicyValue = h.paddedPlaintextSize)
      (full : FullChunks h)

/-- What the rejection rules leave: the conditions a header must meet to be accepted. -/
structure GlobalHeaderRules (h : GlobalPublicHeaderV1) : Prop where
  formatVersion : h.formatMajor = 1 ∧ h.formatMinor = 0
  globalHeaderLen : h.globalHeaderLen = 192
  shardHeaderLen : h.shardHeaderLen = 80
  frameHeaderLen : h.frameHeaderLen = 40
  globalFlags : h.globalFlags = 0
  aeadAlgId : h.aeadAlgId = kAeadAlgIdXChaCha20Poly1305 ∨ h.aeadAlgId = kAeadAlgIdAes256Gcm
  kdfAlgId : h.kdfAlgId = kKdfAlgIdArgon2idHkdf
  hashAlgId : h.hashAlgId = kHashAlgIdBlake3
  macAlgId : h.macAlgId = kMacAlgIdHmacSha256
  shardCount : h.shardCount ≠ 0
  globalChunkCount : h.globalChunkCount ≠ 0
  paddedPlaintextSize : h.paddedPlaintextSize ≠ 0
  chunkPlainSize : isPowerOfTwo32 h.chunkPlainSize ∧ 65536 ≤ h.chunkPlainSize ∧
    h.chunkPlainSize ≤ 67108864
  finalPos : h.finalPlaintextChunkLen ≠ 0
  finalLe : h.finalPlaintextChunkLen ≤ h.chunkPlainSize
  sizeConsistent : h.paddedPlaintextSize = expectedPaddedSize h
  shardsLe : h.shardCount.toUInt64 ≤ h.globalChunkCount
  paddingPolicy : PaddingPolicyRules h
  maxShardPayloadLen : h.maxShardPayloadLen ≠ 0
  requiredFeatureFlags : h.requiredFeatureFlags = 0
  reserved0 : h.reserved0 = 0
  reserved1 : allZero (putArray h.reserved1)

theorem rejectPartialChunk_run_ok (h : GlobalPublicHeaderV1) (policy : String) (u : Unit)
    (s t : Bytes) :
    (rejectPartialChunk h policy).run s = .ok (u, t) ↔ FullChunks h ∧ s = t := by
  simp only [rejectPartialChunk, reject_bind_run_ok, reject_run_ok, FullChunks, not_not, ne_eq,
    and_assoc]

theorem rejectPaddingPolicy_run_ok (h : GlobalPublicHeaderV1) (u : Unit) (s t : Bytes) :
    (rejectPaddingPolicy h).run s = .ok (u, t) ↔ PaddingPolicyRules h ∧ s = t := by
  unfold rejectPaddingPolicy
  constructor
  · split_ifs with none chunk power2 fixedSize
    · rw [reject_run_ok]
      rintro ⟨value, rfl⟩
      exact ⟨.none none (not_not.mp value), rfl⟩
    · rw [reject_bind_run_ok, rejectPartialChunk_run_ok]
      rintro ⟨value, full, rfl⟩
      exact ⟨.chunk chunk (not_not.mp value) full, rfl⟩
    · rw [reject_bind_run_ok, reject_bind_run_ok, rejectPartialChunk_run_ok]
      rintro ⟨value, power, full, rfl⟩
      exact ⟨.power2 power2 (not_not.mp value) (not_not.mp power) full, rfl⟩
    · rw [reject_bind_run_ok, rejectPartialChunk_run_ok]
      rintro ⟨value, full, rfl⟩
      exact ⟨.fixedSize fixedSize (not_not.mp value) full, rfl⟩
    · intro impossible; cases impossible
  · rintro ⟨rules, rfl⟩
    cases rules with
    | none id value =>
      rw [if_pos id, reject_run_ok]
      exact ⟨not_not.mpr value, rfl⟩
    | chunk id value full =>
      rw [if_neg (by simp [id]), if_pos id, reject_bind_run_ok, rejectPartialChunk_run_ok]
      exact ⟨not_not.mpr value, full, rfl⟩
    | power2 id value power full =>
      rw [if_neg (by simp [id]), if_neg (by simp [id]), if_pos id, reject_bind_run_ok,
        reject_bind_run_ok, rejectPartialChunk_run_ok]
      exact ⟨not_not.mpr value, not_not.mpr power, full, rfl⟩
    | fixedSize id value full =>
      rw [if_neg (by simp [id]), if_neg (by simp [id]), if_neg (by simp [id]), if_pos id,
        reject_bind_run_ok, rejectPartialChunk_run_ok]
      exact ⟨not_not.mpr value, full, rfl⟩

theorem rejectPaddingPolicy_bind_run_ok {β : Type} (h : GlobalPublicHeaderV1)
    (f : Unit → Decoder Failure β) (s : Bytes) (r : β × Bytes) :
    (rejectPaddingPolicy h >>= f).run s = .ok r ↔
      PaddingPolicyRules h ∧ (f ()).run s = .ok r := by
  simp only [bind_run_ok, rejectPaddingPolicy_run_ok]
  constructor
  · rintro ⟨_, _, ⟨rules, rfl⟩, rest⟩
    exact ⟨rules, rest⟩
  · rintro ⟨rules, rest⟩
    exact ⟨(), s, ⟨rules, rfl⟩, rest⟩

theorem rejectGlobalHeader_run_ok (h : GlobalPublicHeaderV1) (u : Unit) (s t : Bytes) :
    (rejectGlobalHeader h).run s = .ok (u, t) ↔ GlobalHeaderRules h ∧ s = t := by
  simp only [rejectGlobalHeader, reject_bind_run_ok, rejectPaddingPolicy_bind_run_ok,
    reject_run_ok, not_or, not_and, not_not, ne_eq, UInt32.not_lt, gt_iff_lt, UInt64.not_lt]
  constructor
  · rintro ⟨version, globalLen, shardLen, frameLen, flags, aead, kdf, hash, mac, shards, chunks,
      padded, chunkSize, finalPos, finalLe, size, shardsLe, policy, payload, features, r0, r1,
      rfl⟩
    exact ⟨⟨version, globalLen, shardLen, frameLen, flags, or_iff_not_imp_left.mpr aead, kdf,
      hash, mac, shards, chunks, padded, chunkSize, finalPos,
      finalLe, size, shardsLe, policy, payload, features, r0, r1⟩, rfl⟩
  · rintro ⟨rules, rfl⟩
    exact ⟨rules.formatVersion, rules.globalHeaderLen, rules.shardHeaderLen,
      rules.frameHeaderLen, rules.globalFlags, or_iff_not_imp_left.mp rules.aeadAlgId,
      rules.kdfAlgId, rules.hashAlgId, rules.macAlgId, rules.shardCount, rules.globalChunkCount,
      rules.paddedPlaintextSize, rules.chunkPlainSize, rules.finalPos, rules.finalLe,
      rules.sizeConsistent, rules.shardsLe, rules.paddingPolicy,
      rules.maxShardPayloadLen, rules.requiredFeatureFlags, rules.reserved0, rules.reserved1,
      rfl⟩

theorem readGlobalHeader_run_ok (h : GlobalPublicHeaderV1) (s t : Bytes) :
    readGlobalHeader.run s = .ok (h, t) ↔
      h.magic = kGlobalHeaderV1Magic ∧ GlobalHeaderRules h ∧
        serializeGlobalPublicHeader h ++ t = s := by
  unfold readGlobalHeader
  simp only [bind_run_ok, takeArray_run_ok, takeU16_run_ok, takeU32_run_ok, takeU64_run_ok,
    reject_run_ok, rejectGlobalHeader_run_ok, pure_run_ok, not_not, ne_eq]
  constructor
  · rintro ⟨_, _, rfl, _, _, ⟨magic, rfl⟩, _, _, rfl, _, _, rfl, _, _, rfl, _, _, rfl, parsed⟩
    obtain ⟨_, _, rfl, _, _, rfl, _, _, rfl, _, _, rfl, _, _, rfl, parsed⟩ := parsed
    obtain ⟨_, _, rfl, _, _, rfl, _, _, rfl, _, _, rfl, _, _, rfl, parsed⟩ := parsed
    obtain ⟨_, _, rfl, _, _, rfl, _, _, rfl, _, _, rfl, _, _, rfl, parsed⟩ := parsed
    obtain ⟨_, _, rfl, _, _, rfl, _, _, rfl, _, _, rfl, _, _, rfl, parsed⟩ := parsed
    obtain ⟨_, _, rfl, _, _, rfl, _, _, rfl, _, _, ⟨rules, rfl⟩, rfl, rfl⟩ := parsed
    refine ⟨magic, rules, ?_⟩
    unfold serializeGlobalPublicHeader
    simp only [List.append_assoc]
  · rintro ⟨magic, rules, rfl⟩
    unfold serializeGlobalPublicHeader
    simp only [List.append_assoc]
    refine ⟨_, _, rfl, (), _, ⟨magic, rfl⟩, _, _, rfl, _, _, rfl, _, _, rfl, _, _, rfl, ?_⟩
    refine ⟨_, _, rfl, _, _, rfl, _, _, rfl, _, _, rfl, _, _, rfl, ?_⟩
    refine ⟨_, _, rfl, _, _, rfl, _, _, rfl, _, _, rfl, _, _, rfl, ?_⟩
    refine ⟨_, _, rfl, _, _, rfl, _, _, rfl, _, _, rfl, _, _, rfl, ?_⟩
    refine ⟨_, _, rfl, _, _, rfl, _, _, rfl, _, _, rfl, _, _, rfl, ?_⟩
    exact ⟨_, _, rfl, _, _, rfl, _, _, rfl, (), _, ⟨rules, rfl⟩, rfl, rfl⟩

/-- Acceptance, exactly: the first 192 bytes are the encoding of a header that keeps the rules. -/
theorem parseGlobalPublicHeader_ok (bytes : Bytes) (h : GlobalPublicHeaderV1) :
    parseGlobalPublicHeader bytes = .ok h ↔
      h.magic = kGlobalHeaderV1Magic ∧ GlobalHeaderRules h ∧
        ∃ rest, serializeGlobalPublicHeader h ++ rest = bytes := by
  rw [← and_assoc]
  exact decodeFront_ok (fun a _ => serializeGlobalPublicHeader_length a)
    (fun a s t => by rw [readGlobalHeader_run_ok, and_assoc]) h bytes

theorem parseGlobalPublicHeader_serialize (h : GlobalPublicHeaderV1) (rest : Bytes)
    (magic : h.magic = kGlobalHeaderV1Magic) (rules : GlobalHeaderRules h) :
    parseGlobalPublicHeader (serializeGlobalPublicHeader h ++ rest) = .ok h :=
  (parseGlobalPublicHeader_ok _ h).mpr ⟨magic, rules, rest, rfl⟩

end Bseal.Io
