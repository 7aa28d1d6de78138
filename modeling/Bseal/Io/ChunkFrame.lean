import Bseal.Io.GlobalHeader

/-! `ChunkFrameHeaderV1` of `io/ShardFrame`: the 40 bytes in front of every chunk. -/
namespace Bseal.Io
open ByteCodec

def kChunkFrameV1Magic : List.Vector UInt8 4 := ⟨ascii "BSC1", rfl⟩
def kChunkFrameFlagFinalChunk : UInt16 := 1
def kChunkFrameKnownFlags : UInt16 := kChunkFrameFlagFinalChunk

structure ChunkFrameHeaderV1 where
  frameFlags : UInt16
  shardIndex : UInt32
  globalChunkIndex : UInt64
  plaintextLen : UInt32
  ciphertextLen : UInt64
  tagLen : UInt16
  deriving DecidableEq, Repr

/-- The two platform checks of the source compare with the 64-bit `SIZE_MAX` and never fire. -/
def validateChunkFrameHeaderV1 (h : ChunkFrameHeaderV1) : Result Unit :=
  if h.frameFlags &&& ~~~kChunkFrameKnownFlags ≠ 0 then
    .error (.invalidArgument "unsupported chunk frame flags")
  else if h.tagLen = 0 then .error (.invalidArgument "invalid chunk frame tag length")
  else .ok ()

def encodeChunkFrameHeaderV1 (h : ChunkFrameHeaderV1) : Bytes :=
  putArray kChunkFrameV1Magic ++ putU16 40 ++ putU16 h.frameFlags ++ putU32 h.shardIndex ++
  putU64 h.globalChunkIndex ++ putU32 h.plaintextLen ++ putU64 h.ciphertextLen ++
  putU16 h.tagLen ++ putU16 0 ++ putU32 0

def serializeChunkFrameHeaderV1 (h : ChunkFrameHeaderV1) : Result Bytes := do
  validateChunkFrameHeaderV1 h
  pure (encodeChunkFrameHeaderV1 h)

@[simp] theorem encodeChunkFrameHeaderV1_length (h : ChunkFrameHeaderV1) :
    (encodeChunkFrameHeaderV1 h).length = kChunkFrameHeaderV1Size := by
  unfold encodeChunkFrameHeaderV1 kChunkFrameHeaderV1Size
  simp only [List.length_append, putU16_length, putU32_length, putU64_length, putArray_length]

/-- Every field stands at its own place, so the bytes determine the header, valid or not. -/
theorem encodeChunkFrameHeaderV1_injective : Function.Injective encodeChunkFrameHeaderV1 := by
  intro a b same
  unfold encodeChunkFrameHeaderV1 at same
  obtain ⟨same, -⟩ := List.append_inj' same rfl
  obtain ⟨same, -⟩ := List.append_inj' same rfl
  obtain ⟨same, tag⟩ := List.append_inj' same (by simp only [putU16_length])
  obtain ⟨same, cipher⟩ := List.append_inj' same (by simp only [putU64_length])
  obtain ⟨same, plain⟩ := List.append_inj' same (by simp only [putU32_length])
  obtain ⟨same, index⟩ := List.append_inj' same (by simp only [putU64_length])
  obtain ⟨same, shard⟩ := List.append_inj' same (by simp only [putU32_length])
  obtain ⟨-, flags⟩ := List.append_inj' same (by simp only [putU16_length])
  cases a
  cases b
  simp only [ChunkFrameHeaderV1.mk.injEq]
  exact ⟨putU16_injective flags, putU32_injective shard, putU64_injective index,
    putU32_injective plain, putU64_injective cipher, putU16_injective tag⟩

def truncatedFrameHeader : Failure := .invalidArgument "truncated frame header"

def rejectChunkFrameHeader (h : ChunkFrameHeaderV1) : Decoder Failure Unit := do
  reject (h.frameFlags &&& ~~~kChunkFrameKnownFlags ≠ 0) "unsupported chunk frame flags"
  reject (h.tagLen = 0) "invalid chunk frame tag length"
  reject (h.tagLen ≠ 16) "chunk frame tag_len must be 16"
  reject (h.ciphertextLen ≠ h.plaintextLen.toUInt64)
    "chunk frame ciphertext_len must equal plaintext_len for v1 AEADs"

def readChunkFrameHeader : Decoder Failure ChunkFrameHeaderV1 := do
  let e := truncatedFrameHeader
  let magic ← takeArray e 4
  reject (magic ≠ kChunkFrameV1Magic) "wrong chunk frame magic"
  let frameHeaderLen ← takeU16 e
  reject (frameHeaderLen ≠ 40) "unsupported chunk frame header length"
  let frameFlags ← takeU16 e
  let shardIndex ← takeU32 e
  let globalChunkIndex ← takeU64 e
  let plaintextLen ← takeU32 e
  let ciphertextLen ← takeU64 e
  let tagLen ← takeU16 e
  let reserved0 ← takeU16 e
  reject (reserved0 ≠ 0) "non-zero chunk frame reserved0"
  let reserved1 ← takeU32 e
  reject (reserved1 ≠ 0) "non-zero chunk frame reserved1"
  let h : ChunkFrameHeaderV1 :=
    ⟨frameFlags, shardIndex, globalChunkIndex, plaintextLen, ciphertextLen, tagLen⟩
  rejectChunkFrameHeader h
  pure h

def parseChunkFrameHeaderV1 (bytes : Bytes) : Result ChunkFrameHeaderV1 :=
  decodeFront truncatedFrameHeader kChunkFrameHeaderV1Size readChunkFrameHeader bytes

structure ChunkFrameRules (h : ChunkFrameHeaderV1) : Prop where
  frameFlags : h.frameFlags &&& ~~~kChunkFrameKnownFlags = 0
  tagLen : h.tagLen = 16
  ciphertextLen : h.ciphertextLen = h.plaintextLen.toUInt64

theorem rejectChunkFrameHeader_run_ok (h : ChunkFrameHeaderV1) (u : Unit) (s t : Bytes) :
    (rejectChunkFrameHeader h).run s = .ok (u, t) ↔ ChunkFrameRules h ∧ s = t := by
  simp only [rejectChunkFrameHeader, reject_bind_run_ok, reject_run_ok, ne_eq, not_not]
  constructor
  · rintro ⟨flags, -, tag, len, rfl⟩
    exact ⟨⟨flags, tag, len⟩, rfl⟩
  · rintro ⟨rules, rfl⟩
    have tagPos : h.tagLen ≠ 0 := by
      rw [rules.tagLen]
      decide
    exact ⟨rules.frameFlags, tagPos, rules.tagLen, rules.ciphertextLen, rfl⟩

theorem readChunkFrameHeader_run_ok (h : ChunkFrameHeaderV1) (s t : Bytes) :
    readChunkFrameHeader.run s = .ok (h, t) ↔
      ChunkFrameRules h ∧ encodeChunkFrameHeaderV1 h ++ t = s := by
  unfold readChunkFrameHeader
  simp only [bind_run_ok, takeArray_run_ok, takeU16_run_ok, takeU32_run_ok, takeU64_run_ok,
    reject_run_ok, rejectChunkFrameHeader_run_ok, pure_run_ok, not_not, ne_eq]
  constructor
  · rintro ⟨_, _, rfl, _, _, ⟨rfl, rfl⟩, _, _, rfl, _, _, ⟨rfl, rfl⟩, _, _, rfl, parsed⟩
    obtain ⟨_, _, rfl, _, _, rfl, _, _, rfl, _, _, rfl, _, _, rfl, parsed⟩ := parsed
    obtain ⟨_, _, rfl, _, _, ⟨rfl, rfl⟩, _, _, rfl, _, _, ⟨rfl, rfl⟩, parsed⟩ := parsed
    obtain ⟨_, _, ⟨rules, rfl⟩, rfl, rfl⟩ := parsed
    refine ⟨rules, ?_⟩
    unfold encodeChunkFrameHeaderV1
    simp only [List.append_assoc]
  · rintro ⟨rules, rfl⟩
    unfold encodeChunkFrameHeaderV1
    simp only [List.append_assoc]
    refine ⟨_, _, rfl, (), _, ⟨rfl, rfl⟩, _, _, rfl, (), _, ⟨rfl, rfl⟩, _, _, rfl, ?_⟩
    refine ⟨_, _, rfl, _, _, rfl, _, _, rfl, _, _, rfl, _, _, rfl, ?_⟩
    refine ⟨_, _, rfl, (), _, ⟨rfl, rfl⟩, _, _, rfl, (), _, ⟨rfl, rfl⟩, ?_⟩
    exact ⟨(), _, ⟨rules, rfl⟩, rfl, rfl⟩

theorem parseChunkFrameHeaderV1_ok (bytes : Bytes) (h : ChunkFrameHeaderV1) :
    parseChunkFrameHeaderV1 bytes = .ok h ↔
      ChunkFrameRules h ∧ ∃ rest, encodeChunkFrameHeaderV1 h ++ rest = bytes :=
  decodeFront_ok (fun a _ => encodeChunkFrameHeaderV1_length a) readChunkFrameHeader_run_ok h bytes

def chunkFrameV1EncodedSizeFromParams (plaintextLen : UInt64) (tagLen : UInt16) :
    Result UInt64 :=
  let body := plaintextLen + tagLen.toUInt64
  if body < plaintextLen then .error (.invalidArgument "chunk frame body length overflow")
  else
    let total := 40 + body
    if total < body then .error (.invalidArgument "chunk frame encoded length overflow")
    else .ok total

def chunkFrameV1EncodedSize (h : ChunkFrameHeaderV1) : Result UInt64 := do
  validateChunkFrameHeaderV1 h
  chunkFrameV1EncodedSizeFromParams h.ciphertextLen h.tagLen

/-- The two overflow checks leave exactly the sizes that fit 64 bits. -/
theorem chunkFrameV1EncodedSizeFromParams_ok (plaintextLen : UInt64) (tagLen : UInt16)
    (r : UInt64) :
    chunkFrameV1EncodedSizeFromParams plaintextLen tagLen = .ok r ↔
      r.toNat = 40 + (plaintextLen.toNat + tagLen.toNat) := by
  have hp := plaintextLen.toNat_lt
  have ht := tagLen.toNat_lt
  have hr := r.toNat_lt
  have body : (plaintextLen + tagLen.toUInt64).toNat =
      (plaintextLen.toNat + tagLen.toNat) % 2 ^ 64 := by
    rw [UInt64.toNat_add, UInt16.toNat_toUInt64]
  have total : (40 + (plaintextLen + tagLen.toUInt64)).toNat =
      (40 + (plaintextLen.toNat + tagLen.toNat)) % 2 ^ 64 := by
    rw [UInt64.toNat_add, body, Nat.add_mod_mod]
    rfl
  unfold chunkFrameV1EncodedSizeFromParams
  simp only
  split
  · rename_i exceeds
    rw [UInt64.lt_iff_toNat_lt, body] at exceeds
    simp only [reduceCtorEq, false_iff]
    omega
  · rename_i fits
    rw [UInt64.lt_iff_toNat_lt, body] at fits
    split
    · rename_i exceeds
      rw [UInt64.lt_iff_toNat_lt, body, total] at exceeds
      simp only [reduceCtorEq, false_iff]
      omega
    · rename_i fits'
      rw [UInt64.lt_iff_toNat_lt, body, total] at fits'
      rw [Except.ok.injEq, ← UInt64.toNat_inj, total]
      omega

end Bseal.Io
