import Bseal.Common.CheckedArithmetic
import Bseal.Io.GlobalHeader
import Mathlib.Algebra.Order.Ring.Nat

/-! The counts of an accepted global header, over the naturals. The parser
recomputes the padded size in 64-bit arithmetic, so acceptance gives the size
equation modulo `2^64`; the equation itself holds exactly when that sum is in range. -/
namespace Bseal.Io
open ByteCodec

/-- The size rule that the declared padding policy promises. -/
def PaddingSizeRule (h : GlobalPublicHeaderV1) : Prop :=
  match h.paddingPolicyId.toNat with
  | 0 => True
  | 1 => h.chunkPlainSize.toNat ∣ h.paddedPlaintextSize.toNat
  | 2 => ∃ k, h.paddedPlaintextSize.toNat = 2 ^ k
  | 3 => h.paddedPlaintextSize.toNat = h.paddingPolicyValue.toNat
  | _ => False

structure HeaderCountsHold (h : GlobalPublicHeaderV1) : Prop where
  size : h.paddedPlaintextSize.toNat =
    (h.globalChunkCount.toNat - 1) * h.chunkPlainSize.toNat + h.finalPlaintextChunkLen.toNat
  finalPos : 1 ≤ h.finalPlaintextChunkLen.toNat
  finalLe : h.finalPlaintextChunkLen.toNat ≤ h.chunkPlainSize.toNat
  shardsPos : 1 ≤ h.shardCount.toNat
  shardsLe : h.shardCount.toNat ≤ h.globalChunkCount.toNat
  padding : PaddingSizeRule h

def wordAt (bytes : Bytes) (off w : Nat) : Nat := ofLE ((bytes.drop off).take w)

/-- The padded size that the count fields of these bytes describe stays below `2^64`. -/
def CountsInRange (bytes : Bytes) : Prop :=
  (wordAt bytes 120 8 - 1) * wordAt bytes 112 4 + wordAt bytes 136 4 < 2 ^ 64

instance (bytes : Bytes) : Decidable (CountsInRange bytes) :=
  inferInstanceAs (Decidable (_ < _))

theorem wordAt_append (front word back : Bytes) {off w : Nat} (hoff : front.length = off)
    (hw : word.length = w) : wordAt (front ++ (word ++ back)) off w = ofLE word := by
  unfold wordAt
  rw [← hoff, List.drop_left, ← hw, List.take_left]

theorem serializeGlobalPublicHeader_counts (h : GlobalPublicHeaderV1) :
    ∃ front back : Bytes, front.length = 112 ∧ serializeGlobalPublicHeader h =
      front ++ (putU32 h.chunkPlainSize ++ (putU32 h.shardCount ++ (putU64 h.globalChunkCount ++
        (putU64 h.paddedPlaintextSize ++ (putU32 h.finalPlaintextChunkLen ++ back))))) := by
  refine ⟨putArray h.magic ++ putU16 h.formatMajor ++ putU16 h.formatMinor ++
    putU32 h.globalHeaderLen ++ putU32 h.shardHeaderLen ++ putU16 h.frameHeaderLen ++
    putU16 h.globalFlags ++ putArray h.archiveId ++
    putU16 h.aeadAlgId ++ putU16 h.kdfAlgId ++ putU16 h.hashAlgId ++ putU16 h.macAlgId ++
    putArray h.kdfSalt ++ putU32 h.argon2Version ++ putU32 h.argon2MemoryKib ++
    putU32 h.argon2Iterations ++ putU32 h.argon2Parallelism,
    putU16 h.paddingPolicyId ++ putU16 h.reserved0 ++ putU64 h.paddingPolicyValue ++
    putU64 h.maxShardPayloadLen ++ putU64 h.requiredFeatureFlags ++ putArray h.reserved1,
    ?_, ?_⟩
  · simp only [List.length_append, putU16_length, putU32_length, putArray_length]
  · unfold serializeGlobalPublicHeader
    simp only [List.append_assoc]

theorem ofLE_putU32 (x : UInt32) : ofLE (putU32 x) = x.toNat := ofLE_toLE_of_lt x.toNat_lt

theorem ofLE_putU64 (x : UInt64) : ofLE (putU64 x) = x.toNat := ofLE_toLE_of_lt x.toNat_lt

theorem countsInRange_serialize (h : GlobalPublicHeaderV1) (rest : Bytes) :
    CountsInRange (serializeGlobalPublicHeader h ++ rest) ↔
      (h.globalChunkCount.toNat - 1) * h.chunkPlainSize.toNat +
        h.finalPlaintextChunkLen.toNat < 2 ^ 64 := by
  obtain ⟨front, back, len, whole⟩ := serializeGlobalPublicHeader_counts h
  have chunkSize : wordAt (serializeGlobalPublicHeader h ++ rest) 112 4 =
      h.chunkPlainSize.toNat := by
    rw [whole, ← ofLE_putU32]
    simp only [List.append_assoc]
    exact wordAt_append _ _ _ len (putU32_length _)
  have chunks : wordAt (serializeGlobalPublicHeader h ++ rest) 120 8 =
      h.globalChunkCount.toNat := by
    rw [whole, ← ofLE_putU64]
    rw [show ∀ a b c d e : Bytes, front ++ (a ++ (b ++ (c ++ d))) ++ e =
      (front ++ a ++ b) ++ (c ++ (d ++ e)) by intros; simp only [List.append_assoc]]
    exact wordAt_append _ _ _ (by simp [len]) (putU64_length _)
  have final : wordAt (serializeGlobalPublicHeader h ++ rest) 136 4 =
      h.finalPlaintextChunkLen.toNat := by
    rw [whole, ← ofLE_putU32 h.finalPlaintextChunkLen]
    rw [show ∀ a b c d e f g : Bytes, front ++ (a ++ (b ++ (c ++ (d ++ (e ++ f))))) ++ g =
      (front ++ a ++ b ++ c ++ d) ++ (e ++ (f ++ g)) by
        intros; simp only [List.append_assoc]]
    exact wordAt_append _ _ _ (by simp [len]) (putU32_length _)
  unfold CountsInRange
  rw [chunkSize, chunks, final]

theorem expectedPaddedSize_toNat (h : GlobalPublicHeaderV1) (chunks : h.globalChunkCount ≠ 0) :
    (expectedPaddedSize h).toNat = ((h.globalChunkCount.toNat - 1) * h.chunkPlainSize.toNat +
      h.finalPlaintextChunkLen.toNat) % 2 ^ 64 := by
  unfold expectedPaddedSize
  rw [UInt64.toNat_add, UInt64.toNat_mul, u64_sub_one_toNat chunks, UInt32.toNat_toUInt64,
    UInt32.toNat_toUInt64, Nat.mod_add_mod]

theorem isPowerOfTwo64_toNat {v : UInt64} (h : isPowerOfTwo64 v) : ∃ k, v.toNat = 2 ^ k := by
  unfold isPowerOfTwo64 at h
  simp only [ne_eq, decide_not, Bool.and_eq_true, Bool.not_eq_eq_eq_not, Bool.not_true,
    decide_eq_false_iff_not, beq_iff_eq] at h
  exact u64_powerOfTwo h.1 h.2

theorem isPowerOfTwo64_of_toNat {v : UInt64} {k : Nat} (power : v.toNat = 2 ^ k) :
    isPowerOfTwo64 v := by
  obtain ⟨nonzero, masked⟩ := u64_masked_of_powerOfTwo power
  unfold isPowerOfTwo64
  rw [masked, decide_eq_true nonzero]
  rfl

theorem isPowerOfTwo32_of_toNat {v : UInt32} {k : Nat} (power : v.toNat = 2 ^ k) :
    isPowerOfTwo32 v := by
  obtain ⟨nonzero, masked⟩ := u32_masked_of_powerOfTwo power
  unfold isPowerOfTwo32
  rw [masked, decide_eq_true nonzero]
  rfl

theorem FullChunks.dvd {h : GlobalPublicHeaderV1} (full : FullChunks h) :
    h.chunkPlainSize.toNat ∣ h.paddedPlaintextSize.toNat := by
  have size := congrArg UInt64.toNat full.1
  rw [UInt64.toNat_mod, UInt32.toNat_toUInt64] at size
  exact Nat.dvd_of_mod_eq_zero size

theorem PaddingPolicyRules.sizeRule {h : GlobalPublicHeaderV1} (rules : PaddingPolicyRules h) :
    PaddingSizeRule h := by
  unfold PaddingSizeRule
  cases rules with
  | none id value =>
    rw [id]
    trivial
  | chunk id value full =>
    rw [id]
    exact full.dvd
  | power2 id value power full =>
    rw [id]
    exact isPowerOfTwo64_toNat power
  | fixedSize id value full =>
    rw [id]
    exact congrArg UInt64.toNat value.symm

/-- An accepted header's counts hold over the naturals exactly when they fit 64 bits. -/
theorem headerCountsHold_iff (bytes : Bytes) (h : GlobalPublicHeaderV1)
    (accepted : parseGlobalPublicHeader bytes = .ok h) :
    HeaderCountsHold h ↔ CountsInRange bytes := by
  obtain ⟨-, rules, rest, rfl⟩ := (parseGlobalPublicHeader_ok bytes h).mp accepted
  have wrapped := congrArg UInt64.toNat rules.sizeConsistent
  rw [expectedPaddedSize_toNat h rules.globalChunkCount] at wrapped
  rw [countsInRange_serialize]
  constructor
  · intro counts
    rw [← counts.size]
    exact h.paddedPlaintextSize.toNat_lt
  · intro small
    have shards := UInt64.le_iff_toNat_le.mp rules.shardsLe
    rw [UInt32.toNat_toUInt64] at shards
    rw [Nat.mod_eq_of_lt small] at wrapped
    exact ⟨wrapped, u32_pos rules.finalPos, UInt32.le_iff_toNat_le.mp rules.finalLe,
      u32_pos rules.shardCount, shards, rules.paddingPolicy.sizeRule⟩

def fiveByteHeader (chunks : UInt64) : GlobalPublicHeaderV1 where
  magic := kGlobalHeaderV1Magic
  formatMajor := 1
  formatMinor := 0
  globalHeaderLen := 192
  shardHeaderLen := 80
  frameHeaderLen := 40
  globalFlags := 0
  archiveId := List.Vector.replicate 32 7
  aeadAlgId := kAeadAlgIdXChaCha20Poly1305
  kdfAlgId := kKdfAlgIdArgon2idHkdf
  hashAlgId := kHashAlgIdBlake3
  macAlgId := kMacAlgIdHmacSha256
  kdfSalt := List.Vector.replicate 32 9
  argon2Version := 0x13
  argon2MemoryKib := 65536
  argon2Iterations := 3
  argon2Parallelism := 1
  chunkPlainSize := 65536
  shardCount := 1
  globalChunkCount := chunks
  paddedPlaintextSize := 5
  finalPlaintextChunkLen := 5
  paddingPolicyId := 0
  reserved0 := 0
  paddingPolicyValue := 0
  maxShardPayloadLen := 65592
  requiredFeatureFlags := 0
  reserved1 := List.Vector.replicate 24 0

theorem fiveByteHeader_parse (chunks : UInt64) (pos : 1 ≤ chunks)
    (wraps : (5 : UInt64) = (chunks - 1) * 65536 + 5) :
    parseGlobalPublicHeader (serializeGlobalPublicHeader (fiveByteHeader chunks)) =
      .ok (fiveByteHeader chunks) := by
  have nonzero : chunks ≠ 0 := by
    rintro rfl
    exact absurd pos (by decide)
  have one : (1 : UInt32) ≠ 0 := by decide
  have five : (5 : UInt32) ≠ 0 ∧ (5 : UInt32) ≤ 65536 ∧ (5 : UInt64) ≠ 0 := by decide
  have size : isPowerOfTwo32 65536 ∧ 65536 ≤ (65536 : UInt32) ∧ 65536 ≤ (67108864 : UInt32) := by
    decide
  have payload : (65592 : UInt64) ≠ 0 := by decide
  have rules : GlobalHeaderRules (fiveByteHeader chunks) :=
    ⟨⟨rfl, rfl⟩, rfl, rfl, rfl, rfl, .inl rfl, rfl, rfl, rfl, one, nonzero, five.2.2, size,
      five.1, five.2.1, wraps, pos, .none rfl rfl, payload, rfl, rfl, rfl⟩
  have parsed := parseGlobalPublicHeader_serialize _ [] rfl rules
  rwa [List.append_nil] at parsed

theorem headerCountsHold_iff_oneChunk :
    HeaderCountsHold (fiveByteHeader 1) ↔
      CountsInRange (serializeGlobalPublicHeader (fiveByteHeader 1)) :=
  headerCountsHold_iff _ _ (fiveByteHeader_parse 1 (by decide) (by decide))

/-- `2^48 + 1` chunks of 64 KiB wrap round to nothing, so five bytes pass the check. -/
theorem headerCounts_wrap :
    parseGlobalPublicHeader (serializeGlobalPublicHeader (fiveByteHeader 0x1000000000001)) =
        .ok (fiveByteHeader 0x1000000000001) ∧
      ¬HeaderCountsHold (fiveByteHeader 0x1000000000001) :=
  ⟨fiveByteHeader_parse _ (by decide) (by decide),
    fun counts => absurd counts.size (by decide)⟩

end Bseal.Io
