import Bseal.Archive.RecordFormat
import Bseal.Common.CheckedArithmetic

/-! `compute_padding` of `app/CoreApi` and the padding record that encryption appends,
against the payload cap of the record decoder. -/
namespace Bseal.App
open Bseal.Archive ByteCodec

inductive PaddingPolicyKind where
  | none
  | chunk
  | power2
  | fixedSize
  deriving DecidableEq, Repr

structure PaddingPolicy where
  kind : PaddingPolicyKind
  fixedSizeBytes : UInt64
  deriving DecidableEq, Repr

structure PaddingResult where
  targetSize : UInt64
  policyId : UInt16
  policyValue : UInt64
  deriving DecidableEq, Repr

/-- A gap that is too small to hold a record prefix. -/
def smallGap (target rawSize : UInt64) : Prop :=
  target - rawSize > 0 ∧ target - rawSize < 9

instance (target rawSize : UInt64) : Decidable (smallGap target rawSize) :=
  inferInstanceAs (Decidable (_ ∧ _))

def fixedTargetTooSmall (n rawSize : UInt64) : Failure :=
  .invalidArgument ("fixed-size padding target (" ++ toString n ++
    " bytes) is smaller than the unpadded archive (" ++ toString rawSize ++ " bytes)")

def fixedTargetNotMultiple (n chunkPlainSize : UInt64) : Failure :=
  .invalidArgument ("fixed-size padding target (" ++ toString n ++
    " bytes) is not a multiple of chunk-size (" ++ toString chunkPlainSize ++ " bytes)")

def fixedTargetSmallGap (gap : UInt64) : Failure :=
  .invalidArgument ("fixed-size padding target leaves " ++ toString gap ++
    " bytes of gap, which is too small for a padding record (minimum 9 bytes);" ++
    " choose a larger fixed-size value")

def roundToChunk (rawSize chunkPlainSize : UInt64) : Result UInt64 :=
  let rem := rawSize % chunkPlainSize
  if rem = 0 then .ok rawSize
  else checkedAddU64 rawSize (chunkPlainSize - rem) "chunk padding: padded size"

def chunkTarget (rawSize chunkPlainSize : UInt64) : Result UInt64 := do
  let target ← roundToChunk rawSize chunkPlainSize
  if smallGap target rawSize then
    checkedAddU64 target chunkPlainSize "chunk padding: extra chunk"
  else pure target

def power2Target (rawSize chunkPlainSize : UInt64) : Result UInt64 := do
  let target ← checkedNextPowerOfTwoU64 rawSize "power2 padding: target size"
  let target := if target < chunkPlainSize then chunkPlainSize else target
  if smallGap target rawSize then checkedMulU64 target 2 "power2 padding: bump"
  else pure target

def computePadding (rawSize chunkPlainSize : UInt64) (policy : PaddingPolicy) :
    Result PaddingResult :=
  match policy.kind with
  | .none => .ok ⟨rawSize, 0, 0⟩
  | .chunk =>
    if rawSize = 0 then .ok ⟨0, 1, 0⟩
    else do
      let target ← chunkTarget rawSize chunkPlainSize
      pure ⟨target, 1, 0⟩
  | .power2 =>
    if rawSize = 0 then .ok ⟨0, 2, 0⟩
    else do
      let target ← power2Target rawSize chunkPlainSize
      pure ⟨target, 2, 0⟩
  | .fixedSize =>
    let n := policy.fixedSizeBytes
    if rawSize > n then .error (fixedTargetTooSmall n rawSize)
    else if n % chunkPlainSize ≠ 0 then .error (fixedTargetNotMultiple n chunkPlainSize)
    else if smallGap n rawSize then .error (fixedTargetSmallGap (n - rawSize))
    else .ok ⟨n, 3, n⟩

/-- The record `core_encrypt` appends, when the padding leaves a gap. -/
def trailingPadding (secureRandomBytes : Nat → Bytes) (rawSize : UInt64) (pad : PaddingResult) :
    Option ArchiveRecord :=
  if pad.targetSize > rawSize then
    some ⟨.randomPadding, secureRandomBytes (pad.targetSize - rawSize - 9).toNat⟩
  else none

structure ValidChunkSize (c : UInt64) : Prop where
  min : 65536 ≤ c
  max : c ≤ 67108864
  power : c &&& (c - 1) = 0

def RecordDecodes (record : ArchiveRecord) : Prop :=
  encodedRecordSizeIfComplete (serializeRecord record) =
      .ok (some (serializeRecord record).length) ∧
    parseRecord (serializeRecord record) = .ok record

/-- The sizes for which the target that the policy picks leaves at most a full payload. -/
def PaddingWithinCap (rawSize chunkPlainSize : UInt64) (policy : PaddingPolicy) : Prop :=
  match policy.kind with
  | .none => True
  | .chunk => True
  | .power2 => ∃ k, chunkPlainSize.toNat ≤ 2 ^ k ∧ rawSize.toNat + 9 ≤ 2 ^ k ∧
      2 ^ k ≤ rawSize.toNat + 9 + kMaxRecordPayloadBytes
  | .fixedSize => policy.fixedSizeBytes.toNat ≤ rawSize.toNat + 9 + kMaxRecordPayloadBytes

theorem ValidChunkSize.power_of_two {c : UInt64} (valid : ValidChunkSize c) :
    ∃ j, c.toNat = 2 ^ j := by
  refine u64_powerOfTwo ?_ valid.power
  rintro rfl
  exact absurd valid.min (by decide)

theorem ValidChunkSize.bounds {c : UInt64} (valid : ValidChunkSize c) :
    65536 ≤ c.toNat ∧ c.toNat ≤ 67108864 :=
  ⟨UInt64.le_iff_toNat_le.mp valid.min, UInt64.le_iff_toNat_le.mp valid.max⟩

theorem smallGap_iff {target rawSize : UInt64} (le : rawSize.toNat ≤ target.toNat) :
    smallGap target rawSize ↔
      rawSize.toNat < target.toNat ∧ target.toNat < rawSize.toNat + 9 := by
  have gap : (target - rawSize).toNat = target.toNat - rawSize.toNat :=
    UInt64.toNat_sub_of_le _ _ (UInt64.le_iff_toNat_le.mpr le)
  have nine : (9 : UInt64).toNat = 9 := rfl
  unfold smallGap
  rw [gt_iff_lt, UInt64.lt_iff_toNat_lt, UInt64.lt_iff_toNat_lt, gap, UInt64.toNat_zero, nine]
  omega

/-- A record is taken back exactly when its payload keeps the decoder's cap. -/
theorem recordDecodes_iff (record : ArchiveRecord) :
    RecordDecodes record ↔ record.payload.length ≤ kMaxRecordPayloadBytes := by
  unfold RecordDecodes
  rw [parseRecord_ok, encodedRecordSizeIfComplete_some]
  constructor
  · rintro ⟨-, -, small⟩
    exact small
  · intro small
    exact ⟨⟨record, [], List.append_nil _, small, serializeRecord_length _⟩, rfl, small⟩

theorem chunkTarget_bounds {rawSize c target : UInt64} (valid : ValidChunkSize c)
    (ok : chunkTarget rawSize c = .ok target) (gap : rawSize < target) :
    rawSize.toNat + 9 ≤ target.toNat ∧ target.toNat ≤ rawSize.toNat + 9 + c.toNat := by
  have size := valid.bounds
  have rem : (rawSize % c).toNat < c.toNat := by
    rw [UInt64.toNat_mod]
    exact Nat.mod_lt _ (by omega)
  have fill : (c - rawSize % c).toNat = c.toNat - (rawSize % c).toNat :=
    UInt64.toNat_sub_of_le _ _ (UInt64.le_iff_toNat_le.mpr rem.le)
  unfold chunkTarget at ok
  rw [Result.bind_eq_ok] at ok
  obtain ⟨first, hfirst, ok⟩ := ok
  have firstBounds : rawSize.toNat ≤ first.toNat ∧ first.toNat ≤ rawSize.toNat + c.toNat := by
    simp only [roundToChunk] at hfirst
    split at hfirst
    · cases hfirst
      omega
    · rw [checkedAddU64_ok, fill] at hfirst
      omega
  rw [UInt64.lt_iff_toNat_lt] at gap
  split at ok
  · rename_i small
    rw [smallGap_iff firstBounds.1] at small
    rw [checkedAddU64_ok] at ok
    omega
  · rename_i wide
    rw [smallGap_iff firstBounds.1] at wide
    cases ok
    omega

theorem power2Target_least {rawSize c target : UInt64} (valid : ValidChunkSize c)
    (ok : power2Target rawSize c = .ok target) (gap : rawSize < target) :
    ∃ m, target.toNat = 2 ^ m ∧ c.toNat ≤ 2 ^ m ∧ rawSize.toNat + 9 ≤ 2 ^ m ∧
      ∀ i, c.toNat ≤ 2 ^ i → rawSize.toNat + 9 ≤ 2 ^ i → m ≤ i := by
  have size := valid.bounds
  obtain ⟨j, hj⟩ := valid.power_of_two
  unfold power2Target at ok
  rw [Result.bind_eq_ok] at ok
  obtain ⟨base, hbase, ok⟩ := ok
  obtain ⟨k, hk, above, least⟩ := (checkedNextPowerOfTwoU64_ok _ _ _).mp hbase
  simp only at ok
  have rounded : ∃ n, (if base < c then c else base).toNat = 2 ^ n ∧ c.toNat ≤ 2 ^ n ∧
      rawSize.toNat ≤ 2 ^ n ∧ ∀ i, c.toNat ≤ 2 ^ i → rawSize.toNat ≤ 2 ^ i → n ≤ i := by
    split
    · rename_i below
      rw [UInt64.lt_iff_toNat_lt] at below
      refine ⟨j, hj, hj.le, by omega, fun i hc _ => ?_⟩
      rw [hj] at hc
      exact (Nat.pow_le_pow_iff_right (by decide)).mp hc
    · rename_i reached
      rw [UInt64.lt_iff_toNat_lt] at reached
      exact ⟨k, hk, by omega, above, fun i _ hr => least i hr⟩
  obtain ⟨n, hn, hc, hr, leastN⟩ := rounded
  generalize (if base < c then c else base) = middle at ok hn
  rw [UInt64.lt_iff_toNat_lt] at gap
  split at ok
  · rename_i small
    rw [smallGap_iff (by omega)] at small
    rw [checkedMulU64_ok, hn] at ok
    have two : (2 : UInt64).toNat = 2 := rfl
    refine ⟨n + 1, by rw [ok, two, pow_succ], by rw [pow_succ]; omega, by rw [pow_succ]; omega,
      fun i hci hri => ?_⟩
    have ni := leastN i hci (by omega)
    rcases Nat.eq_or_lt_of_le ni with same | more
    · subst same
      omega
    · exact more
  · rename_i wide
    rw [smallGap_iff (by omega)] at wide
    cases ok
    exact ⟨n, hn, hc, by omega, fun i hci hri => leastN i hci (by omega)⟩

theorem computePadding_room {rawSize c : UInt64} {policy : PaddingPolicy} {pad : PaddingResult}
    (valid : ValidChunkSize c) (ok : computePadding rawSize c policy = .ok pad)
    (gap : rawSize < pad.targetSize) : rawSize.toNat + 9 ≤ pad.targetSize.toNat := by
  obtain ⟨kind, n⟩ := policy
  unfold computePadding at ok
  cases kind with
  | none =>
    cases ok
    exact absurd gap (UInt64.lt_irrefl _)
  | chunk =>
    simp only at ok
    split at ok
    · cases ok
      exact absurd gap (UInt64.not_lt_zero)
    · obtain ⟨target, computed, ok⟩ := (Result.bind_eq_ok _ _ _).mp ok
      cases ok
      exact (chunkTarget_bounds valid computed gap).1
  | power2 =>
    simp only at ok
    split at ok
    · cases ok
      exact absurd gap (UInt64.not_lt_zero)
    · obtain ⟨target, computed, ok⟩ := (Result.bind_eq_ok _ _ _).mp ok
      cases ok
      obtain ⟨m, hm, -, room, -⟩ := power2Target_least valid computed gap
      exact hm ▸ room
  | fixedSize =>
    simp only at ok
    split_ifs at ok with less multiple small
    cases ok
    rw [gt_iff_lt, UInt64.lt_iff_toNat_lt] at less
    rw [smallGap_iff (by omega)] at small
    rw [UInt64.lt_iff_toNat_lt] at gap
    simp only at gap ⊢
    omega

theorem computePadding_withinCap {rawSize c : UInt64} {policy : PaddingPolicy}
    {pad : PaddingResult} (valid : ValidChunkSize c)
    (ok : computePadding rawSize c policy = .ok pad) (gap : rawSize < pad.targetSize) :
    pad.targetSize.toNat ≤ rawSize.toNat + 9 + kMaxRecordPayloadBytes ↔
      PaddingWithinCap rawSize c policy := by
  have size := valid.bounds
  have cap : kMaxRecordPayloadBytes = 134217728 := rfl
  obtain ⟨kind, n⟩ := policy
  unfold computePadding at ok
  unfold PaddingWithinCap
  cases kind with
  | none =>
    cases ok
    exact absurd gap (UInt64.lt_irrefl _)
  | chunk =>
    simp only at ok ⊢
    split at ok
    · cases ok
      exact absurd gap (UInt64.not_lt_zero)
    · obtain ⟨target, computed, ok⟩ := (Result.bind_eq_ok _ _ _).mp ok
      cases ok
      have bounds := chunkTarget_bounds valid computed gap
      simp only [iff_true]
      omega
  | power2 =>
    simp only at ok ⊢
    split at ok
    · cases ok
      exact absurd gap (UInt64.not_lt_zero)
    · obtain ⟨target, computed, ok⟩ := (Result.bind_eq_ok _ _ _).mp ok
      cases ok
      obtain ⟨m, hm, chunk, room, least⟩ := power2Target_least valid computed gap
      simp only [hm]
      constructor
      · intro small
        exact ⟨m, chunk, room, small⟩
      · rintro ⟨k, hc, hr, small⟩
        exact (Nat.pow_le_pow_right (by decide) (least k hc hr)).trans small
  | fixedSize =>
    simp only at ok ⊢
    split_ifs at ok with less multiple small
    cases ok
    exact Iff.rfl

/-- The appended padding record decodes exactly when the policy's target keeps the cap. -/
theorem trailingPadding_decodes_iff (secureRandomBytes : Nat → Bytes)
    (random_length : ∀ n, (secureRandomBytes n).length = n) (rawSize chunkPlainSize : UInt64)
    (policy : PaddingPolicy) (pad : PaddingResult) (record : ArchiveRecord)
    (valid : ValidChunkSize chunkPlainSize)
    (padded : computePadding rawSize chunkPlainSize policy = .ok pad)
    (appended : trailingPadding secureRandomBytes rawSize pad = some record) :
    RecordDecodes record ↔ PaddingWithinCap rawSize chunkPlainSize policy := by
  unfold trailingPadding at appended
  split at appended
  · rename_i gap
    cases appended
    have room := computePadding_room valid padded gap
    have rest : (pad.targetSize - rawSize - 9).toNat =
        pad.targetSize.toNat - rawSize.toNat - 9 := by
      have first : (pad.targetSize - rawSize).toNat = pad.targetSize.toNat - rawSize.toNat :=
        UInt64.toNat_sub_of_le _ _ (UInt64.le_iff_toNat_le.mpr (by omega))
      have nine : (9 : UInt64).toNat = 9 := rfl
      rw [UInt64.toNat_sub_of_le _ _ (UInt64.le_iff_toNat_le.mpr (by rw [first, nine]; omega)),
        first, nine]
    rw [recordDecodes_iff, random_length, rest, ← computePadding_withinCap valid padded gap]
    omega
  · cases appended

theorem trailingPadding_decodes_iff_chunk :
    RecordDecodes ⟨.randomPadding, List.replicate 65427 0⟩ ↔
      PaddingWithinCap 100 65536 ⟨.chunk, 0⟩ :=
  trailingPadding_decodes_iff (fun n => List.replicate n 0) (fun _ => List.length_replicate)
    100 65536 ⟨.chunk, 0⟩ ⟨65536, 1, 0⟩ _ ⟨by decide, by decide, by decide⟩ (by decide) rfl

/-- 600 MiB under `power2` leave a gap of 424 MiB, which no record may carry. -/
theorem power2Padding_rejected :
    computePadding 629145600 65536 ⟨.power2, 0⟩ = .ok ⟨1073741824, 2, 0⟩ ∧
      ¬RecordDecodes ⟨.randomPadding, List.replicate 444596215 0⟩ ∧
      trailingPadding (fun n => List.replicate n 0) 629145600 ⟨1073741824, 2, 0⟩ =
        some ⟨.randomPadding, List.replicate 444596215 0⟩ := by
  refine ⟨by decide, ?_, rfl⟩
  rw [recordDecodes_iff, List.length_replicate]
  decide

end Bseal.App
