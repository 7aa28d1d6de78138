import Bseal.App.DecryptContext
import Bseal.App.LayoutAgreement
import Bseal.App.PaddingTarget

/-! The headers that `core_encrypt` builds before it writes anything: the public header of the
archive and the shard plan. Its own parsers and the shard-set checks accept them. -/
namespace Bseal.App
open Bseal.Crypto Bseal.Io NextFit

def presetParams : KdfPreset → KdfParams
  | .fast => ⟨.fast, 256 * 1024, 3, 4, kArgon2OutputBytesDefault⟩
  | .strong => ⟨.strong, 1024 * 1024, 3, 4, kArgon2OutputBytesDefault⟩
  | .paranoid => ⟨.paranoid, 2 * 1024 * 1024, 4, 8, kArgon2OutputBytesDefault⟩
  | .custom => ⟨.strong, 1024 * 1024, 3, 4, kArgon2OutputBytesDefault⟩

def suiteToAeadAlgId : CipherSuite → UInt16
  | .xChaCha20Poly1305 => kAeadAlgIdXChaCha20Poly1305
  | .aes256Gcm => kAeadAlgIdAes256Gcm

structure CoreEncryptParams where
  suite : CipherSuite
  kdfPreset : KdfPreset
  chunkSize : UInt64
  shardSize : UInt64
  padding : PaddingPolicy
  stdoutOutput : Bool
  allowLargeStdout : Bool
  deriving DecidableEq

def kChunkSizeMin : UInt64 := 65536
def kChunkSizeMax : UInt64 := 67108864

def validateShardSize (params : CoreEncryptParams) : Result Unit :=
  if params.stdoutOutput then .ok ()
  else if params.shardSize = 0 then .error (.invalidArgument "--shard-size must be nonzero")
  else do
    let minFrame ← chunkFrameV1EncodedSizeFromParams params.chunkSize 16
    if minFrame > params.shardSize then
      .error (.invalidArgument ("--shard-size " ++ toString params.shardSize ++
        " bytes is too small: --chunk-size " ++ toString params.chunkSize ++
        " bytes produces a minimum frame of " ++ toString minFrame ++
        " bytes; set --shard-size to at least " ++ toString minFrame ++ " bytes"))
    else .ok ()

def validatePadding (params : CoreEncryptParams) : Result Unit :=
  if params.padding.kind = .fixedSize then
    if params.padding.fixedSizeBytes = 0 then
      .error (.invalidArgument "fixed-size padding value must be nonzero")
    else if params.padding.fixedSizeBytes % params.chunkSize ≠ 0 then
      .error (fixedTargetNotMultiple params.padding.fixedSizeBytes params.chunkSize)
    else .ok ()
  else .ok ()

/-- The checks on sizes; those on paths are left out. -/
def validateEncryptParams (params : CoreEncryptParams) : Result Unit :=
  if params.chunkSize < kChunkSizeMin ∨ params.chunkSize > kChunkSizeMax then
    .error (.invalidArgument ("--chunk-size must be between " ++ toString kChunkSizeMin ++
      " and " ++ toString kChunkSizeMax ++ " bytes inclusive; got " ++ toString params.chunkSize))
  else if params.chunkSize &&& (params.chunkSize - 1) ≠ 0 then
    .error (.invalidArgument ("--chunk-size must be a power of two; got " ++
      toString params.chunkSize))
  else do
    validateShardSize params
    validatePadding params

def CoreEncryptParams.effectiveShardSize (params : CoreEncryptParams) : UInt64 :=
  if params.stdoutOutput then u64Max else params.shardSize

/-- The header of `make_encrypt_context`; the random values are arguments. -/
def makeEncryptHeader (params : CoreEncryptParams) (archiveId kdfSalt : Bytes32) :
    GlobalPublicHeaderV1 where
  magic := kGlobalHeaderV1Magic
  formatMajor := 1
  formatMinor := 0
  globalHeaderLen := 192
  shardHeaderLen := 80
  frameHeaderLen := 40
  globalFlags := 0
  archiveId := archiveId
  aeadAlgId := suiteToAeadAlgId params.suite
  kdfAlgId := kKdfAlgIdArgon2idHkdf
  hashAlgId := kHashAlgIdBlake3
  macAlgId := kMacAlgIdHmacSha256
  kdfSalt := kdfSalt
  argon2Version := 0x13
  argon2MemoryKib := (presetParams params.kdfPreset).memoryKib
  argon2Iterations := (presetParams params.kdfPreset).iterations
  argon2Parallelism := (presetParams params.kdfPreset).parallelism
  chunkPlainSize := params.chunkSize.toUInt32
  shardCount := 0
  globalChunkCount := 0
  paddedPlaintextSize := 0
  finalPlaintextChunkLen := 0
  paddingPolicyId := 0
  reserved0 := 0
  paddingPolicyValue := 0
  maxShardPayloadLen := 0
  requiredFeatureFlags := 0
  reserved1 := List.Vector.replicate 24 0

def planChunkCounts (paddedPlaintextSize chunkPlainSize : UInt64) : Result (UInt64 × UInt32) :=
  if paddedPlaintextSize = 0 then .ok (1, (min chunkPlainSize 0xffffffff).toUInt32)
  else do
    let count ← checkedCeilDivU64 paddedPlaintextSize chunkPlainSize "chunk count"
    let rem := paddedPlaintextSize % chunkPlainSize
    pure (count, if rem = 0 then chunkPlainSize.toUInt32 else rem.toUInt32)

def checkStdoutSize (params : CoreEncryptParams) (paddedPlaintextSize : UInt64) : Result Unit :=
  if params.stdoutOutput ∧ ¬params.allowLargeStdout ∧ paddedPlaintextSize > (1 : UInt64) <<< 30 then
    .error (.invalidArgument ("--output - buffers the entire shard in memory; planned plaintext " ++
      "size (" ++ toString paddedPlaintextSize ++
      " bytes) exceeds 1 GiB. Pass --allow-large-stdout to proceed."))
  else .ok ()

/-- The header once the chunks are counted; the number of shards is filled in last. -/
def countedHeader (params : CoreEncryptParams) (archiveId kdfSalt : Bytes32) (pad : PaddingResult)
    (count : UInt64) (finalLen : UInt32) : GlobalPublicHeaderV1 :=
  { makeEncryptHeader params archiveId kdfSalt with
    paddingPolicyId := pad.policyId
    paddingPolicyValue := pad.policyValue
    globalChunkCount := count
    paddedPlaintextSize := if pad.targetSize = 0 then finalLen.toUInt64 else pad.targetSize
    finalPlaintextChunkLen := finalLen
    maxShardPayloadLen := params.effectiveShardSize }

/-- `core_encrypt` from the planned plaintext size to the shard plan. -/
def planArchive (blake3 : Bytes → Bytes32) (params : CoreEncryptParams)
    (archiveId kdfSalt : Bytes32) (rawPlaintextSize : UInt64) :
    Result (GlobalPublicHeaderV1 × List ShardPlan) := do
  validateKdfParams (presetParams params.kdfPreset)
  let pad ← computePadding rawPlaintextSize params.chunkSize params.padding
  checkStdoutSize params pad.targetSize
  let (count, finalLen) ← planChunkCounts pad.targetSize params.chunkSize
  let gh := countedHeader params archiveId kdfSalt pad count finalLen
  let plans ← planShards count params.chunkSize 16 params.effectiveShardSize gh
  let gh := { gh with shardCount := UInt32.ofNat plans.length }
  pure (gh, fillPerShardHashes blake3 plans gh)

section Counts

theorem planChunkCounts_ok {padded c : UInt64} (pos : padded ≠ 0) (chunk : c ≠ 0) (count : UInt64)
    (finalLen : UInt32) :
    planChunkCounts padded c = .ok (count, finalLen) ↔
      count.toNat = (padded.toNat + c.toNat - 1) / c.toNat ∧
        finalLen = UInt32.ofNat
          (if padded.toNat % c.toNat = 0 then c.toNat else padded.toNat % c.toNat) := by
  have zero : padded % c = 0 ↔ padded.toNat % c.toNat = 0 := by
    rw [← UInt64.toNat_inj, UInt64.toNat_mod, UInt64.toNat_zero]
  have final : (if padded % c = 0 then c.toUInt32 else (padded % c).toUInt32) = UInt32.ofNat
      (if padded.toNat % c.toNat = 0 then c.toNat else padded.toNat % c.toNat) := by
    by_cases exact : padded.toNat % c.toNat = 0
    · rw [if_pos exact, if_pos (zero.mpr exact)]
      exact UInt32.toNat_inj.mp (by rw [UInt64.toNat_toUInt32, UInt32.toNat_ofNat'])
    · rw [if_neg exact, if_neg (fun h => exact (zero.mp h)), ← UInt64.toNat_mod]
      exact UInt32.toNat_inj.mp (by rw [UInt64.toNat_toUInt32, UInt32.toNat_ofNat'])
  unfold planChunkCounts
  rw [if_neg pos, Result.bind_eq_ok]
  simp only [checkedCeilDivU64_ok _ _ _ _ chunk]
  constructor
  · rintro ⟨n, value, same⟩
    cases same
    exact ⟨value, final⟩
  · rintro ⟨value, rfl⟩
    exact ⟨count, value, by rw [final]; rfl⟩

theorem chunk_counts {total c : Nat} (pos : 0 < total) (chunk : 0 < c) :
    1 ≤ (total + c - 1) / c ∧ 1 ≤ (if total % c = 0 then c else total % c) ∧
      (if total % c = 0 then c else total % c) ≤ c ∧
      ((total + c - 1) / c - 1) * c + (if total % c = 0 then c else total % c) = total := by
  have split := Nat.div_add_mod total c
  have rem := Nat.mod_lt total chunk
  generalize total / c = q at split
  generalize total % c = r at split rem
  subst split
  by_cases exact : r = 0
  · subst exact
    have count : (c * q + 0 + c - 1) / c = q := by
      rw [Nat.add_zero, Nat.add_sub_assoc (by omega), Nat.mul_add_div chunk,
        Nat.div_eq_of_lt (show c - 1 < c by omega), Nat.add_zero]
    have some : 1 ≤ q := by
      by_contra none
      rw [show q = 0 by omega, Nat.mul_zero] at pos
      omega
    rw [if_pos rfl, count]
    refine ⟨some, chunk, le_rfl, ?_⟩
    rw [← Nat.succ_mul, Nat.succ_eq_add_one, Nat.sub_add_cancel some, Nat.mul_comm, Nat.add_zero]
  · have count : (c * q + r + c - 1) / c = q + 1 := by
      rw [show c * q + r + c - 1 = c * (q + 1) + (r - 1) by rw [Nat.mul_succ]; omega,
        Nat.mul_add_div chunk, Nat.div_eq_of_lt (show r - 1 < c by omega), Nat.add_zero]
    rw [if_neg exact, count]
    refine ⟨by omega, by omega, rem.le, ?_⟩
    rw [Nat.add_sub_cancel, Nat.mul_comm]

theorem counts_of_split (full : Nat) {c last : Nat} (some : 1 ≤ last) (short : last ≤ c) :
    (full * c + last + c - 1) / c = full + 1 ∧
      (if (full * c + last) % c = 0 then c else (full * c + last) % c) = last := by
  have pos : 0 < c := some.trans short
  constructor
  · rw [show full * c + last + c - 1 = c * (full + 1) + (last - 1) by
        rw [Nat.mul_comm full, Nat.mul_succ]; omega, Nat.mul_add_div pos,
      Nat.div_eq_of_lt (show last - 1 < c by omega), Nat.add_zero]
  · rw [Nat.mul_comm full, Nat.mul_add_mod]
    rcases Nat.lt_or_eq_of_le short with less | same
    · rw [Nat.mod_eq_of_lt less, if_neg (by omega)]
    · rw [same, Nat.mod_self, if_pos rfl]

end Counts

structure ParamsRules (params : CoreEncryptParams) : Prop where
  chunkSize : ValidChunkSize params.chunkSize
  frameFits : 40 + params.chunkSize.toNat + 16 ≤ params.effectiveShardSize.toNat

theorem validateEncryptParams_rules {params : CoreEncryptParams} {u : Unit}
    (valid : validateEncryptParams params = .ok u) : ParamsRules params := by
  unfold validateEncryptParams at valid
  rw [Result.guard_eq_ok, Result.guard_eq_ok, Result.bind_eq_ok, not_or] at valid
  obtain ⟨⟨low, high⟩, power, _, sized, -⟩ := valid
  have chunk : ValidChunkSize params.chunkSize :=
    ⟨UInt64.not_lt.mp low, UInt64.not_lt.mp high, not_not.mp power⟩
  have bounds := chunk.bounds
  refine ⟨chunk, ?_⟩
  unfold validateShardSize at sized
  unfold CoreEncryptParams.effectiveShardSize
  by_cases stdout : params.stdoutOutput = true
  · rw [if_pos stdout, u64Max_toNat]
    omega
  · rw [if_neg stdout] at sized ⊢
    rw [Result.guard_eq_ok, Result.bind_eq_ok] at sized
    obtain ⟨-, minFrame, size, fits⟩ := sized
    rw [Result.guard_eq_ok, gt_iff_lt, UInt64.not_lt, UInt64.le_iff_toNat_le] at fits
    rw [chunkFrameV1EncodedSizeFromParams_ok] at size
    have tag : (16 : UInt16).toNat = 16 := rfl
    omega

section Layout
variable {params : CoreEncryptParams} (rules : ParamsRules params) {padded count : UInt64}
  {finalLen : UInt32}

theorem chunkPlainSize_toNat (rules : ParamsRules params) :
    params.chunkSize.toUInt32.toNat = params.chunkSize.toNat := by
  have bounds := rules.chunkSize.bounds
  rw [UInt64.toNat_toUInt32, Nat.mod_eq_of_lt (by omega)]

theorem counts_of_planned (rules : ParamsRules params) (pos : padded ≠ 0)
    (counted : planChunkCounts padded params.chunkSize = .ok (count, finalLen)) :
    1 ≤ count.toNat ∧ 1 ≤ finalLen.toNat ∧ finalLen.toNat ≤ params.chunkSize.toNat ∧
      (count.toNat - 1) * params.chunkSize.toNat + finalLen.toNat = padded.toNat ∧
      (padded.toNat % params.chunkSize.toNat = 0 → finalLen = params.chunkSize.toUInt32) := by
  have bounds := rules.chunkSize.bounds
  have chunk : params.chunkSize ≠ 0 := by
    intro zero
    rw [zero] at bounds
    exact absurd bounds.1 (by decide)
  obtain ⟨number, final⟩ := (planChunkCounts_ok pos chunk count finalLen).mp counted
  obtain ⟨some, last, short, total⟩ := chunk_counts (u64_pos pos) (u64_pos chunk)
  have value : finalLen.toNat = if padded.toNat % params.chunkSize.toNat = 0 then
      params.chunkSize.toNat else padded.toNat % params.chunkSize.toNat := by
    rw [final, UInt32.toNat_ofNat_of_lt' (by simp only [UInt32.size]; omega)]
  rw [number, value]
  refine ⟨some, last, short, total, fun exact => UInt32.toNat_inj.mp ?_⟩
  rw [value, if_pos exact, chunkPlainSize_toNat rules]

def layoutOf (rules : ParamsRules params) (pos : padded ≠ 0)
    (counted : planChunkCounts padded params.chunkSize = .ok (count, finalLen)) : ChunkLayout where
  chunkPlainSize := params.chunkSize.toUInt32
  finalLen := finalLen
  maxShardPayloadLen := params.effectiveShardSize
  n := count.toNat
  chunks := (counts_of_planned rules pos counted).1
  finalPos := (counts_of_planned rules pos counted).2.1
  finalLe := by
    rw [chunkPlainSize_toNat rules]
    exact (counts_of_planned rules pos counted).2.2.1
  frameFits := by
    rw [chunkPlainSize_toNat rules]
    exact rules.frameFits
  total := by
    rw [chunkPlainSize_toNat rules, (counts_of_planned rules pos counted).2.2.2.1]
    exact padded.toNat_lt

end Layout

section Plan
variable {params : CoreEncryptParams} (archiveId kdfSalt : Bytes32) {raw : UInt64}
  {blake3 : Bytes → Bytes32}

theorem counts_countedHeader (rules : ParamsRules params) {pad : PaddingResult} {count : UInt64}
    {finalLen : UInt32} (pos : pad.targetSize ≠ 0)
    (counted : planChunkCounts pad.targetSize params.chunkSize = .ok (count, finalLen)) :
    Counts (layoutOf rules pos counted)
      (countedHeader params archiveId kdfSalt pad count finalLen) := by
  refine ⟨rfl, rfl, ?_, ?_⟩
  · exact UInt64.toNat_inj.mp (UInt64.toNat_ofNat_of_lt' count.toNat_lt).symm
  · show (if pad.targetSize = 0 then finalLen.toUInt64 else pad.targetSize).toNat =
      (count.toNat - 1) * params.chunkSize.toUInt32.toNat + finalLen.toNat
    rw [if_neg pos, chunkPlainSize_toNat rules, (counts_of_planned rules pos counted).2.2.2.1]

theorem planArchive_ok (rules : ParamsRules params) (some : 1 ≤ raw) {g : GlobalPublicHeaderV1}
    {plans : List ShardPlan}
    (planned : planArchive blake3 params archiveId kdfSalt raw = .ok (g, plans)) :
    ∃ pad count finalLen, ∃ (pos : pad.targetSize ≠ 0)
      (counted : planChunkCounts pad.targetSize params.chunkSize = .ok (count, finalLen)),
      computePadding raw params.chunkSize params.padding = .ok pad ∧
      plans.length = (layoutOf rules pos counted).bins.length ∧
      g = { countedHeader params archiveId kdfSalt pad count finalLen with
        shardCount := UInt32.ofNat plans.length } ∧
      plans = fillPerShardHashes blake3 ((layoutOf rules pos counted).bins.mapIdx binPlan) g := by
  obtain ⟨_, -, planned⟩ := (Result.bind_eq_ok ..).mp planned
  obtain ⟨pad, padded, planned⟩ := (Result.bind_eq_ok ..).mp planned
  obtain ⟨_, -, planned⟩ := (Result.bind_eq_ok ..).mp planned
  obtain ⟨⟨count, finalLen⟩, counted, planned⟩ := (Result.bind_eq_ok ..).mp planned
  obtain ⟨bare, shards, planned⟩ := (Result.bind_eq_ok ..).mp planned
  cases planned
  have pos : pad.targetSize ≠ 0 := by
    intro zero
    have gap := ((computePadding_ok rules.chunkSize some _ _).mp padded).1.gap
    have least := UInt64.le_iff_toNat_le.mp some
    rw [zero] at gap
    rcases gap with same | wide
    · rw [← same] at least
      exact absurd least (by decide)
    · exact absurd wide (Nat.not_le.mpr (Nat.succ_pos _))
  have bins := planShards_eq (layoutOf rules pos counted)
    (countedHeader params archiveId kdfSalt pad count finalLen) rfl
  have size : (layoutOf rules pos counted).chunkPlainSize.toUInt64 = params.chunkSize :=
    UInt64.toNat_inj.mp (by
      rw [UInt32.toNat_toUInt64]
      exact chunkPlainSize_toNat rules)
  have number : (layoutOf rules pos counted).chunkCount = count :=
    UInt64.toNat_inj.mp (UInt64.toNat_ofNat_of_lt' count.toNat_lt)
  rw [size, number] at bins
  have same := Except.ok.inj (shards.symm.trans bins)
  have length : (fillPerShardHashes blake3 bare
      { countedHeader params archiveId kdfSalt pad count finalLen with
        shardCount := UInt32.ofNat bare.length }).length = bare.length := List.length_map ..
  refine ⟨pad, count, finalLen, pos, counted, padded, ?_, ?_, ?_⟩
  · rw [length, same, List.length_mapIdx]
  · rw [length]
  · rw [same]

theorem paddingPolicyRules_of_target {pad : PaddingResult} {count : UInt64} {finalLen : UInt32}
    (rules : ParamsRules params) (pos : pad.targetSize ≠ 0)
    (counted : planChunkCounts pad.targetSize params.chunkSize = .ok (count, finalLen))
    (some : 1 ≤ raw) (padded : computePadding raw params.chunkSize params.padding = .ok pad) :
    PaddingPolicyRules (countedHeader params archiveId kdfSalt pad count finalLen) := by
  obtain ⟨target, id, value⟩ := (computePadding_ok rules.chunkSize some _ _).mp padded
  have size : (countedHeader params archiveId kdfSalt pad count finalLen).paddedPlaintextSize =
      pad.targetSize := if_neg pos
  have full : params.chunkSize.toNat ∣ pad.targetSize.toNat →
      FullChunks (countedHeader params archiveId kdfSalt pad count finalLen) := by
    intro multiple
    have zero := Nat.mod_eq_zero_of_dvd multiple
    refine ⟨?_, (counts_of_planned rules pos counted).2.2.2.2 zero⟩
    rw [size, ← UInt64.toNat_inj, UInt64.toNat_mod, UInt32.toNat_toUInt64]
    show pad.targetSize.toNat % params.chunkSize.toUInt32.toNat = 0
    rw [chunkPlainSize_toNat rules, zero]
  unfold PaddingTarget at target
  unfold PaddingPolicy.id at id
  unfold PaddingPolicy.value at value
  generalize params.padding = policy at target id value
  obtain ⟨kind, n⟩ := policy
  cases kind with
  | none => exact .none id value
  | chunk => exact .chunk id value (full target.1.1)
  | power2 =>
    obtain ⟨holds, k, power⟩ := target.1.1
    obtain ⟨j, chunk⟩ := rules.chunkSize.power_of_two
    refine .power2 id value ?_ (full ?_)
    · rw [size]
      exact isPowerOfTwo64_of_toNat power
    · rw [power, chunk]
      rw [power, chunk] at holds
      exact Nat.pow_dvd_pow 2 ((Nat.pow_le_pow_iff_right (by decide)).mp
        ((Nat.le_max_right _ _).trans holds))
  | fixedSize =>
    refine .fixedSize id ?_ (full target.2.1)
    rw [size]
    exact value.trans (UInt64.toNat_inj.mp target.1.symm)

theorem globalHeaderRules_planned {pad : PaddingResult} {count : UInt64} {finalLen : UInt32}
    (rules : ParamsRules params) (pos : pad.targetSize ≠ 0)
    (counted : planChunkCounts pad.targetSize params.chunkSize = .ok (count, finalLen))
    (some : 1 ≤ raw) (padded : computePadding raw params.chunkSize params.padding = .ok pad)
    (few : (layoutOf rules pos counted).bins.length < 2 ^ 32) :
    GlobalHeaderRules { countedHeader params archiveId kdfSalt pad count finalLen with
      shardCount := UInt32.ofNat (layoutOf rules pos counted).bins.length } := by
  obtain ⟨chunks, last, short, total, -⟩ := counts_of_planned rules pos counted
  have bounds := rules.chunkSize.bounds
  have size := chunkPlainSize_toNat rules
  have effective := rules.frameFits
  have shards : (UInt32.ofNat (layoutOf rules pos counted).bins.length).toNat =
      (layoutOf rules pos counted).bins.length := UInt32.toNat_ofNat_of_lt' few
  have bins : 0 < (layoutOf rules pos counted).bins.length := by
    unfold ChunkLayout.bins Packing.bins
    rw [List.length_append, List.length_singleton]
    exact Nat.succ_pos _
  have perShard : (layoutOf rules pos counted).bins.length ≤ count.toNat := by
    have := chain_length_le (packed_chain _) fun b member =>
      (bin_pos (layoutOf rules pos counted) b member).1
    rwa [Nat.zero_add] at this
  obtain ⟨j, power⟩ := rules.chunkSize.power_of_two
  have padding := paddingPolicyRules_of_target archiveId kdfSalt rules pos counted some padded
  have atMost : params.chunkSize.toUInt32 ≤ 67108864 := by
    rw [UInt32.le_iff_toNat_le, size]
    exact bounds.2
  have atLeast : 65536 ≤ params.chunkSize.toUInt32 := by
    rw [UInt32.le_iff_toNat_le, size]
    exact bounds.1
  have shardsPos : UInt32.ofNat (layoutOf rules pos counted).bins.length ≠ 0 := by
    intro zero
    rw [zero, UInt32.toNat_zero] at shards
    omega
  have countPos : count ≠ 0 := by
    rintro rfl
    exact absurd chunks (by decide)
  have lastPos : finalLen ≠ 0 := by
    rintro rfl
    exact absurd last (by decide)
  have shortEnough : finalLen ≤ params.chunkSize.toUInt32 := by
    rw [UInt32.le_iff_toNat_le, size]
    exact short
  have padSize : (if pad.targetSize = 0 then finalLen.toUInt64 else pad.targetSize) =
      pad.targetSize := if_neg pos
  have consistent : pad.targetSize =
      (count - 1) * params.chunkSize.toUInt32.toUInt64 + finalLen.toUInt64 := by
    rw [← UInt64.toNat_inj, UInt64.toNat_add, UInt64.toNat_mul, u64_sub_one_toNat countPos,
      UInt32.toNat_toUInt64, UInt32.toNat_toUInt64, size, Nat.mod_add_mod, total,
      Nat.mod_eq_of_lt pad.targetSize.toNat_lt]
  have perShard' : (UInt32.ofNat (layoutOf rules pos counted).bins.length).toUInt64 ≤ count := by
    rw [UInt64.le_iff_toNat_le, UInt32.toNat_toUInt64, shards]
    exact perShard
  have payload : params.effectiveShardSize ≠ 0 := by
    intro zero
    rw [zero, UInt64.toNat_zero] at effective
    omega
  have policy : PaddingPolicyRules { countedHeader params archiveId kdfSalt pad count finalLen with
      shardCount := UInt32.ofNat (layoutOf rules pos counted).bins.length } := by
    cases padding with
    | none id value => exact .none id value
    | chunk id value full => exact .chunk id value full
    | power2 id value power full => exact .power2 id value power full
    | fixedSize id value full => exact .fixedSize id value full
  have suite : suiteToAeadAlgId params.suite = kAeadAlgIdXChaCha20Poly1305 ∨
      suiteToAeadAlgId params.suite = kAeadAlgIdAes256Gcm := by
    cases params.suite with
    | xChaCha20Poly1305 => exact .inl rfl
    | aes256Gcm => exact .inr rfl
  refine ⟨⟨rfl, rfl⟩, rfl, rfl, rfl, rfl, suite, rfl, rfl, rfl, shardsPos, countPos, ?_,
    ⟨isPowerOfTwo32_of_toNat (size.trans power), atLeast, atMost⟩, lastPos, shortEnough, ?_,
    perShard', policy, payload, rfl, rfl, rfl⟩
  · show (if pad.targetSize = 0 then finalLen.toUInt64 else pad.targetSize) ≠ 0
    rw [padSize]
    exact pos
  · show (if pad.targetSize = 0 then finalLen.toUInt64 else pad.targetSize) = _
    rw [padSize]
    exact consistent

end Plan

section Shards
variable (blake3 : Bytes → Bytes32) (hmacSha256 : Bytes → Bytes → Bytes32) (key : Bytes)
  (path : ShardPlan → Bytes) (g : GlobalPublicHeaderV1)

/-- The shard of a plan as it is read back: its header carries the MAC. -/
def ShardPlan.info (plan : ShardPlan) : ShardInfo where
  path := path plan
  globalHeader := g
  shardHeader := plan.header.signed hmacSha256 key g
  publicHeaderHash := computePublicHeaderHash blake3 g plan.header
  fileSize := kPayloadOffset + plan.payloadLen

structure ExpectsArchive (validation : ShardReaderValidation) (plans : List ShardPlan) :
    Prop where
  suiteId : Expects validation.suiteId g.aeadAlgId
  archiveId : Expects validation.archiveId g.archiveId
  chunkPlainSize : Expects validation.chunkPlainSize g.chunkPlainSize.toUInt64
  publicHeaderHash : plans.length = 1 → ∀ plan ∈ plans, Expects validation.publicHeaderHash
    (computePublicHeaderHash blake3 g plan.header)

theorem covers_of_chain {bins : List Bin} {first stop : Nat} (chain : Chain bins first stop)
    (shard : Nat → Bin → ShardInfo) (matched : ∀ k, ∀ b ∈ bins,
      (shard k b).firstChunkIndex.toNat = b.first ∧ (shard k b).chunkCount.toNat = b.count) :
    Covers (bins.mapIdx shard) first stop := by
  induction bins generalizing first shard with
  | nil => exact chain
  | cons b bins ih =>
    obtain ⟨start, count⟩ := matched 0 b List.mem_cons_self
    rw [List.mapIdx_cons]
    refine ⟨start.trans chain.1, ?_⟩
    rw [count]
    exact ih chain.2 (fun k => shard (k + 1)) fun k c member =>
      matched (k + 1) c (List.mem_cons_of_mem _ member)

variable {g} {l : ChunkLayout}

theorem infos_of_bins (plans : List ShardPlan)
    (planned : plans = fillPerShardHashes blake3 (l.bins.mapIdx binPlan) g) :
    plans.map (ShardPlan.info blake3 hmacSha256 key path g) = l.bins.mapIdx fun k b =>
      ShardPlan.info blake3 hmacSha256 key path g { binPlan k b with
        publicHeaderHash := computePublicHeaderHash blake3 g (binPlan k b).header } := by
  rw [planned, fillPerShardHashes, List.map_map]
  exact List.ext_getElem (by simp) fun i left right => by simp

theorem shardSet_of_plans {validation : ShardReaderValidation} {plans : List ShardPlan}
    (planned : plans = fillPerShardHashes blake3 (l.bins.mapIdx binPlan) g)
    (few : l.bins.length < 2 ^ 32) (chunks : g.globalChunkCount = l.chunkCount)
    (shards : g.shardCount = UInt32.ofNat l.bins.length)
    (expects : ExpectsArchive blake3 g validation plans) :
    ShardSet hmacSha256 validation key
      (plans.map (ShardPlan.info blake3 hmacSha256 key path g)) g.globalChunkCount := by
  have infos := infos_of_bins blake3 hmacSha256 key path plans planned
  have length : (plans.map (ShardPlan.info blake3 hmacSha256 key path g)).length =
      l.bins.length := by rw [infos, List.length_mapIdx]
  have bins : l.bins ≠ [] := List.append_ne_nil_of_right_ne_nil _ (List.cons_ne_nil _ _)
  have member (s : ShardInfo)
      (listed : s ∈ plans.map (ShardPlan.info blake3 hmacSha256 key path g)) :
      ∃ plan ∈ plans, s = plan.info blake3 hmacSha256 key path g := by
    obtain ⟨plan, among, same⟩ := List.mem_map.mp listed
    exact ⟨plan, among, same.symm⟩
  refine ⟨?_, ?_, ?_, ?_, ?_, ?_⟩
  · rw [infos]
    exact List.mapIdx_ne_nil_iff.mpr bins
  · rw [length]
    refine List.ext_getElem (by rw [List.length_map, length, List.length_range]) ?_
    intro i left right
    rw [List.length_range] at right
    simp only [List.getElem_map, List.getElem_range, List.getElem_of_eq infos,
      List.getElem_mapIdx]
    exact UInt32.toNat_ofNat_of_lt' (by simp only [UInt32.size]; omega)
  · intro s listed front other
    obtain ⟨plan, among, rfl⟩ := member s listed
    obtain ⟨_, -, rfl⟩ := member front other
    refine ⟨rfl, expects.suiteId, expects.archiveId, expects.chunkPlainSize, ?_, ?_⟩
    · intro alone
      rw [List.length_map, beq_iff_eq] at alone
      exact expects.publicHeaderHash alone plan among
    · intro there
      exact verifyShardHeaderMac_computed hmacSha256 key g plan.header _
        (computeShardHeaderMac_of_key hmacSha256 key g plan.header there)
  · intro s listed
    obtain ⟨plan, -, rfl⟩ := member s listed
    rw [length]
    show g.shardCount.toNat = _
    rw [shards, UInt32.toNat_ofNat_of_lt' few]
  · intro s listed
    obtain ⟨plan, -, rfl⟩ := member s listed
    rfl
  · rw [infos, chunks, l.chunkCount_toNat]
    refine covers_of_chain (packed_chain l.n) _ fun k b inside => ?_
    obtain ⟨first, count, -⟩ := bin_values l b inside
    exact ⟨first, count⟩

theorem shardHeader_of_plans {plans : List ShardPlan}
    (planned : plans = fillPerShardHashes blake3 (l.bins.mapIdx binPlan) g)
    {plan : ShardPlan} (member : plan ∈ plans) (mac : Bytes32) :
    parseShardPublicHeader (serializeShardPublicHeader { plan.header with headerMac := mac }) =
      .ok { plan.header with headerMac := mac } := by
  rw [planned] at member
  obtain ⟨bare, listed, rfl⟩ := List.mem_map.mp member
  obtain ⟨k, b, here, rfl⟩ := mem_plans listed
  obtain ⟨-, count, load⟩ := bin_values l b (List.mem_of_getElem? here)
  obtain ⟨chunks, payload⟩ := bin_pos l b (List.mem_of_getElem? here)
  have chunksPos : UInt64.ofNat b.count ≠ 0 := by
    intro zero
    rw [zero, UInt64.toNat_zero] at count
    omega
  have payloadPos : UInt64.ofNat b.load ≠ 0 := by
    intro zero
    rw [zero, UInt64.toNat_zero] at load
    omega
  exact (parseShardPublicHeader_ok _ _).mpr
    ⟨⟨rfl, rfl, chunksPos, payloadPos, rfl⟩, [], List.append_nil _⟩

end Shards

theorem validateKdfParams_preset (params : CoreEncryptParams) (archiveId kdfSalt : Bytes32) :
    validateKdfParams (presetParams params.kdfPreset) = .ok () ∧
      validateKdfParams (kdfParamsOf (makeEncryptHeader params archiveId kdfSalt)) = .ok () := by
  have rules : KdfParamsRules (presetParams params.kdfPreset) := by
    cases params.kdfPreset <;> exact ⟨by decide, by decide, by decide, by decide⟩
  have output : kArgon2OutputBytesMin ≤ kArgon2OutputBytesDefault ∧
      kArgon2OutputBytesDefault ≤ kArgon2OutputBytesMax := by decide
  rw [validateKdfParams_ok, validateKdfParams_ok]
  exact ⟨rules, rules.memoryKib, rules.iterations, rules.parallelism, output⟩

/-- What `core_encrypt` emits is accepted by its own parsers and by the shard-set checks, with the
shards found in any order. -/
structure HeadersAccepted (blake3 : Bytes → Bytes32) (hmacSha256 : Bytes → Bytes → Bytes32)
    (g : GlobalPublicHeaderV1) (plans : List ShardPlan) : Prop where
  kdfParams : validateKdfParams (kdfParamsOf g) = .ok ()
  globalHeader : parseGlobalPublicHeader (serializeGlobalPublicHeader g) = .ok g
  shardHeader : ∀ plan ∈ plans, ∀ mac,
    parseShardPublicHeader (serializeShardPublicHeader { plan.header with headerMac := mac }) =
      .ok { plan.header with headerMac := mac }
  shardSet : ∀ key path validation shards, ExpectsArchive blake3 g validation plans →
    shards.Perm (plans.map (ShardPlan.info blake3 hmacSha256 key path g)) →
    validateShards hmacSha256 validation key shards =
      .ok (plans.map (ShardPlan.info blake3 hmacSha256 key path g), g.globalChunkCount)

theorem headers_accepted {params : CoreEncryptParams} {raw : UInt64}
    (valid : validateEncryptParams params = .ok ()) (some : 1 ≤ raw)
    (blake3 : Bytes → Bytes32) (hmacSha256 : Bytes → Bytes → Bytes32)
    (archiveId kdfSalt : Bytes32) {g : GlobalPublicHeaderV1} {plans : List ShardPlan}
    (planned : planArchive blake3 params archiveId kdfSalt raw = .ok (g, plans))
    (few : plans.length < 2 ^ 32) :
    validateKdfParams (presetParams params.kdfPreset) = .ok () ∧
      HeadersAccepted blake3 hmacSha256 g plans := by
  have rules := validateEncryptParams_rules valid
  have kdf := validateKdfParams_preset params archiveId kdfSalt
  obtain ⟨pad, count, finalLen, pos, counted, padded, length, header, shards⟩ :=
    planArchive_ok archiveId kdfSalt rules some planned
  have counts := counts_countedHeader archiveId kdfSalt rules pos counted
  have binsFew : (layoutOf rules pos counted).bins.length < 2 ^ 32 := length ▸ few
  have accepted := globalHeaderRules_planned archiveId kdfSalt rules pos counted some padded binsFew
  rw [← length, ← header] at accepted
  have magic : g.magic = kGlobalHeaderV1Magic := by rw [header]; rfl
  have parsed : parseGlobalPublicHeader (serializeGlobalPublicHeader g) = .ok g :=
    (parseGlobalPublicHeader_ok _ _).mpr ⟨magic, accepted, [], List.append_nil _⟩
  have chunks : g.globalChunkCount = (layoutOf rules pos counted).chunkCount := by
    rw [header]
    exact counts.globalChunkCount
  have shardCount : g.shardCount = UInt32.ofNat (layoutOf rules pos counted).bins.length := by
    rw [header, length]
  have shardHeader : ∀ plan ∈ plans, ∀ mac, parseShardPublicHeader
      (serializeShardPublicHeader { plan.header with headerMac := mac }) =
        .ok { plan.header with headerMac := mac } :=
    fun plan member mac => shardHeader_of_plans blake3 shards member mac
  refine ⟨kdf.1, ?_, parsed, shardHeader, ?_⟩
  · rw [header]
    exact kdf.2
  · intro key path validation found expects perm
    refine (validateShards_ok _ _ _ _ _ _ fun s member => ?_).mpr
      ⟨perm.symm, shardSet_of_plans blake3 hmacSha256 key path shards binsFew chunks shardCount
        expects⟩
    obtain ⟨plan, among, rfl⟩ := List.mem_map.mp (perm.mem_iff.mp member)
    exact ⟨⟨_, parsed⟩, ⟨_, shardHeader plan among _⟩⟩

def fiveBytesParams : CoreEncryptParams where
  suite := .aes256Gcm
  kdfPreset := .fast
  chunkSize := 65536
  shardSize := 65592
  padding := ⟨.none, 0⟩
  stdoutOutput := false
  allowLargeStdout := false

/-- Two chunks, each in a shard of its own. -/
theorem headers_accepted_twoShards :
    HeadersAccepted (fun _ => zeroMac) (fun _ _ => zeroMac)
      { countedHeader fiveBytesParams zeroMac zeroMac ⟨65541, 0, 0⟩ 2 5 with shardCount := 2 }
      [⟨0, 0, 1, 65592, zeroMac⟩, ⟨1, 1, 1, 61, zeroMac⟩] := by
  have valid : validateEncryptParams fiveBytesParams = .ok () := by decide +kernel
  have some : (1 : UInt64) ≤ 65541 := by decide
  have planned : planArchive (fun _ => zeroMac) fiveBytesParams zeroMac zeroMac 65541 =
      .ok ({ countedHeader fiveBytesParams zeroMac zeroMac ⟨65541, 0, 0⟩ 2 5 with shardCount := 2 },
        [⟨0, 0, 1, 65592, zeroMac⟩, ⟨1, 1, 1, 61, zeroMac⟩]) := by decide +kernel
  exact (headers_accepted valid some _ _ _ _ planned (by decide)).2

end Bseal.App
