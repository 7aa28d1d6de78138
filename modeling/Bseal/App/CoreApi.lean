import Bseal.App.EncryptHeader
import Bseal.Crypto.MasterKey
import Bseal.Pipeline.Decrypt

/-! `core_encrypt` and `core_decrypt` up to the run of their pipelines. The checks on paths, the
memory lock, the warnings and the progress reports are left out. -/
namespace Bseal.App
open Bseal.Crypto Bseal.Io Bseal.Pipeline Bseal.Platform

section Keys
variable (c : Primitives)

def deriveExpandedKeys (context : ArchiveOpenContext) (passphrase : Bytes)
    (keyfiles : List Keyfile) : Result ExpandedKeys := do
  let masterSeed ← deriveMasterSeed c
    ⟨passphrase, keyfiles, context.kdfSalt, context.archiveId, context.kdfParams⟩
  expandKeys c masterSeed context.suite

end Keys

section Encrypt

structure EncryptRequest where
  params : CoreEncryptParams
  output : Bytes
  passphrase : Bytes
  keyfiles : List Keyfile
  durabilityMode : DurabilityMode
  directory : params.stdoutOutput = false

def makeEncryptContext (params : CoreEncryptParams) (archiveId kdfSalt : Bytes32) :
    Result ArchiveOpenContext := do
  validateKdfParams (presetParams params.kdfPreset)
  pure ⟨params.suite, presetParams params.kdfPreset, kdfSalt, archiveId, params.chunkSize,
    makeEncryptHeader params archiveId kdfSalt⟩

def EncryptRequest.shardOptions (r : EncryptRequest) (gh : GlobalPublicHeaderV1)
    (headerAuthenticationKey : Bytes) (perShardHashes : List Bytes32) : ShardWriterOptions where
  outputDir := r.output
  maxShardPayloadLen := r.params.effectiveShardSize
  filenameExtension := ascii ".bin"
  globalHeader := gh
  headerAuthenticationKey := headerAuthenticationKey
  perShardPublicHeaderHashes := perShardHashes
  durabilityMode := r.durabilityMode
  durabilityHooks := .production

def EncryptRequest.pipelineOptions (r : EncryptRequest) (archiveId : Bytes32)
    (perShardHashes : List Bytes32) (paddedPlaintextSize : UInt64) : EncryptPipelineOptions where
  chunkPlainSize := r.params.chunkSize
  archiveId := archiveId
  perShardPublicHeaderHashes := perShardHashes
  publicHeaderHash := perShardHashes.headD zeroMac
  emitFinalChunkWhenEmpty := true
  expectedPlaintextBytes := paddedPlaintextSize

variable (c : Primitives) (sys : System)

/-- The pipeline and its shard writer, for the size that the archive writer plans and the records
it is going to give. The random values are arguments; the header key moves to the writer. -/
def coreEncrypt (r : EncryptRequest) (archiveId kdfSalt : Bytes32) (rawPlaintextSize : UInt64)
    (records : RecordStream) (disk : Disk) :
    Result (EncryptPipeline ShardPlanner ShardWriter × ShardWriter) := do
  validateEncryptParams r.params
  match disk.fault sys (.createDirectories r.output) with
  | some message => .error (.filesystemError message)
  | none => do
    let context ← makeEncryptContext r.params archiveId kdfSalt
    let keys ← deriveExpandedKeys c context r.passphrase r.keyfiles
    let pad ← computePadding rawPlaintextSize r.params.chunkSize r.params.padding
    let (gh, plans) ← planArchive c.blake3 r.params archiveId kdfSalt rawPlaintextSize
    let perShardHashes := plans.map ShardPlan.publicHeaderHash
    let options := r.shardOptions gh keys.headerAuthenticationKey perShardHashes
    let writer ← makeShardWriter sys options (disk.done (.createDirectories r.output))
    pure (⟨r.pipelineOptions archiveId perShardHashes pad.targetSize,
      aeadBackend c.aead r.params.suite, { keys with headerAuthenticationKey := [] }, records,
      fileWriter sys c.hmacSha256 options, c.hkdf⟩, writer)

end Encrypt

section Prepared

def EncryptRequest.context (r : EncryptRequest) (archiveId kdfSalt : Bytes32) :
    ArchiveOpenContext :=
  ⟨r.params.suite, presetParams r.params.kdfPreset, kdfSalt, archiveId, r.params.chunkSize,
    makeEncryptHeader r.params archiveId kdfSalt⟩

def plannedHashes (blake3 : Bytes → Bytes32) (l : ChunkLayout) (gh : GlobalPublicHeaderV1) :
    List Bytes32 :=
  (fillPerShardHashes blake3 (l.bins.mapIdx binPlan) gh).map ShardPlan.publicHeaderHash

structure Prepared (c : Primitives) (sys : System) (r : EncryptRequest)
    (archiveId kdfSalt : Bytes32)
    (records : RecordStream) (disk : Disk) (p : EncryptPipeline ShardPlanner ShardWriter)
    (w : ShardWriter) (l : ChunkLayout) (gh : GlobalPublicHeaderV1) (keys : ExpandedKeys)
    (padded : UInt64) : Prop where
  announces : Announces l gh
  few : l.bins.length < 2 ^ 32
  limit : r.params.effectiveShardSize = l.maxShardPayloadLen
  chunkSize : r.params.chunkSize = l.chunkPlainSize.toUInt64
  size : padded.toNat = (l.n - 1) * l.chunkPlainSize.toNat + l.finalLen.toNat
  magic : gh.magic = kGlobalHeaderV1Magic
  rules : GlobalHeaderRules gh
  aeadAlgId : gh.aeadAlgId = suiteToAeadAlgId r.params.suite
  ids : gh.archiveId = archiveId ∧ gh.kdfSalt = kdfSalt
  kdfParams : kdfParamsOf gh = { presetParams r.params.kdfPreset with preset := .custom }
  paddedPlaintextSize : gh.paddedPlaintextSize = padded
  derived : deriveExpandedKeys c (r.context archiveId kdfSalt) r.passphrase r.keyfiles = .ok keys
  made : makeShardWriter sys (r.shardOptions gh keys.headerAuthenticationKey
    (plannedHashes c.blake3 l gh)) (disk.done (.createDirectories r.output)) = .ok w
  pipeline : p = ⟨r.pipelineOptions archiveId (plannedHashes c.blake3 l gh) padded,
    aeadBackend c.aead r.params.suite, { keys with headerAuthenticationKey := [] }, records,
    fileWriter sys c.hmacSha256 (r.shardOptions gh keys.headerAuthenticationKey
      (plannedHashes c.blake3 l gh)), c.hkdf⟩

theorem kdfParamsOf_countedHeader (params : CoreEncryptParams) (archiveId kdfSalt : Bytes32)
    (pad : PaddingResult) (count : UInt64) (finalLen : UInt32) :
    kdfParamsOf (countedHeader params archiveId kdfSalt pad count finalLen) =
      { presetParams params.kdfPreset with preset := .custom } := by
  obtain ⟨_, preset, _, _, _, _, _⟩ := params
  cases preset <;> rfl

theorem makeShardWriter_hashes {sys : System} {o : ShardWriterOptions} {disk : Disk}
    {w : ShardWriter} (made : makeShardWriter sys o disk = .ok w) :
    o.perShardPublicHeaderHashes.length = o.globalHeader.shardCount.toNat := by
  unfold makeShardWriter at made
  obtain ⟨o', normal, rest⟩ := (Result.bind_eq_ok _ _ _).mp made
  obtain ⟨_, hashes, -⟩ := (Result.bind_eq_ok _ _ _).mp rest
  unfold validateShardHashVector at hashes
  simp only [Result.guard_eq_ok, not_not] at hashes
  unfold validateAndNormalizeOptions at normal
  simp only [Result.guard_eq_ok, Except.ok.injEq] at normal
  obtain ⟨-, -, -, rfl⟩ := normal
  have same := hashes.2.1
  split at same <;> exact same

theorem coreEncrypt_ok {c : Primitives} {sys : System} {r : EncryptRequest}
    {archiveId kdfSalt : Bytes32} {raw : UInt64} {records : RecordStream} {disk : Disk}
    {p : EncryptPipeline ShardPlanner ShardWriter} {w : ShardWriter} (some : 1 ≤ raw)
    (prepared : coreEncrypt c sys r archiveId kdfSalt raw records disk = .ok (p, w)) :
    ∃ l gh keys padded, Prepared c sys r archiveId kdfSalt records disk p w l gh keys padded := by
  unfold coreEncrypt at prepared
  obtain ⟨_, valid, prepared⟩ := (Result.bind_eq_ok _ _ _).mp prepared
  have rules := validateEncryptParams_rules valid
  split at prepared
  · cases prepared
  obtain ⟨context, made, prepared⟩ := (Result.bind_eq_ok _ _ _).mp prepared
  obtain ⟨_, -, made⟩ := (Result.bind_eq_ok _ _ _).mp made
  cases made
  obtain ⟨keys, derived, prepared⟩ := (Result.bind_eq_ok _ _ _).mp prepared
  obtain ⟨pad, padding, prepared⟩ := (Result.bind_eq_ok _ _ _).mp prepared
  obtain ⟨⟨gh, plans⟩, planned, prepared⟩ := (Result.bind_eq_ok _ _ _).mp prepared
  obtain ⟨writer, made, prepared⟩ := (Result.bind_eq_ok _ _ _).mp prepared
  cases prepared
  obtain ⟨pad', count, finalLen, pos, counted, padding', length, header, shards⟩ :=
    planArchive_ok archiveId kdfSalt rules some planned
  obtain rfl : pad = pad' := Except.ok.inj (padding.symm.trans padding')
  have hashes := makeShardWriter_hashes made
  change (plans.map ShardPlan.publicHeaderHash).length = gh.shardCount.toNat at hashes
  have few : (layoutOf rules pos counted).bins.length < 2 ^ 32 := by
    rw [← length, ← List.length_map ShardPlan.publicHeaderHash, hashes]
    exact UInt32.toNat_lt _
  have counts := counts_countedHeader archiveId kdfSalt rules pos counted
  have accepted := globalHeaderRules_planned archiveId kdfSalt rules pos counted some padding few
  rw [← length, ← header] at accepted
  have announces : Announces (layoutOf rules pos counted) gh := by
    rw [header, length]
    exact ⟨⟨counts.chunkPlainSize, counts.finalPlaintextChunkLen, counts.globalChunkCount,
      counts.paddedPlaintextSize⟩, rfl⟩
  have size : gh.paddedPlaintextSize = pad.targetSize := by
    rw [header]
    exact if_neg pos
  refine ⟨layoutOf rules pos counted, gh, keys, pad.targetSize, announces, few, rfl, ?_, ?_,
    by rw [header]; rfl, accepted, by rw [header]; rfl, by rw [header]; exact ⟨rfl, rfl⟩,
    ?_, size, derived, ?_, ?_⟩
  · refine UInt64.toNat_inj.mp ?_
    rw [UInt32.toNat_toUInt64]
    exact (chunkPlainSize_toNat rules).symm
  · exact (congrArg UInt64.toNat size).symm.trans announces.paddedPlaintextSize
  · rw [header]
    exact kdfParamsOf_countedHeader r.params archiveId kdfSalt pad count finalLen
  · rw [shards] at made
    exact made
  · rw [plannedHashes, ← shards]

end Prepared

section Decrypt

structure DecryptRequest where
  input : Bytes
  passphrase : Bytes
  keyfiles : List Keyfile
  kdfPolicy : KdfResourcePolicy

def verifyAllShardHeaderMacs (hmacSha256 : Bytes → Bytes → Bytes32)
    (headerAuthenticationKey : Bytes) : List ShardInfo → Result Unit
  | [] => .ok ()
  | shard :: shards => do
    let same ← verifyShardHeaderMac hmacSha256 headerAuthenticationKey shard.globalHeader
      shard.shardHeader
    if ¬same then .error .authenticationFailed
    else verifyAllShardHeaderMacs hmacSha256 headerAuthenticationKey shards

def maxShardIndex (shards : List ShardInfo) : UInt32 :=
  match (shards.map ShardInfo.shardIndex).max? with
  | none => 0
  | some largest => largest + 1

def perShardHashes (shards : List ShardInfo) : List Bytes32 :=
  shards.foldl (fun hashes shard => hashes.set shard.shardIndex.toNat shard.publicHeaderHash)
    (List.replicate (maxShardIndex shards).toNat zeroMac)

structure DecryptSession where
  options : DecryptPipelineOptions
  backend : CryptoBackend
  keys : ExpandedKeys
  reader : ShardReader
  hkdf : Hkdf

def DecryptSession.pipeline {σ : Type} (d : DecryptSession) (stream : ChunkStream)
    (archiveReader : PlaintextReader σ) : DecryptPipeline σ :=
  ⟨d.options, d.backend, d.keys, stream, archiveReader, d.hkdf⟩

variable (c : Primitives) (files : Files)

def coreDecrypt (r : DecryptRequest) (listing : Option (List Bytes)) : Result DecryptSession := do
  validateKdfResourcePolicy r.kdfPolicy
  let shards ← discover c.blake3 files r.input listing
  let context ← makeDecryptContextFromShards shards
  checkKdfParamsAgainstPolicy context.kdfParams r.kdfPolicy
  let keys ← deriveExpandedKeys c context r.passphrase r.keyfiles
  verifyAllShardHeaderMacs c.hmacSha256 keys.headerAuthenticationKey shards
  let hashes := perShardHashes shards
  let reader ← openShardReader c.hmacSha256 shards keys.headerAuthenticationKey
    ⟨some (suiteToAeadAlgId context.suite), some context.archiveId, some context.chunkPlainSize,
      none⟩
  pure ⟨⟨context.chunkPlainSize, context.archiveId, hashes.headD zeroMac, hashes,
    context.globalHeader.paddedPlaintextSize⟩, aeadBackend c.aead context.suite,
    { keys with headerAuthenticationKey := [] }, reader, c.hkdf⟩

end Decrypt
end Bseal.App
