import Bseal.Crypto.Kdf
import Bseal.Crypto.Backend
import Bseal.Io.ShardStream

/-! `make_decrypt_context_from_shards` of `app/CoreApi`, and the limits of the format that hold
of every archive which it and the shard reader accept. -/
namespace Bseal.App
open ByteCodec Crypto Io Platform

structure ArchiveOpenContext where
  suite : CipherSuite
  kdfParams : KdfParams
  kdfSalt : Bytes32
  archiveId : Bytes32
  chunkPlainSize : UInt64
  globalHeader : GlobalPublicHeaderV1
  deriving DecidableEq

def suiteFromAeadAlgId (id : UInt16) : Result CipherSuite :=
  if id = kAeadAlgIdXChaCha20Poly1305 then .ok .xChaCha20Poly1305
  else if id = kAeadAlgIdAes256Gcm then .ok .aes256Gcm
  else .error (.invalidArgument "archive uses an unsupported AEAD algorithm")

/-- The version of the header's Argon2 parameters is not looked at. -/
def kdfParamsOf (g : GlobalPublicHeaderV1) : KdfParams where
  preset := .custom
  memoryKib := g.argon2MemoryKib
  iterations := g.argon2Iterations
  parallelism := g.argon2Parallelism
  outputBytes := kArgon2OutputBytesDefault

def makeDecryptContextFromShards (shards : List ShardInfo) : Result ArchiveOpenContext :=
  match shards.find? fun s => s.shardIndex = 0 with
  | none => .error
      (.invalidArgument "missing shard_index 0; cannot open archive global header")
  | some first => do
    let g := first.globalHeader
    let suite ← suiteFromAeadAlgId g.aeadAlgId
    validateKdfParams (kdfParamsOf g)
    pure ⟨suite, kdfParamsOf g, g.kdfSalt, g.archiveId, g.chunkPlainSize.toUInt64, g⟩

theorem makeDecryptContextFromShards_ok {shards : List ShardInfo} {context : ArchiveOpenContext}
    (made : makeDecryptContextFromShards shards = .ok context) :
    ∃ first ∈ shards, first.shardIndex = 0 ∧ context.globalHeader = first.globalHeader ∧
      KdfParamsRules (kdfParamsOf first.globalHeader) := by
  unfold makeDecryptContextFromShards at made
  split at made
  · cases made
  · rename_i first found
    obtain ⟨suite, _, made⟩ := (Result.bind_eq_ok ..).mp made
    obtain ⟨_, valid, made⟩ := (Result.bind_eq_ok ..).mp made
    cases made
    have zero := List.find?_some found
    exact ⟨first, List.mem_of_find?_eq_some found, of_decide_eq_true zero, rfl,
      (validateKdfParams_ok _ _).mp valid⟩

/-- The rejection rules of the format for the headers of one shard. -/
structure DeclaredLimits (s : ShardInfo) : Prop where
  maxShardPayloadLen :
    40 + s.globalHeader.chunkPlainSize.toNat + 16 ≤ s.globalHeader.maxShardPayloadLen.toNat
  shardPayloadLen : s.shardPayloadLen ≤ s.globalHeader.maxShardPayloadLen
  argon2Version : s.globalHeader.argon2Version = 0x13
  argon2MemoryKib : 65536 ≤ s.globalHeader.argon2MemoryKib ∧
    s.globalHeader.argon2MemoryKib ≤ 4194304 ∧ s.globalHeader.argon2MemoryKib.toNat % 1024 = 0
  argon2Iterations : 1 ≤ s.globalHeader.argon2Iterations ∧ s.globalHeader.argon2Iterations ≤ 10
  argon2Parallelism : 1 ≤ s.globalHeader.argon2Parallelism ∧
    s.globalHeader.argon2Parallelism ≤ 32
  shardIndex : s.shardIndex < s.globalHeader.shardCount
  chunkRange : s.firstChunkIndex.toNat < s.globalHeader.globalChunkCount.toNat ∧
    s.firstChunkIndex.toNat + s.chunkCount.toNat ≤ s.globalHeader.globalChunkCount.toNat

/-- What none of the layers looks at, in the bytes of a shard file. -/
structure UncheckedLimits (content : Bytes) : Prop where
  argon2Version : wordAt content 96 4 = 0x13
  argon2MemoryKib : wordAt content 100 4 % 1024 = 0
  maxShardPayloadLen : 40 + wordAt content 112 4 + 16 ≤ wordAt content 152 8
  shardPayloadLen : wordAt content 224 8 ≤ wordAt content 152 8

section Words
variable (g : GlobalPublicHeaderV1) (s : ShardPublicHeaderV1) (payload : Bytes)

theorem headers_pieces : ∃ toVersion toChunkSize toMax toPayloadLen rest : Bytes,
    serializeGlobalPublicHeader g ++ serializeShardPublicHeader s ++ payload =
      toVersion ++ (putU32 g.argon2Version ++ (putU32 g.argon2MemoryKib ++ (toChunkSize ++
        (putU32 g.chunkPlainSize ++ (toMax ++ (putU64 g.maxShardPayloadLen ++ (toPayloadLen ++
          (putU64 s.shardPayloadLen ++ rest)))))))) ∧
      toVersion.length = 96 ∧ toChunkSize.length = 8 ∧ toMax.length = 36 ∧
      toPayloadLen.length = 64 := by
  refine ⟨putArray g.magic ++ putU16 g.formatMajor ++ putU16 g.formatMinor ++
    putU32 g.globalHeaderLen ++ putU32 g.shardHeaderLen ++ putU16 g.frameHeaderLen ++
    putU16 g.globalFlags ++ putArray g.archiveId ++ putU16 g.aeadAlgId ++ putU16 g.kdfAlgId ++
    putU16 g.hashAlgId ++ putU16 g.macAlgId ++ putArray g.kdfSalt,
    putU32 g.argon2Iterations ++ putU32 g.argon2Parallelism,
    putU32 g.shardCount ++ putU64 g.globalChunkCount ++ putU64 g.paddedPlaintextSize ++
    putU32 g.finalPlaintextChunkLen ++ putU16 g.paddingPolicyId ++ putU16 g.reserved0 ++
    putU64 g.paddingPolicyValue,
    putU64 g.requiredFeatureFlags ++ putArray g.reserved1 ++ putArray s.shardMagic ++
    putU32 s.shardHeaderLen ++ putU32 s.shardIndex ++ putU64 s.firstGlobalChunkIndex ++
    putU64 s.shardChunkCount,
    putArray s.headerMac ++ putU64 s.reserved0 ++ payload, ?_, ?_, ?_, ?_, ?_⟩
  · unfold serializeGlobalPublicHeader serializeShardPublicHeader
    simp only [List.append_assoc]
  · simp only [List.length_append, putU16_length, putU32_length, putArray_length]
  · simp only [List.length_append, putU32_length]
  · simp only [List.length_append, putU16_length, putU32_length, putU64_length]
  · simp only [List.length_append, putU32_length, putU64_length, putArray_length]

theorem wordAt_headers {content : Bytes} (same : serializeGlobalPublicHeader g ++
      serializeShardPublicHeader s ++ payload = content) :
    wordAt content 96 4 = g.argon2Version.toNat ∧ wordAt content 100 4 = g.argon2MemoryKib.toNat ∧
      wordAt content 112 4 = g.chunkPlainSize.toNat ∧
      wordAt content 152 8 = g.maxShardPayloadLen.toNat ∧
      wordAt content 224 8 = s.shardPayloadLen.toNat := by
  obtain ⟨toVersion, toChunkSize, toMax, toPayloadLen, rest, whole, version, chunkSize, max,
    payloadLen⟩ := headers_pieces g s payload
  rw [← same, whole]
  clear same whole
  refine ⟨?_, ?_, ?_, ?_, ?_⟩
  · rw [← ofLE_putU32]
    exact wordAt_append _ _ _ version (putU32_length _)
  · rw [← ofLE_putU32, ← List.append_assoc]
    exact wordAt_append _ _ _ (by simp [version]) (putU32_length _)
  · rw [← ofLE_putU32 g.chunkPlainSize]
    rw [← List.append_assoc, ← List.append_assoc, ← List.append_assoc]
    exact wordAt_append _ _ _ (by simp [version, chunkSize]) (putU32_length _)
  · rw [← ofLE_putU64, ← List.append_assoc, ← List.append_assoc, ← List.append_assoc,
      ← List.append_assoc, ← List.append_assoc]
    exact wordAt_append _ _ _ (by simp [version, chunkSize, max]) (putU64_length _)
  · rw [← ofLE_putU64, ← List.append_assoc, ← List.append_assoc, ← List.append_assoc,
      ← List.append_assoc, ← List.append_assoc, ← List.append_assoc, ← List.append_assoc]
    exact wordAt_append _ _ _ (by simp [version, chunkSize, max, payloadLen]) (putU64_length _)

end Words

section Limits
variable (blake3 : Bytes → Bytes32) (hmacSha256 : Bytes → Bytes → Bytes32) {files : Files}
  (key : Bytes) (validation : ShardReaderValidation)

theorem uncheckedLimits_iff {path content : Bytes} {s : ShardInfo}
    (rules : ShardInfoRules blake3 path content s) :
    UncheckedLimits content ↔ s.globalHeader.argon2Version = 0x13 ∧
      s.globalHeader.argon2MemoryKib.toNat % 1024 = 0 ∧
      40 + s.globalHeader.chunkPlainSize.toNat + 16 ≤ s.globalHeader.maxShardPayloadLen.toNat ∧
      s.shardPayloadLen ≤ s.globalHeader.maxShardPayloadLen := by
  obtain ⟨payload, same⟩ := rules.layout
  obtain ⟨version, memory, chunkSize, max, payloadLen⟩ := wordAt_headers _ _ _ same
  have exact : s.globalHeader.argon2Version = 0x13 ↔
      s.globalHeader.argon2Version.toNat = 0x13 := by
    rw [← UInt32.toNat_inj]
    rfl
  rw [exact, UInt64.le_iff_toNat_le, ShardInfo.shardPayloadLen, ← version, ← memory, ← chunkSize,
    ← max, ← payloadLen]
  constructor
  · rintro ⟨version, memory, max, payload⟩
    exact ⟨version, memory, max, payload⟩
  · rintro ⟨version, memory, max, payload⟩
    exact ⟨version, memory, max, payload⟩

/-- The limits of the format hold of an accepted archive exactly when its shard files keep the
four that nobody checks. -/
theorem declaredLimits_iff {inputDir : Bytes} {listing : Option (List Bytes)}
    {shards : List ShardInfo} {context : ArchiveOpenContext} {reader : ShardReader}
    (found : discover blake3 files inputDir listing = .ok shards)
    (made : makeDecryptContextFromShards shards = .ok context)
    (opened : openShardReader hmacSha256 shards key validation = .ok reader) :
    (∀ s ∈ reader.remaining, DeclaredLimits s) ↔
      ∀ path ∈ listing.getD [], ∀ content, files path = some content → hasBinExtension path →
        UncheckedLimits content := by
  obtain ⟨paths, read, rfl, perm, matched⟩ := discover_ok blake3 files found
  have known := discover_mem blake3 files found
  have accepted : ∀ s ∈ shards, s.Accepted := fun s member => by
    obtain ⟨_, _, rules⟩ := known s member
    exact rules.accepted
  unfold openShardReader at opened
  rw [Result.guard_eq_ok] at opened
  obtain ⟨⟨sorted, total⟩, valid, result⟩ := (Result.bind_eq_ok ..).mp opened.2
  cases result
  obtain ⟨sorting, set⟩ := (validateShards_ok _ _ _ _ _ _ accepted).mp valid
  obtain ⟨first, atFirst, _, _, kdf⟩ := makeDecryptContextFromShards_ok made
  constructor
  · intro limits path listed content there bin
    have shardFile : path ∈ paths.filter (isShardFile files) :=
      List.mem_filter.mpr ⟨listed, by rw [isShardFile, there, bin]; rfl⟩
    obtain ⟨s, member, content', there', rules⟩ := forall₂_mem_right matched.flip path shardFile
    rw [there', Option.some.injEq] at there
    subst there
    have limit := limits s (sorting.mem_iff.mpr (perm.mem_iff.mpr member))
    exact (uncheckedLimits_iff blake3 rules).mpr ⟨limit.argon2Version, limit.argon2MemoryKib.2.2,
      limit.maxShardPayloadLen, limit.shardPayloadLen⟩
  · intro unchecked s member
    have among := sorting.mem_iff.mp member
    obtain ⟨path, listed, content, there, rules⟩ :=
      forall₂_mem_right matched s (perm.mem_iff.mp among)
    obtain ⟨inListing, isShard⟩ := List.mem_filter.mp listed
    rw [isShardFile, Bool.and_eq_true] at isShard
    obtain ⟨version, memory, max, payload⟩ := (uncheckedLimits_iff blake3 rules).mp
      (unchecked path inListing content there isShard.2)
    have same : first.globalHeader = s.globalHeader :=
      (accepted first atFirst).globalHeader_eq (accepted s among)
        (set.checks first (sorting.mem_iff.mpr atFirst) s member).globalHeader
    rw [same] at kdf
    have part := set.partition _ _ _ fun s member => accepted s (sorting.mem_iff.mp member)
    have total := set.globalChunkCount s member
    have chunks := part.nonempty s member
    have last := (part.covered (s.firstChunkIndex.toNat + s.chunkCount.toNat - 1)).mpr
      ⟨s, member, by omega, by omega⟩
    rw [← total] at last
    exact ⟨max, payload, version, ⟨kdf.memoryKib.1, kdf.memoryKib.2, memory⟩, kdf.iterations,
      kdf.parallelism, rules.shardIndex, by omega, by omega⟩

end Limits

def laxHeader : GlobalPublicHeaderV1 :=
  { fiveByteHeader 1 with argon2Version := 0x10, argon2MemoryKib := 65537, maxShardPayloadLen := 1 }

def onesKey : Bytes := List.replicate 32 1

theorem fiveBytesShard_opened (g : GlobalPublicHeaderV1)
    (valid : validateShards (fun _ _ => zeroMac) ⟨none, none, none, none⟩ onesKey
      [fiveBytesShard g] = .ok ([fiveBytesShard g], 1)) :
    openShardReader (fun _ _ => zeroMac) [fiveBytesShard g] onesKey ⟨none, none, none, none⟩ =
      .ok (.start [fiveBytesShard g] 1) := by
  rw [openShardReader, if_neg (by decide), valid]
  rfl

theorem declaredLimits_iff_fiveBytes : DeclaredLimits (fiveBytesShard (fiveByteHeader 1)) ↔
    UncheckedLimits (serializeGlobalPublicHeader (fiveByteHeader 1) ++
      serializeShardPublicHeader (fiveBytesShard (fiveByteHeader 1)).shardHeader ++
        fiveBytesFrame.bytes) := by
  have found : discover (fun _ => zeroMac) (fiveBytesFiles (fiveByteHeader 1)) (ascii "d")
      (some [ascii "d/a.bin"]) = .ok [fiveBytesShard (fiveByteHeader 1)] := by decide +kernel
  have made : makeDecryptContextFromShards [fiveBytesShard (fiveByteHeader 1)] =
      .ok ⟨.xChaCha20Poly1305, kdfParamsOf (fiveByteHeader 1), List.Vector.replicate 32 9,
        List.Vector.replicate 32 7, 65536, fiveByteHeader 1⟩ := by decide +kernel
  have limits := declaredLimits_iff (fun _ => zeroMac) (fun _ _ => zeroMac) onesKey
    ⟨none, none, none, none⟩ found made (fiveBytesShard_opened _ (by decide +kernel))
  constructor
  · intro holds
    exact limits.mp (List.forall_mem_singleton.mpr holds) _ (List.mem_singleton_self _) _
      (if_pos rfl) (by decide)
  · intro unchecked
    refine limits.mpr (fun path listed content there _ => ?_) _ (List.mem_singleton_self _)
    rw [List.mem_singleton.mp listed, fiveBytesFiles, if_pos rfl, Option.some.injEq] at there
    exact there ▸ unchecked

/-- Every layer accepts the archive, and reads it to its end. -/
theorem laxHeader_accepted :
    discover (fun _ => zeroMac) (fiveBytesFiles laxHeader) (ascii "d") (some [ascii "d/a.bin"]) =
        .ok [fiveBytesShard laxHeader] ∧
      makeDecryptContextFromShards [fiveBytesShard laxHeader] =
        .ok ⟨.xChaCha20Poly1305, kdfParamsOf laxHeader, List.Vector.replicate 32 9,
          List.Vector.replicate 32 7, 65536, laxHeader⟩ ∧
      openShardReader (fun _ _ => zeroMac) [fiveBytesShard laxHeader] onesKey
        ⟨none, none, none, none⟩ = .ok (.start [fiveBytesShard laxHeader] 1) ∧
      Reads (fiveBytesFiles laxHeader) (.start [fiveBytesShard laxHeader] 1)
        [fiveBytesFrame.record] ∧
      ¬DeclaredLimits (fiveBytesShard laxHeader) := by
  refine ⟨by decide +kernel, by decide +kernel, fiveBytesShard_opened _ (by decide +kernel),
    fiveBytesFiles_reads laxHeader (by decide), fun limits => ?_⟩
  exact absurd limits.maxShardPayloadLen (by decide)

end Bseal.App
