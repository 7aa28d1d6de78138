import Bseal.Common.CheckedArithmetic
import Bseal.Io.ChunkFrame
import Bseal.Io.ShardHeader
import Bseal.Lib.Effect
import Bseal.Platform.Disk

/-! `io/ShardWriter`: the frame planner and the writer with its finalization. The random
generator and the outcome of every file operation come from a `System`; the test hook
`before_chunk_write` is left out. A write reaches its file when it is made, or throws: what the
unchecked `close()` of `close_current_shard` and the destructors of `finish` may still lose is
`System.Leaves`. -/
namespace Bseal.Io
open Effect Platform

inductive DurabilityHooks where
  | noop
  | production
  deriving DecidableEq, Repr

structure ShardWriterOptions where
  outputDir : Bytes
  maxShardPayloadLen : UInt64
  filenameExtension : Bytes
  globalHeader : GlobalPublicHeaderV1
  headerAuthenticationKey : Bytes
  perShardPublicHeaderHashes : List Bytes32
  durabilityMode : DurabilityMode
  durabilityHooks : DurabilityHooks

structure ShardWritePosition where
  shardIndex : UInt32
  recordOffset : UInt64
  chunkIndex : UInt64
  deriving DecidableEq, Repr

structure PlannedChunkFrame where
  position : ShardWritePosition
  header : ChunkFrameHeaderV1
  headerBytes : Bytes

structure FinalizedShard where
  path : Bytes
  shardIndex : UInt32
  firstChunkIndex : UInt64
  chunkCount : UInt64
  payloadLen : UInt64
  deriving DecidableEq, Repr

structure ShardPlanner where
  plannedShardIndex : UInt32
  plannedPayloadOffset : UInt64
  plannedNextChunkIndex : UInt64
  deriving DecidableEq, Repr

structure ShardWriter where
  options : ShardWriterOptions
  streamOpen : Bool
  streamGood : Bool
  currentPath : Bytes
  currentShardIndex : UInt32
  nextShardIndex : UInt32
  currentPayloadOffset : UInt64
  currentFirstChunkIndex : UInt64
  currentChunkCount : UInt64
  nextExpectedChunkIndex : UInt64
  finalChunkPlaintextLen : UInt64
  finalizedShards : List FinalizedShard
  finished : Bool
  disk : Disk

def ShardWriter.withDisk (w : ShardWriter) (disk : Disk) : ShardWriter := { w with disk := disk }

@[simp] theorem ShardWriter.withDisk_disk (w : ShardWriter) (disk : Disk) :
    (w.withDisk disk).disk = disk := rfl

def frameTooLarge (frameSize maxShardPayloadLen : UInt64) : Failure :=
  .invalidArgument ("chunk frame (" ++ toString frameSize ++ " bytes) exceeds" ++
    " max_shard_payload_len (" ++ toString maxShardPayloadLen ++
    " bytes); increase --shard-size or decrease --chunk-size")

section Planner

def ShardPlanner.place (p : ShardPlanner) (maxShardPayloadLen frameSize : UInt64) :
    ShardPlanner :=
  if p.plannedPayloadOffset > maxShardPayloadLen - frameSize then
    { p with plannedShardIndex := p.plannedShardIndex + 1, plannedPayloadOffset := 0 }
  else p

def planChunkFrame (options : ShardWriterOptions) (finished : Bool)
    (chunkIndex plaintextLen ciphertextLen : UInt64) (tagLen : UInt16) (finalChunk : Bool)
    (p : ShardPlanner) : Result (PlannedChunkFrame × ShardPlanner) :=
  if finished then .error (.error "cannot plan frame for finalized ShardWriter")
  else if chunkIndex ≠ p.plannedNextChunkIndex then
    .error (.invalidArgument
      "ShardWriter frame planner requires contiguous ascending chunk indexes")
  else if plaintextLen > options.globalHeader.chunkPlainSize.toUInt64 then
    .error (.invalidArgument "chunk plaintext_len exceeds archive chunk_plain_size")
  else if plaintextLen > 0xffffffff then
    .error (.invalidArgument "chunk plaintext_len does not fit ChunkFrameHeaderV1")
  else do
    let header : ChunkFrameHeaderV1 :=
      { frameFlags := if finalChunk then kChunkFrameFlagFinalChunk else 0
        shardIndex := p.plannedShardIndex
        globalChunkIndex := chunkIndex
        plaintextLen := plaintextLen.toUInt32
        ciphertextLen := ciphertextLen
        tagLen := tagLen }
    let frameSize ← chunkFrameV1EncodedSize header
    if frameSize > options.maxShardPayloadLen then
      .error (frameTooLarge frameSize options.maxShardPayloadLen)
    else do
      let q := p.place options.maxShardPayloadLen frameSize
      let header := { header with shardIndex := q.plannedShardIndex }
      let headerBytes ← serializeChunkFrameHeaderV1 header
      let position : ShardWritePosition :=
        ⟨header.shardIndex, q.plannedPayloadOffset, chunkIndex⟩
      pure (⟨position, header, headerBytes⟩,
        { q with
          plannedPayloadOffset := q.plannedPayloadOffset + frameSize
          plannedNextChunkIndex := q.plannedNextChunkIndex + 1 })

end Planner

section Writer
variable (sys : System) (hmacSha256 : Bytes → Bytes → Bytes32)

/-- Attempt a file operation; the error text comes back if it fails. -/
def fileOp (op : DiskOp) : Effect Failure ShardWriter (Option String) := do
  let w ← get
  match w.disk.fault sys op with
  | some message => do
    set (w.withDisk w.disk.failed)
    pure (some message)
  | none => do
    set (w.withDisk (w.disk.done op))
    pure none

def must (op : DiskOp) (e : Failure) : Effect Failure ShardWriter Unit := do
  let fault ← fileOp sys op
  throwIf fault.isSome e

def writeRaw (bytes : Bytes) : Effect Failure ShardWriter Unit := do
  let w ← get
  throwIf (¬w.streamGood) (.error "shard stream is not writable")
  let fault ← fileOp sys (.append w.currentPath bytes)
  modify fun w => { w with streamGood := fault.isNone }
  throwIf fault.isSome (.error ("failed to write shard file: " ++ text w.currentPath))

def shardHeader (shardIndex : UInt32) (firstChunkIndex chunkCount payloadLen : UInt64) :
    ShardPublicHeaderV1 where
  shardMagic := kShardHeaderV1Magic
  shardHeaderLen := 80
  shardIndex := shardIndex
  firstGlobalChunkIndex := firstChunkIndex
  shardChunkCount := chunkCount
  shardPayloadLen := payloadLen
  headerMac := zeroMac
  reserved0 := 0

def placeholderHeader : ShardPublicHeaderV1 := shardHeader 0 0 0 0

def joinPath (dir name : Bytes) : Bytes :=
  if dir.getLast? = some 47 then dir ++ name else dir ++ 47 :: name

def ShardWriter.candidate (w : ShardWriter) (k : Nat) : Bytes :=
  joinPath w.options.outputDir (sys.names k ++ w.options.filenameExtension)

def ShardWriter.opened (w : ShardWriter) (candidate : Bytes) (firstChunkIndex : UInt64) :
    ShardWriter :=
  { w with
    streamOpen := true
    streamGood := true
    currentPath := candidate
    currentShardIndex := w.nextShardIndex
    nextShardIndex := w.nextShardIndex + 1
    currentPayloadOffset := 0
    currentFirstChunkIndex := firstChunkIndex
    currentChunkCount := 0 }

def openCandidate (candidate : Bytes) (firstChunkIndex : UInt64) :
    Effect Failure ShardWriter Unit := do
  let fault ← fileOp sys (.create candidate)
  modify fun w => { w with streamGood := fault.isNone }
  throwIf fault.isSome (.error ("failed to open shard for writing: " ++ text candidate))
  modify fun w => w.opened candidate firstChunkIndex
  let w ← get
  writeRaw sys (serializeGlobalPublicHeader w.options.globalHeader)
  writeRaw sys (serializeShardPublicHeader placeholderHeader)

def noUniqueName : Failure := .error "failed to allocate unique random shard filename"

def tryNames : Nat → UInt64 → Effect Failure ShardWriter Unit
  | 0, _ => throw noUniqueName
  | attempts + 1, firstChunkIndex => do
    let w ← get
    let candidate := w.candidate sys w.disk.drawn
    set (w.withDisk w.disk.draw)
    if (w.disk.files candidate).isSome then tryNames attempts firstChunkIndex
    else openCandidate sys candidate firstChunkIndex

def openNextShard (firstChunkIndex : UInt64) : Effect Failure ShardWriter Unit := do
  let w ← get
  throwIf w.streamOpen (.error "internal error: shard already open")
  tryNames sys 128 firstChunkIndex

def rewriteShardHeader (path : Bytes) (globalHeader : GlobalPublicHeaderV1)
    (shardIndex : UInt32) (firstChunkIndex chunkCount payloadLen : UInt64) :
    Effect Failure ShardWriter Unit := do
  let w ← get
  let header := shardHeader shardIndex firstChunkIndex chunkCount payloadLen
  let mac ← lift (computeShardHeaderMac hmacSha256 w.options.headerAuthenticationKey
    globalHeader header)
  must sys (.patch path 192 (serializeShardPublicHeader { header with headerMac := mac }))
    (.error "failed to rewrite shard public header")

def ShardWriter.currentShard (w : ShardWriter) : FinalizedShard :=
  ⟨w.currentPath, w.currentShardIndex, w.currentFirstChunkIndex, w.currentChunkCount,
    w.currentPayloadOffset⟩

def removeEmptyShard (path : Bytes) : Effect Failure ShardWriter Unit := do
  let fault ← fileOp sys (.remove path)
  match fault with
  | some message => throw (.filesystemError message)
  | none => modify fun w => { w with currentPath := [] }

def closeCurrentShard : Effect Failure ShardWriter Unit := do
  let w ← get
  if ¬w.streamOpen then pure ()
  else do
    set { w with streamOpen := false }
    if w.currentChunkCount = 0 then removeEmptyShard sys w.currentPath
    else do
      must sys (.reopen w.currentPath)
        (.error ("failed to reopen shard for header update: " ++ text w.currentPath))
      rewriteShardHeader sys hmacSha256 w.currentPath w.options.globalHeader
        w.currentShardIndex w.currentFirstChunkIndex w.currentChunkCount w.currentPayloadOffset
      modify fun w' => { w' with
        finalizedShards := w'.finalizedShards ++ [w.currentShard]
        currentPath := []
        currentPayloadOffset := 0
        currentChunkCount := 0 }

/-- Open the first shard, or roll over to the next one for a frame of this size. -/
def openShardFor (header : ChunkFrameHeaderV1) (frameSize : UInt64) :
    Effect Failure ShardWriter Unit := do
  let w ← get
  if ¬w.streamOpen then openNextShard sys header.globalChunkIndex
  else if w.currentPayloadOffset > w.options.maxShardPayloadLen - frameSize then do
    closeCurrentShard sys hmacSha256
    openNextShard sys header.globalChunkIndex
  else pure ()

def ShardWriter.frameWritten (w : ShardWriter) (header : ChunkFrameHeaderV1)
    (frameSize : UInt64) : ShardWriter :=
  { w with
    currentPayloadOffset := w.currentPayloadOffset + frameSize
    currentChunkCount := w.currentChunkCount + 1
    nextExpectedChunkIndex := w.nextExpectedChunkIndex + 1
    finalChunkPlaintextLen :=
      if header.frameFlags &&& kChunkFrameFlagFinalChunk ≠ 0 then header.plaintextLen.toUInt64
      else w.finalChunkPlaintextLen }

def closeWhenFull : Effect Failure ShardWriter Unit := do
  let w ← get
  if w.currentPayloadOffset ≥ w.options.maxShardPayloadLen then closeCurrentShard sys hmacSha256
  else pure ()

/-- The rest of `write_chunk_frame`, once the frame's shard is open. -/
def appendFrame (header : ChunkFrameHeaderV1) (headerBytes ciphertextAndTag : Bytes)
    (frameSize : UInt64) : Effect Failure ShardWriter ShardWritePosition := do
  let w ← get
  throwIf (header.shardIndex ≠ w.currentShardIndex)
    (.invalidArgument "ChunkFrameHeaderV1 shard_index does not match current shard")
  writeRaw sys headerBytes
  writeRaw sys ciphertextAndTag
  modify fun w => w.frameWritten header frameSize
  closeWhenFull sys hmacSha256
  pure ⟨w.currentShardIndex, w.currentPayloadOffset, header.globalChunkIndex⟩

def writeChunkFrame (header : ChunkFrameHeaderV1) (headerBytes ciphertextAndTag : Bytes) :
    Effect Failure ShardWriter ShardWritePosition := do
  let w ← get
  throwIf w.finished (.error "cannot write to finalized ShardWriter")
  throwIf (header.globalChunkIndex ≠ w.nextExpectedChunkIndex)
    (.invalidArgument "ShardWriter requires contiguous ascending frame chunk indexes")
  throwIf (header.plaintextLen > w.options.globalHeader.chunkPlainSize)
    (.invalidArgument "chunk plaintext_len exceeds archive chunk_plain_size")
  let expectedHeaderBytes ← lift (serializeChunkFrameHeaderV1 header)
  throwIf (headerBytes ≠ expectedHeaderBytes)
    (.invalidArgument "ChunkFrameHeaderV1 bytes do not match supplied header")
  let frameSize ← lift (chunkFrameV1EncodedSize header)
  throwIf (ciphertextAndTag.length ≠ (frameSize - 40).toNat)
    (.invalidArgument "ciphertext length does not match ChunkFrameHeaderV1")
  throwIf (frameSize > w.options.maxShardPayloadLen)
    (frameTooLarge frameSize w.options.maxShardPayloadLen)
  openShardFor sys hmacSha256 header frameSize
  appendFrame sys hmacSha256 header headerBytes ciphertextAndTag frameSize

/-- The global header with the counts that are known once every frame is written. -/
def ShardWriter.finalGlobal (w : ShardWriter) : Result GlobalPublicHeaderV1 :=
  let counted := { w.options.globalHeader with
    globalChunkCount := w.nextExpectedChunkIndex
    shardCount := UInt32.ofNat w.finalizedShards.length }
  if w.nextExpectedChunkIndex > 0 ∧ w.finalChunkPlaintextLen > 0 then do
    let full ← checkedMulU64 (w.nextExpectedChunkIndex - 1) counted.chunkPlainSize.toUInt64
      "ShardWriter: padded plaintext size"
    let padded ← checkedAddU64 full w.finalChunkPlaintextLen
      "ShardWriter: padded plaintext size"
    pure { counted with
      finalPlaintextChunkLen := w.finalChunkPlaintextLen.toUInt32
      paddedPlaintextSize := padded }
  else pure counted

/-- The durability hooks: a failed flush is thrown in mode `on` only. -/
def flush (path : Bytes) : Effect Failure ShardWriter Unit := do
  let w ← get
  if w.options.durabilityHooks = .noop ∨ w.options.durabilityMode = .off then pure ()
  else do
    let opening ← fileOp sys (.openReadonly path)
    match opening with
    | some message =>
      throwIf (w.options.durabilityMode = .on)
        (.error ("durability: cannot open '" ++ text path ++ "': " ++ message))
    | none =>
      let syncing ← fileOp sys (.fsync path)
      match syncing with
      | some message =>
        throwIf (w.options.durabilityMode = .on)
          (.error ("durability: fsync('" ++ text path ++ "'): " ++ message))
      | none => pure ()

def finishShard (finalGlobal : GlobalPublicHeaderV1) (s : FinalizedShard) :
    Effect Failure ShardWriter Unit := do
  must sys (.reopen s.path)
    (.error ("failed to reopen finalized shard for global header update: " ++ text s.path))
  must sys (.patch s.path 0 (serializeGlobalPublicHeader finalGlobal))
    (.error ("failed to rewrite global header in finalized shard: " ++ text s.path))
  rewriteShardHeader sys hmacSha256 s.path finalGlobal s.shardIndex s.firstChunkIndex
    s.chunkCount s.payloadLen
  flush sys s.path

def finishShards (finalGlobal : GlobalPublicHeaderV1) :
    List FinalizedShard → Effect Failure ShardWriter Unit
  | [] => pure ()
  | s :: shards => do
    finishShard sys hmacSha256 finalGlobal s
    finishShards finalGlobal shards

def finish : Effect Failure ShardWriter Unit := do
  let w ← get
  if w.finished then pure ()
  else do
    closeCurrentShard sys hmacSha256
    let w ← get
    let finalGlobal ← lift w.finalGlobal
    finishShards sys hmacSha256 finalGlobal w.finalizedShards
    flush sys w.options.outputDir
    modify fun w => { w with finished := true }

/-- `std::filesystem::remove` with an error code that nobody reads. -/
def removeQuietly (path : Bytes) : Effect Failure ShardWriter Unit := do
  let _ ← fileOp sys (.remove path)

def removeShards : List FinalizedShard → Effect Failure ShardWriter Unit
  | [] => pure ()
  | s :: shards => do
    removeQuietly sys s.path
    removeShards shards

def removeCurrent : Effect Failure ShardWriter Unit := do
  let w ← get
  if w.currentPath = [] then pure ()
  else do
    removeQuietly sys w.currentPath
    modify fun w => { w with currentPath := [] }

def abortAndRemoveCreatedShardsNoexcept : Effect Failure ShardWriter Unit := do
  modify fun w => { w with streamOpen := false }
  removeCurrent sys
  let w ← get
  removeShards sys w.finalizedShards
  modify fun w => { w with finalizedShards := [] }

/-- The destructor: what `finish` throws is swallowed. -/
def ShardWriter.destroy (w : ShardWriter) : ShardWriter := (exec (finish sys hmacSha256) w).2

end Writer

section Constructor
variable (sys : System)

def validateAndNormalizeOptions (o : ShardWriterOptions) : Result ShardWriterOptions :=
  if o.outputDir.isEmpty then
    .error (.invalidArgument "ShardWriter output directory is empty")
  else if o.maxShardPayloadLen = 0 then
    .error (.invalidArgument "ShardWriter max_shard_payload_len must be non-zero")
  else
    let o := if o.filenameExtension.isEmpty then { o with filenameExtension := ascii ".bin" }
      else o
    if o.globalHeader.chunkPlainSize = 0 then
      .error (.invalidArgument "ShardWriter global_header.chunk_plain_size is missing")
    else .ok o

def validateShardHashVector (o : ShardWriterOptions) : Result Unit :=
  let hashes := o.perShardPublicHeaderHashes
  if hashes.isEmpty then
    .error (.invalidArgument ("ShardWriter per_shard_public_header_hashes must not be empty: " ++
      "every chunk must be bound to its shard's public_header_hash via AEAD AAD"))
  else if hashes.length ≠ o.globalHeader.shardCount.toNat then
    .error (.invalidArgument ("ShardWriter per_shard_public_header_hashes size does not match " ++
      "global_header.shard_count"))
  else match hashes.findIdx? fun hash => allZero hash.toList with
    | some i => .error (.invalidArgument
        ("ShardWriter per_shard_public_header_hashes contains an all-zero " ++
          "hash at shard index " ++ toString i))
    | none => .ok ()

def ShardWriter.fresh (o : ShardWriterOptions) (disk : Disk) : ShardWriter where
  options := o
  streamOpen := false
  streamGood := true
  currentPath := []
  currentShardIndex := 0
  nextShardIndex := 0
  currentPayloadOffset := 0
  currentFirstChunkIndex := 0
  currentChunkCount := 0
  nextExpectedChunkIndex := 0
  finalChunkPlaintextLen := 0
  finalizedShards := []
  finished := false
  disk := disk

def ShardPlanner.fresh : ShardPlanner := ⟨0, 0, 0⟩

/-- The public constructor. -/
def makeShardWriter (o : ShardWriterOptions) (disk : Disk) : Result ShardWriter := do
  let o ← validateAndNormalizeOptions o
  validateShardHashVector o
  match disk.fault sys (.createDirectories o.outputDir) with
  | some message => .error (.filesystemError message)
  | none =>
    if allZero o.headerAuthenticationKey then
      .error (.invalidArgument "ShardWriter header_authentication_key is missing")
    else .ok (ShardWriter.fresh o (disk.done (.createDirectories o.outputDir)))

def ShardWriterOptions.extension (o : ShardWriterOptions) : Bytes :=
  if o.filenameExtension.isEmpty then ascii ".bin" else o.filenameExtension

theorem makeShardWriter_ok {o : ShardWriterOptions} {disk : Disk} {w : ShardWriter}
    (made : makeShardWriter sys o disk = .ok w) :
    w = ShardWriter.fresh { o with filenameExtension := o.extension }
        (disk.done (.createDirectories o.outputDir)) ∧ o.headerAuthenticationKey ≠ [] := by
  unfold makeShardWriter at made
  obtain ⟨o', normal, rest⟩ := (Result.bind_eq_ok _ _ _).mp made
  obtain ⟨_, -, rest⟩ := (Result.bind_eq_ok _ _ _).mp rest
  have options : o' = { o with filenameExtension := o.extension } := by
    unfold validateAndNormalizeOptions at normal
    simp only [Result.guard_eq_ok, Except.ok.injEq] at normal
    obtain ⟨-, -, -, normal⟩ := normal
    rw [← normal, ShardWriterOptions.extension]
    split <;> rfl
  subst options
  split at rest
  · cases rest
  by_cases missing : allZero o.headerAuthenticationKey
  · rw [if_pos missing] at rest
    cases rest
  · rw [if_neg missing] at rest
    refine ⟨(Except.ok.inj rest).symm, fun none => missing ?_⟩
    rw [none]
    rfl

end Constructor
section Specs
variable (sys : System) (hmacSha256 : Bytes → Bytes → Bytes32)

/-- Every name of 128 draws in a row was in use. -/
def ShardWriter.NamesTaken (w : ShardWriter) : Prop :=
  ∃ k, ∀ j < 128, (w.disk.files (w.candidate sys (k + j))).isSome

/-- The failure comes from the file system: an operation failed or no name was free. -/
def StorageFailure (e : Failure) (w : ShardWriter) : Prop :=
  (∀ message, e ≠ .invalidArgument message) ∧
    (w.disk.Faulted sys ∨ e = noUniqueName ∧ w.NamesTaken sys)

variable {sys} in
theorem StorageFailure.names_taken {e : Failure} {w : ShardWriter}
    (failure : StorageFailure sys e w) (calm : ∀ k, sys.faults k = none) :
    e = noUniqueName ∧ w.NamesTaken sys := by
  rcases failure.2 with ⟨k, -, failed⟩ | taken
  · rw [calm k] at failed
    cases failed
  · exact taken

variable {α : Type} {w : ShardWriter} {post : α → ShardWriter → Prop}
  {fail : Failure → ShardWriter → Prop}

theorem ends_fileOp_bind {op : DiskOp} {f : Option String → Effect Failure ShardWriter α}
    (there : ∀ path, op = .reopen path → w.disk.files path ≠ none)
    (failed : ∀ message, w.disk.failed.Faulted sys →
      Ends (f (some message)) (w.withDisk w.disk.failed) post fail)
    (done : Ends (f none) (w.withDisk (w.disk.done op)) post fail) :
    Ends (fileOp sys op >>= f) w post fail := by
  unfold fileOp
  rw [ends_bind, ends_get_bind]
  rcases h : w.disk.fault sys op with _ | message
  · exact done
  · exact failed message (w.disk.failed_faulted sys op there (by rw [h]; rfl))

theorem storageFailure_of_faulted {e : Failure} (w : ShardWriter) (disk : Disk)
    (storage : ∀ message, e ≠ .invalidArgument message) (faulted : disk.Faulted sys) :
    StorageFailure sys e (w.withDisk disk) :=
  ⟨storage, .inl faulted⟩

theorem ends_must_bind {op : DiskOp} {e : Failure} {f : Unit → Effect Failure ShardWriter α}
    (there : ∀ path, op = .reopen path → w.disk.files path ≠ none)
    (storage : ∀ message, e ≠ .invalidArgument message)
    (done : Ends (f ()) (w.withDisk (w.disk.done op)) post (StorageFailure sys)) :
    Ends (must sys op e >>= f) w post (StorageFailure sys) := by
  unfold must
  rw [bind_assoc]
  apply ends_fileOp_bind sys there
  · intro message faulted
    rw [ends_throwIf_bind, if_pos (by rfl)]
    exact storageFailure_of_faulted sys w _ storage faulted
  · rw [ends_throwIf_bind, if_neg (by simp)]
    exact done

theorem ends_writeRaw_bind {bytes : Bytes} {f : Unit → Effect Failure ShardWriter α}
    (good : w.streamGood = true)
    (done : Ends (f ()) (w.withDisk (w.disk.done (.append w.currentPath bytes))) post
      (StorageFailure sys)) :
    Ends (writeRaw sys bytes >>= f) w post (StorageFailure sys) := by
  unfold writeRaw
  simp only [bind_assoc]
  rw [ends_get_bind, ends_throwIf_bind, if_neg (by rw [good]; simp)]
  apply ends_fileOp_bind sys (by simp)
  · intro message faulted
    rw [ends_modify_bind, ends_throwIf_bind, if_pos (by rfl)]
    exact storageFailure_of_faulted sys _ _ (by simp) faulted
  · rw [ends_modify_bind, ends_throwIf_bind, if_neg (by simp)]
    have same (v : ShardWriter) (ready : v.streamGood = true) :
        { v with streamGood := (none : Option String).isNone } = v := by
      rw [Option.isNone_none, ← ready]
    rw [same]
    · exact done
    · exact good

def openHeaders (o : ShardWriterOptions) : Bytes :=
  serializeGlobalPublicHeader o.globalHeader ++ serializeShardPublicHeader placeholderHeader

theorem openCandidate_ends (candidate : Bytes) (firstChunkIndex : UInt64) :
    Ends (openCandidate sys candidate firstChunkIndex) w (fun _ t => ∃ disk,
      disk.files = Function.update w.disk.files candidate (some (openHeaders w.options)) ∧
        t = (w.opened candidate firstChunkIndex).withDisk disk) (StorageFailure sys) := by
  unfold openCandidate
  apply ends_fileOp_bind sys (by simp)
  · intro message faulted
    rw [ends_modify_bind, ends_throwIf_bind, if_pos (by rfl)]
    exact storageFailure_of_faulted sys _ _ (by simp) faulted
  · rw [ends_modify_bind, ends_throwIf_bind, if_neg (by simp), ends_modify_bind, ends_get_bind]
    apply ends_writeRaw_bind sys rfl
    rw [← bind_pure (writeRaw sys _)]
    apply ends_writeRaw_bind sys rfl
    rw [ends_pure]
    exact ⟨_, w.disk.files_create_append candidate _ _, rfl⟩

theorem candidate_withDisk (disk : Disk) (k : Nat) :
    (w.withDisk disk).candidate sys k = w.candidate sys k := rfl

def Opened (w t : ShardWriter) (firstChunkIndex : UInt64) : Prop :=
  ∃ path disk, w.disk.files path = none ∧
    disk.files = Function.update w.disk.files path (some (openHeaders w.options)) ∧
    t = (w.opened path firstChunkIndex).withDisk disk

theorem tryNames_ends (attempts start : Nat) (firstChunkIndex : UInt64) (disk : Disk)
    (files : disk.files = w.disk.files) (drawn : disk.drawn = start + (128 - attempts))
    (few : attempts ≤ 128)
    (taken : ∀ j < 128 - attempts, (w.disk.files (w.candidate sys (start + j))).isSome) :
    Ends (tryNames sys attempts firstChunkIndex) (w.withDisk disk)
      (fun _ t => Opened w t firstChunkIndex) (StorageFailure sys) := by
  induction attempts generalizing disk with
  | zero =>
    unfold tryNames
    rw [ends_throw]
    refine ⟨by simp [noUniqueName], .inr ⟨rfl, start, fun j hj => ?_⟩⟩
    have here := taken j hj
    rwa [← files] at here
  | succ attempts ih =>
    unfold tryNames
    rw [ends_get_bind, ends_bind, ends_set]
    simp only [ShardWriter.withDisk_disk, candidate_withDisk, files]
    by_cases used : (w.disk.files (w.candidate sys disk.drawn)).isSome
    · rw [if_pos used]
      apply ih disk.draw files
      · show disk.drawn + 1 = _
        omega
      · omega
      · intro j hj
        by_cases last : j = 128 - (attempts + 1)
        · rw [last, ← drawn]
          exact used
        · exact taken j (by omega)
    · rw [if_neg used]
      apply (openCandidate_ends sys _ _).mono
      · rintro _ _ ⟨disk', update, rfl⟩
        refine ⟨_, disk', by simpa using used, ?_, rfl⟩
        rw [update]
        show Function.update disk.files _ _ = _
        rw [files]
        rfl
      · exact fun _ _ => id

theorem openNextShard_ends (firstChunkIndex : UInt64) (closed : w.streamOpen = false) :
    Ends (openNextShard sys firstChunkIndex) w (fun _ t => Opened w t firstChunkIndex)
      (StorageFailure sys) := by
  unfold openNextShard
  rw [ends_get_bind, ends_throwIf_bind, if_neg (by rw [closed]; simp)]
  exact tryNames_ends sys 128 w.disk.drawn firstChunkIndex w.disk rfl rfl le_rfl (by simp)

def shardFile (key : Bytes) (g : GlobalPublicHeaderV1) (s : FinalizedShard) (payload : Bytes) :
    Bytes :=
  serializeGlobalPublicHeader g ++ serializeShardPublicHeader
    ((shardHeader s.shardIndex s.firstChunkIndex s.chunkCount s.payloadLen).signed
      hmacSha256 key g) ++ payload

theorem rewriteShardHeader_ends (path : Bytes) (g : GlobalPublicHeaderV1) (s : FinalizedShard)
    (old : ShardPublicHeaderV1) (payload : Bytes)
    (key : w.options.headerAuthenticationKey ≠ [])
    (here : w.disk.files path =
      some (serializeGlobalPublicHeader g ++ serializeShardPublicHeader old ++ payload)) :
    Ends (rewriteShardHeader sys hmacSha256 path g s.shardIndex s.firstChunkIndex s.chunkCount
      s.payloadLen) w (fun _ t => ∃ disk, disk.files = Function.update w.disk.files path
        (some (shardFile hmacSha256 w.options.headerAuthenticationKey g s payload)) ∧
        t = w.withDisk disk) (StorageFailure sys) := by
  unfold rewriteShardHeader
  rw [ends_get_bind]
  rw [ends_lift_bind_of_ok _ _ (computeShardHeaderMac_of_key hmacSha256 _ g _ key)]
  rw [← bind_pure (must sys _ _)]
  apply ends_must_bind sys (by simp) (by simp)
  rw [ends_pure]
  have patched := w.disk.files_patch path _ _ payload (serializeShardPublicHeader
    ((shardHeader s.shardIndex s.firstChunkIndex s.chunkCount s.payloadLen).signed
      hmacSha256 w.options.headerAuthenticationKey g)) here (by simp)
  rw [serializeGlobalPublicHeader_length] at patched
  exact ⟨_, patched, rfl⟩

def ShardWriter.closed (w : ShardWriter) : ShardWriter :=
  { w with
    streamOpen := false
    finalizedShards := w.finalizedShards ++ [w.currentShard]
    currentPath := []
    currentPayloadOffset := 0
    currentChunkCount := 0 }

theorem closeCurrentShard_ends (payload : Bytes) (isOpen : w.streamOpen = true)
    (chunks : w.currentChunkCount ≠ 0) (key : w.options.headerAuthenticationKey ≠ [])
    (here : w.disk.files w.currentPath = some (openHeaders w.options ++ payload)) :
    Ends (closeCurrentShard sys hmacSha256) w (fun _ t => ∃ disk,
      disk.files = Function.update w.disk.files w.currentPath
        (some (shardFile hmacSha256 w.options.headerAuthenticationKey w.options.globalHeader
          w.currentShard payload)) ∧
      t = w.closed.withDisk disk) (StorageFailure sys) := by
  unfold closeCurrentShard
  rw [ends_get_bind, if_neg (by rw [isOpen]; simp), ends_bind, ends_set, if_neg chunks]
  apply ends_must_bind sys
  · intro path same
    cases same
    show w.disk.files w.currentPath ≠ none
    rw [here]
    simp
  · simp
  · let v : ShardWriter :=
      { w with streamOpen := false, disk := w.disk.done (.reopen w.currentPath) }
    apply Ends.bind (rewriteShardHeader_ends sys hmacSha256 (w := v) w.currentPath
      w.options.globalHeader w.currentShard placeholderHeader payload key here)
    rintro _ _ ⟨disk, update, rfl⟩
    rw [ends_modify]
    exact ⟨disk, update, rfl⟩

theorem closeCurrentShard_idle (isClosed : w.streamOpen = false) :
    exec (closeCurrentShard sys hmacSha256) w = (.ok (), w) := by
  unfold closeCurrentShard
  rw [exec_get_bind, if_pos (by rw [isClosed]; simp)]
  rfl

/-- A shard that has reached its payload limit is closed at once. -/
def ClosedWhenFull (w t : ShardWriter) (payload : Bytes) : Prop :=
  if w.currentPayloadOffset ≥ w.options.maxShardPayloadLen then
    ∃ disk, disk.files = Function.update w.disk.files w.currentPath
      (some (shardFile hmacSha256 w.options.headerAuthenticationKey w.options.globalHeader
        w.currentShard payload)) ∧ t = w.closed.withDisk disk
  else t = w

theorem closeWhenFull_ends (payload : Bytes) (isOpen : w.streamOpen = true)
    (chunks : w.currentChunkCount ≠ 0) (key : w.options.headerAuthenticationKey ≠ [])
    (here : w.disk.files w.currentPath = some (openHeaders w.options ++ payload)) :
    Ends (closeWhenFull sys hmacSha256) w (fun _ t => ClosedWhenFull hmacSha256 w t payload)
      (StorageFailure sys) := by
  unfold closeWhenFull ClosedWhenFull
  rw [ends_get_bind]
  by_cases full : w.currentPayloadOffset ≥ w.options.maxShardPayloadLen
  · rw [if_pos full]
    simp only [if_pos full]
    exact closeCurrentShard_ends sys hmacSha256 payload isOpen chunks key here
  · rw [if_neg full, ends_pure, if_neg full]

theorem appendFrame_ends (header : ChunkFrameHeaderV1) (headerBytes ciphertextAndTag : Bytes)
    (frameSize : UInt64) (payload : Bytes) (isOpen : w.streamOpen = true)
    (good : w.streamGood = true) (shard : header.shardIndex = w.currentShardIndex)
    (key : w.options.headerAuthenticationKey ≠ []) (few : w.currentChunkCount + 1 ≠ 0)
    (here : w.disk.files w.currentPath = some (openHeaders w.options ++ payload)) :
    Ends (appendFrame sys hmacSha256 header headerBytes ciphertextAndTag frameSize) w
      (fun position t =>
        position = ⟨w.currentShardIndex, w.currentPayloadOffset, header.globalChunkIndex⟩ ∧
        ∃ disk, disk.files = Function.update w.disk.files w.currentPath
            (some (openHeaders w.options ++ (payload ++ headerBytes ++ ciphertextAndTag))) ∧
          ClosedWhenFull hmacSha256 ((w.withDisk disk).frameWritten header frameSize) t
            (payload ++ headerBytes ++ ciphertextAndTag)) (StorageFailure sys) := by
  have grown := w.disk.files_append_append w.currentPath _ headerBytes ciphertextAndTag here
  rw [List.append_assoc, List.append_assoc, ← List.append_assoc payload] at grown
  unfold appendFrame
  rw [ends_get_bind, ends_throwIf_bind, if_neg (by simpa using shard)]
  apply ends_writeRaw_bind sys good
  refine ends_writeRaw_bind sys ?_ ?_
  · exact good
  rw [ends_modify_bind]
  refine Ends.bind (closeWhenFull_ends sys hmacSha256
    (payload ++ headerBytes ++ ciphertextAndTag) ?_ ?_ ?_ ?_) ?_
  · exact isOpen
  · exact few
  · exact key
  · exact (congrFun grown w.currentPath).trans (Function.update_self ..)
  · intro _ t closed
    rw [ends_pure]
    exact ⟨rfl, _, grown, closed⟩

theorem flush_ends (path : Bytes) :
    Ends (flush sys path) w (fun _ t => ∃ disk, disk.files = w.disk.files ∧
      t = w.withDisk disk) (StorageFailure sys) := by
  unfold flush
  rw [ends_get_bind]
  by_cases skipped : w.options.durabilityHooks = .noop ∨ w.options.durabilityMode = .off
  · rw [if_pos skipped, ends_pure]
    exact ⟨w.disk, rfl, rfl⟩
  · rw [if_neg skipped]
    apply ends_fileOp_bind sys (by simp)
    · intro message faulted
      simp only
      rw [ends_throwIf]
      split
      · exact storageFailure_of_faulted sys w _ (by simp) faulted
      · exact ⟨w.disk.failed, rfl, rfl⟩
    · apply ends_fileOp_bind sys (by simp)
      · intro message faulted
        simp only
        rw [ends_throwIf]
        split
        · exact storageFailure_of_faulted sys _ _ (by simp) faulted
        · exact ⟨(w.disk.done (.openReadonly path)).failed, rfl, rfl⟩
      · exact ⟨(w.disk.done (.openReadonly path)).done (.fsync path), rfl, rfl⟩

theorem finishShard_ends (g finalGlobal : GlobalPublicHeaderV1) (s : FinalizedShard)
    (payload : Bytes) (key : w.options.headerAuthenticationKey ≠ [])
    (here : w.disk.files s.path =
      some (shardFile hmacSha256 w.options.headerAuthenticationKey g s payload)) :
    Ends (finishShard sys hmacSha256 finalGlobal s) w (fun _ t => ∃ disk,
      disk.files = Function.update w.disk.files s.path (some
        (shardFile hmacSha256 w.options.headerAuthenticationKey finalGlobal s payload)) ∧
      t = w.withDisk disk) (StorageFailure sys) := by
  unfold finishShard
  apply ends_must_bind sys
  · intro path same
    cases same
    rw [here]
    simp
  · simp
  apply ends_must_bind sys (by simp) (by simp)
  let old : ShardPublicHeaderV1 := (shardHeader s.shardIndex s.firstChunkIndex s.chunkCount
    s.payloadLen).signed hmacSha256 w.options.headerAuthenticationKey g
  have patched : ((w.disk.done (.reopen s.path)).done
      (.patch s.path 0 (serializeGlobalPublicHeader finalGlobal))).files =
      Function.update w.disk.files s.path (some (serializeGlobalPublicHeader finalGlobal ++
        serializeShardPublicHeader old ++ payload)) := by
    have front := (w.disk.done (.reopen s.path)).files_patch s.path [] _ _
      (serializeGlobalPublicHeader finalGlobal) (by
        rw [List.nil_append, ← List.append_assoc]
        exact here) (by simp)
    rwa [List.nil_append, ← List.append_assoc] at front
  refine Ends.bind (rewriteShardHeader_ends sys hmacSha256 s.path finalGlobal s old payload ?_ ?_)
    ?_
  · exact key
  · exact (congrFun patched s.path).trans (Function.update_self ..)
  rintro _ _ ⟨disk, update, rfl⟩
  apply (flush_ends sys s.path).mono
  · rintro _ _ ⟨disk', same, rfl⟩
    refine ⟨disk', ?_, rfl⟩
    rw [same, ShardWriter.withDisk_disk, update]
    show Function.update (Disk.files (Disk.done _ _)) s.path _ = _
    rw [ShardWriter.withDisk_disk, patched, Function.update_idem]
    rfl
  · exact fun _ _ => id

/-- Finalization gives every shard file the final headers and touches no other file. -/
theorem finishShards_ends (g finalGlobal : GlobalPublicHeaderV1) (payload : FinalizedShard → Bytes)
    (shards : List FinalizedShard) (distinct : (shards.map FinalizedShard.path).Nodup)
    (key : w.options.headerAuthenticationKey ≠ [])
    (here : ∀ s ∈ shards, w.disk.files s.path =
      some (shardFile hmacSha256 w.options.headerAuthenticationKey g s (payload s))) :
    Ends (finishShards sys hmacSha256 finalGlobal shards) w (fun _ t => ∃ disk,
      (∀ s ∈ shards, disk.files s.path = some
        (shardFile hmacSha256 w.options.headerAuthenticationKey finalGlobal s (payload s))) ∧
      (∀ path ∉ shards.map FinalizedShard.path, disk.files path = w.disk.files path) ∧
      t = w.withDisk disk) (StorageFailure sys) := by
  induction shards generalizing w with
  | nil =>
    unfold finishShards
    rw [ends_pure]
    exact ⟨w.disk, by simp, fun _ _ => rfl, rfl⟩
  | cons s shards ih =>
    unfold finishShards
    rw [List.map_cons, List.nodup_cons] at distinct
    apply Ends.bind (finishShard_ends sys hmacSha256 g finalGlobal s (payload s) key
      (here s List.mem_cons_self))
    rintro _ _ ⟨disk, update, rfl⟩
    have others : ∀ r ∈ shards, r.path ≠ s.path := fun r member same =>
      distinct.1 (same ▸ List.mem_map_of_mem member)
    apply Ends.mono (ih (w := w.withDisk disk) distinct.2 key ?_)
    · rintro _ _ ⟨disk', done, same, rfl⟩
      refine ⟨disk', ?_, ?_, rfl⟩
      · intro r member
        rcases List.mem_cons.mp member with rfl | member
        · rw [same _ distinct.1]
          show disk.files r.path = _
          rw [update, Function.update_self]
        · exact done r member
      · intro path absent
        rw [List.map_cons, List.mem_cons, not_or] at absent
        rw [same path absent.2]
        show disk.files path = _
        rw [update, Function.update_of_ne absent.1]
    · exact fun _ _ => id
    · intro r member
      show disk.files r.path = _
      rw [update, Function.update_of_ne (others r member)]
      exact here r (List.mem_cons_of_mem _ member)

theorem ShardWriter.finalGlobal_of_ok {full padded : UInt64}
    (positive : w.nextExpectedChunkIndex > 0 ∧ w.finalChunkPlaintextLen > 0)
    (product : checkedMulU64 (w.nextExpectedChunkIndex - 1)
      w.options.globalHeader.chunkPlainSize.toUInt64 "ShardWriter: padded plaintext size" =
      .ok full)
    (sum : checkedAddU64 full w.finalChunkPlaintextLen "ShardWriter: padded plaintext size" =
      .ok padded) :
    w.finalGlobal = .ok { w.options.globalHeader with
      globalChunkCount := w.nextExpectedChunkIndex
      shardCount := UInt32.ofNat w.finalizedShards.length
      finalPlaintextChunkLen := w.finalChunkPlaintextLen.toUInt32
      paddedPlaintextSize := padded } := by
  unfold ShardWriter.finalGlobal
  simp only
  rw [if_pos positive, product, Result.ok_bind, sum, Result.ok_bind]
  rfl

end Specs
end Bseal.Io
