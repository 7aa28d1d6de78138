import Bseal.App.CoreApi
import Bseal.App.ShardRoundTrip
import Bseal.Pipeline.ChunkRoundTrip
import Bseal.Pipeline.PlannedFrames

/-! `core_decrypt` on what `core_encrypt` has written: with the same passphrase and keyfiles it
opens the archive, and its pipeline gives back the plaintext. -/
namespace Bseal.App
open Crypto Effect Io NextFit OrderedPipeline Pipeline Platform

section Hashes
variable {shards : List ShardInfo}

theorem foldl_set (front back : List Bytes32) (length : back.length = shards.length)
    (indices : shards.map (fun s => s.shardIndex.toNat) = List.range' front.length shards.length) :
    shards.foldl (fun hashes shard => hashes.set shard.shardIndex.toNat shard.publicHeaderHash)
      (front ++ back) = front ++ shards.map ShardInfo.publicHeaderHash := by
  induction shards generalizing front back with
  | nil => rw [List.length_eq_zero_iff.mp length, List.foldl_nil, List.map_nil]
  | cons shard shards ih =>
    rw [List.length_cons] at length indices
    obtain ⟨hash, back, rfl⟩ := List.exists_cons_of_length_eq_add_one length
    rw [List.map_cons, List.range'_succ] at indices
    obtain ⟨here, rest⟩ := List.cons.inj indices
    have placed : (front ++ hash :: back).set shard.shardIndex.toNat shard.publicHeaderHash =
        (front ++ [shard.publicHeaderHash]) ++ back := by
      rw [here, List.set_append_right _ _ le_rfl, Nat.sub_self, List.set_cons_zero,
        List.append_assoc]
      rfl
    rw [List.foldl_cons, placed, ih _ _ (by simpa using length) (by simpa using rest),
      List.map_cons, List.append_assoc]
    rfl

theorem toNat_max (a b : UInt32) : (max a b).toNat = max a.toNat b.toNat := by
  change (if a ≤ b then b else a).toNat = _
  rw [Nat.max_def]
  simp only [UInt32.le_iff_toNat_le]
  split <;> rfl

theorem max?_toNat (indices : List UInt32) :
    indices.max?.map UInt32.toNat = (indices.map UInt32.toNat).max? := by
  cases indices with
  | nil => rfl
  | cons first rest =>
    rw [List.max?_cons', List.map_cons, List.max?_cons', Option.map_some, List.foldl_map]
    exact congrArg some (List.foldl_hom UInt32.toNat fun a b => (toNat_max a b).symm).symm

def Numbered (shards : List ShardInfo) : Prop :=
  shards.map (fun s => s.shardIndex.toNat) = List.range shards.length

theorem maxShardIndex_toNat (numbered : Numbered shards) (some : shards ≠ [])
    (few : shards.length < 2 ^ 32) : (maxShardIndex shards).toNat = shards.length := by
  have pos := List.length_pos_iff.mpr some
  have largest : (shards.map ShardInfo.shardIndex).max?.map UInt32.toNat =
      Option.some (shards.length - 1) := by
    rw [max?_toNat, List.map_map, show UInt32.toNat ∘ ShardInfo.shardIndex =
      fun s => s.shardIndex.toNat from rfl, numbered, List.max?_eq_some_iff]
    refine ⟨List.mem_range.mpr (by omega), fun k member => ?_⟩
    have := List.mem_range.mp member
    omega
  obtain ⟨index, found, last⟩ := Option.map_eq_some_iff.mp largest
  unfold maxShardIndex
  rw [found]
  change (index + 1).toNat = _
  rw [UInt32.toNat_add, last, UInt32.toNat_one]
  omega

theorem perShardHashes_eq (numbered : Numbered shards) (some : shards ≠ [])
    (few : shards.length < 2 ^ 32) :
    perShardHashes shards = shards.map ShardInfo.publicHeaderHash := by
  unfold perShardHashes
  refine foldl_set [] _ ?_ ?_
  · rw [List.length_replicate, maxShardIndex_toNat numbered some few]
  · rw [List.length_nil, ← List.range_eq_range']
    exact numbered

end Hashes

section Written
variable {c : Primitives} {sys : System} {r : EncryptRequest} {archiveId kdfSalt : Bytes32}
  {records : RecordStream} {start : Disk} {p : EncryptPipeline ShardPlanner ShardWriter}
  {w : ShardWriter} {l : ChunkLayout} {gh : GlobalPublicHeaderV1} {keys : ExpandedKeys}
  {padded : UInt64}

structure Encrypted (p : EncryptPipeline ShardPlanner ShardWriter) (l : ChunkLayout)
    (records : RecordStream) (jobs : List Encrypt.PlainChunk) (chunks : List Encrypt.CipherChunk) :
    Prop where
  plaintext : (jobs.map Encrypt.PlainChunk.bytes).flatten = records.records.flatten
  number : jobs.length = l.n
  planned : ∀ k (inside : k < jobs.length), Encrypt.PlainChunk.Of l k jobs[k]
  worked : List.Forall₂ (fun job chunk =>
    Encrypt.encryptJob p.hkdf p.backend p.keys p.options job = .ok chunk) jobs chunks
  size : records.records.flatten.length =
    (l.n - 1) * l.chunkPlainSize.toNat + l.finalLen.toNat

theorem tagSize_of_validated {ρ ω : Type} {p : EncryptPipeline ρ ω} {tagSize : UInt16}
    (tag : p.backend.tagSize = 16) (validated : p.validateInputs = .ok tagSize) : tagSize = 16 := by
  unfold EncryptPipeline.validateInputs at validated
  obtain ⟨_, -, rest⟩ := (Result.bind_eq_ok _ _ _).mp validated
  obtain ⟨size, checked, rest⟩ := (Result.bind_eq_ok _ _ _).mp rest
  simp only [Result.guard_eq_ok] at rest
  cases rest.2.2
  unfold Encrypt.checkedTagSize at checked
  rw [tag] at checked
  exact (Except.ok.inj checked).symm

theorem Prepared.encrypted (prepared : Prepared c sys r archiveId kdfSalt records start p
    w l gh keys
    padded) (small : records.records.flatten.length < 2 ^ 64) {tagSize : UInt16}
    (validated : p.validateInputs = .ok tagSize) {workers capacity : Nat} {workersPos : 0 < workers}
    {capacityPos : 0 < capacity}
    {s : State (p.threads tagSize workers capacity workersPos capacityPos)}
    (run : Reaches (init _ w) s) (returned : s.main = .returned) (fine : s.failure = none) :
    ∃ chunks mid u, Encrypted p l records (p.planned tagSize) chunks ∧
      exec ((p.threads tagSize workers capacity workersPos capacityPos).consumeAll chunks) w =
        (.ok (), mid) ∧ exec p.shardWriter.finish mid = (.ok u, s.sink) := by
  obtain ⟨chunks, mid, done, u, asked⟩ := run.completed_of_returned returned fine
  obtain rfl : tagSize = 16 := tagSize_of_validated (by rw [prepared.pipeline]; rfl) validated
  have ending : (Encrypt.producerMain p.shardWriter p.options 16 p.stream).ending = none :=
    done.ending
  have produced : p.stream.bytesProduced = p.options.expectedPlaintextBytes := by
    by_contra differs
    refine Encrypt.producerMain_fails _ _ _ _ ?_ differs ending
    rw [prepared.pipeline]
    change 0 < padded
    have chunks := l.chunks
    have final := l.finalPos
    rw [UInt64.lt_iff_toNat_lt, prepared.size]
    change 0 < _
    omega
  have stream : p.stream = records := by rw [prepared.pipeline]
  have expected : p.options.expectedPlaintextBytes = padded := by rw [prepared.pipeline]; rfl
  have size : records.records.flatten.length =
      (l.n - 1) * l.chunkPlainSize.toNat + l.finalLen.toNat := by
    rw [← prepared.size, ← expected, ← produced, stream, RecordStream.bytesProduced,
      ← List.length_flatten]
    exact (UInt64.toNat_ofNat_of_lt' small).symm
  have layout := @Encrypt.producerMain_layout l
    (r.shardOptions gh keys.headerAuthenticationKey (plannedHashes c.blake3 l gh)) sys c.hmacSha256
    p.options records prepared.announces prepared.limit
    (by rw [prepared.pipeline]; exact prepared.chunkSize) size
    (by rw [prepared.pipeline] at ending ⊢; exact ending)
  have items : (p.threads 16 workers capacity workersPos capacityPos).script.items =
      p.planned 16 := rfl
  have producer : p.planned 16 = (Encrypt.producerMain (fileWriter sys c.hmacSha256
      (r.shardOptions gh keys.headerAuthenticationKey (plannedHashes c.blake3 l gh))) p.options 16
      records).items := by
    rw [EncryptPipeline.planned, stream, prepared.pipeline]
  rw [← producer] at layout
  have worked := done.in_order Encrypt.PlainChunk.index
    (fun job chunk worked => (p.encryption_of_encryptJob worked).index) (p.planned_index 16)
  exact ⟨chunks, mid, u, ⟨layout.1, layout.2.1, layout.2.2, worked, size⟩,
    done.consumed, Prod.ext asked done.sink.symm⟩

def bodyOf (chunks : List Encrypt.CipherChunk) (i : Nat) : Bytes :=
  (chunks.map Encrypt.CipherChunk.ciphertextAndTag).getD i []

theorem describes_of_planned {i : Nat} {job : Encrypt.PlainChunk}
    (planned : Encrypt.PlainChunk.Of l i job) : job.Describes where
  index := by
    rw [planned.frameHeader, planned.index]
    rfl
  plaintextLen := by
    rw [planned.frameHeader, planned.length]
    rfl
  ciphertextLen := by
    rw [planned.frameHeader]
    rfl
  tagLen := by
    rw [planned.frameHeader]
    rfl

section Chunks
variable {jobs : List Encrypt.PlainChunk} {chunks : List Encrypt.CipherChunk}

structure CipherOf (l : ChunkLayout) (i : Nat) (chunk : Encrypt.CipherChunk) : Prop where
  frameHeader : chunk.frameHeader = l.frameHeader i
  frameHeaderBytes : chunk.frameHeaderBytes = encodeChunkFrameHeaderV1 (l.frameHeader i)
  length : chunk.ciphertextAndTag.length = (l.len i).toNat + 16

theorem Encrypted.length (encrypted : Encrypted p l records jobs chunks) : chunks.length = l.n :=
  encrypted.worked.length_eq.symm.trans encrypted.number

theorem Encrypted.cipherOf (encrypted : Encrypted p l records jobs chunks) {i : Nat}
    (inside : i < chunks.length) : CipherOf l i chunks[i] := by
  have left : i < jobs.length := by
    rw [encrypted.worked.length_eq]
    exact inside
  have planned := encrypted.planned i left
  have worked := (List.forall₂_iff_get.mp encrypted.worked).2 i left inside
  rw [List.get_eq_getElem, List.get_eq_getElem] at worked
  have same := p.encryption_of_encryptJob worked
  refine ⟨same.frameHeader.trans planned.frameHeader,
    same.frameHeaderBytes.trans planned.frameHeaderBytes, ?_⟩
  rw [encryptJob_length (describes_of_planned planned) worked, planned.length]

theorem bodyOf_eq {i : Nat} (inside : i < chunks.length) :
    bodyOf chunks i = chunks[i].ciphertextAndTag := by
  rw [bodyOf, List.getD_eq_getElem?_getD, List.getElem?_map, List.getElem?_eq_getElem inside]
  rfl

theorem Encrypted.body (encrypted : Encrypted p l records jobs chunks) :
    ∀ i < l.n, (bodyOf chunks i).length = (l.len i).toNat + 16 := by
  intro i inside
  rw [← encrypted.length] at inside
  rw [bodyOf_eq inside]
  exact (encrypted.cipherOf inside).length

theorem Encrypted.framed (encrypted : Encrypted p l records jobs chunks) :
    (framesOf l (bodyOf chunks) 0 l.n).map Frame.record = chunks.map recordOf := by
  refine List.ext_getElem ?_ fun i left right => ?_
  · rw [List.length_map, List.length_map, framesOf, List.length_map, List.length_range',
      encrypted.length]
  · rw [List.length_map] at right
    obtain ⟨header, bytes, -⟩ := encrypted.cipherOf right
    simp only [framesOf, List.getElem_map, List.getElem_range', Nat.zero_add, Nat.one_mul]
    rw [Frame.record, recordOf, header, bytes, bodyOf_eq right]

theorem writeFrames_of_consumeAll {tagSize : UInt16} {workers capacity : Nat}
    {workersPos : 0 < workers} {capacityPos : 0 < capacity} {o : ShardWriterOptions}
    (writer : p.shardWriter = fileWriter sys c.hmacSha256 o)
    {frames : List (PlannedChunkFrame × Bytes)} {w mid : ShardWriter}
    (same : List.Forall₂ (fun frame chunk => frame.1.header = chunk.frameHeader ∧
      frame.1.headerBytes = chunk.frameHeaderBytes ∧
        frame.2 = chunk.ciphertextAndTag) frames chunks)
    (consumed : exec ((p.threads tagSize workers capacity workersPos capacityPos).consumeAll chunks)
      w = (.ok (), mid)) :
    ∃ positions, exec (writeFrames sys c.hmacSha256 frames) w = (.ok positions, mid) := by
  induction same generalizing w with
  | nil =>
    cases consumed
    exact ⟨[], rfl⟩
  | @cons frame chunk frames chunks same _ ih =>
    obtain ⟨header, bytes, body⟩ := same
    obtain ⟨_, next, first, rest⟩ := (exec_bind_ok _ _ _ _ _).mp consumed
    obtain ⟨position, _, wrote, done⟩ := (exec_bind_ok _ _ _ _ _).mp first
    cases done
    obtain ⟨positions, later⟩ := ih rest
    rw [writer, ← header, ← bytes, ← body] at wrote
    obtain ⟨planned, bytes⟩ := frame
    unfold writeFrames
    exact ⟨position :: positions,
      (exec_bind_of_ok wrote).trans ((exec_bind_of_ok later).trans rfl)⟩

theorem Encrypted.writes (encrypted : Encrypted p l records jobs chunks) {tagSize : UInt16}
    {workers capacity : Nat} {workersPos : 0 < workers} {capacityPos : 0 < capacity}
    {o : ShardWriterOptions} (writer : p.shardWriter = fileWriter sys c.hmacSha256 o)
    {mid stop : ShardWriter} {u : Unit}
    (consumed : exec ((p.threads tagSize workers capacity workersPos capacityPos).consumeAll chunks)
      w = (.ok (), mid)) (finished : exec p.shardWriter.finish mid = (.ok u, stop)) :
    exec (do
      let _ ← writeFrames sys c.hmacSha256
        ((List.range' 0 l.n).map fun j => (l.frame j, bodyOf chunks j))
      finish sys c.hmacSha256) w = (.ok u, stop) := by
  have same : List.Forall₂ (fun (frame : PlannedChunkFrame × Bytes) chunk =>
      frame.1.header = chunk.frameHeader ∧ frame.1.headerBytes = chunk.frameHeaderBytes ∧
        frame.2 = chunk.ciphertextAndTag)
      ((List.range' 0 l.n).map fun j => (l.frame j, bodyOf chunks j)) chunks := by
    refine List.forall₂_iff_get.mpr ⟨?_, fun i left right => ?_⟩
    · rw [List.length_map, List.length_range', encrypted.length]
    · obtain ⟨header, bytes, -⟩ := encrypted.cipherOf right
      simp only [List.get_eq_getElem, List.getElem_map, List.getElem_range', Nat.zero_add,
        Nat.one_mul]
      exact ⟨header.symm, bytes.symm, bodyOf_eq right⟩
  obtain ⟨positions, wrote⟩ := writeFrames_of_consumeAll writer same consumed
  rw [writer] at finished
  exact (exec_bind_of_ok wrote).trans finished

end Chunks
end Written

section Opened
variable {c : Primitives} {sys : System} {r : EncryptRequest} {archiveId kdfSalt : Bytes32}
  {records : RecordStream} {start : Disk} {p : EncryptPipeline ShardPlanner ShardWriter}
  {w : ShardWriter} {l : ChunkLayout} {gh : GlobalPublicHeaderV1} {keys : ExpandedKeys}
  {padded : UInt64} {q : DecryptRequest} {shards : List FinalizedShard}

/-- Whoever decrypts has the passphrase and the keyfiles, and a policy that admits the archive. -/
structure Opener (c : Primitives) (r : EncryptRequest) (q : DecryptRequest) : Prop where
  passphrase : q.passphrase = r.passphrase
  keyfiles : keyfileMix c.blake3 q.keyfiles = keyfileMix c.blake3 r.keyfiles
  policy : validateKdfResourcePolicy q.kdfPolicy = .ok ()
  admits : checkKdfParamsAgainstPolicy (presetParams r.params.kdfPreset) q.kdfPolicy = .ok ()

theorem suiteFromAeadAlgId_suiteToAeadAlgId (suite : CipherSuite) :
    suiteFromAeadAlgId (suiteToAeadAlgId suite) = .ok suite := by
  cases suite <;> rfl

theorem Prepared.sized (prepared : Prepared c sys r archiveId kdfSalt records start p w l gh keys
    padded) (lawful : c.Lawful) : keys.Sized r.params.suite := by
  have derived := prepared.derived
  unfold deriveExpandedKeys at derived
  obtain ⟨_, -, expanded⟩ := (Result.bind_eq_ok _ _ _).mp derived
  exact expandKeys_sized lawful expanded

theorem Prepared.rederived (prepared : Prepared c sys r archiveId kdfSalt records start p
    w l gh keys
    padded) (opener : Opener c r q) (suite : CipherSuite) (same : suite = r.params.suite) :
    deriveExpandedKeys c ⟨suite, kdfParamsOf gh, gh.kdfSalt, gh.archiveId,
      gh.chunkPlainSize.toUInt64, gh⟩ q.passphrase q.keyfiles = .ok keys := by
  rw [← prepared.derived, same]
  unfold deriveExpandedKeys
  refine congrArg (· >>= fun seed => expandKeys c seed r.params.suite) ?_
  refine deriveMasterSeed_congr c prepared.ids.2 opener.passphrase prepared.ids.1 opener.keyfiles ?_
  change { kdfParamsOf gh with preset := (presetParams r.params.kdfPreset).preset } =
    presetParams r.params.kdfPreset
  rw [prepared.kdfParams]

theorem verifyAllShardHeaderMacs_infos {blake3 : Bytes → Bytes32}
    {hmacSha256 : Bytes → Bytes → Bytes32}
    {o : ShardWriterOptions} (key : o.headerAuthenticationKey ≠ []) (shards : List FinalizedShard) :
    verifyAllShardHeaderMacs hmacSha256 o.headerAuthenticationKey
      (shards.map (infoOf blake3 hmacSha256 o)) = .ok () := by
  induction shards with
  | nil => rfl
  | cons s shards ih =>
    rw [List.map_cons, verifyAllShardHeaderMacs]
    have verified : verifyShardHeaderMac hmacSha256 o.headerAuthenticationKey
        (infoOf blake3 hmacSha256 o s).globalHeader (infoOf blake3 hmacSha256 o s).shardHeader =
        .ok true :=
      verifyShardHeaderMac_computed hmacSha256 _ _ _ _
        (computeShardHeaderMac_of_key hmacSha256 _ _ _ key)
    rw [verified]
    exact ih

theorem hashes_of_planned {blake3 : Bytes → Bytes32} {hmacSha256 : Bytes → Bytes → Bytes32}
    {o : ShardWriterOptions} (planned : shards.map planOf = l.bins.mapIdx binPlan) :
    (shards.map (infoOf blake3 hmacSha256 o)).map ShardInfo.publicHeaderHash =
      plannedHashes blake3 l o.globalHeader := by
  rw [plannedHashes, ← planned, fillPerShardHashes, List.map_map, List.map_map, List.map_map]
  rfl

theorem makeDecryptContext_infos {blake3 : Bytes → Bytes32} {hmacSha256 : Bytes → Bytes → Bytes32}
    {o : ShardWriterOptions} (numbered : Numbered (shards.map (infoOf blake3 hmacSha256 o)))
    (some : shards ≠ []) {suite : CipherSuite}
    (aeadAlgId : o.globalHeader.aeadAlgId = suiteToAeadAlgId suite)
    (valid : validateKdfParams (kdfParamsOf o.globalHeader) = .ok ()) :
    makeDecryptContextFromShards (shards.map (infoOf blake3 hmacSha256 o)) =
      .ok ⟨suite, kdfParamsOf o.globalHeader, o.globalHeader.kdfSalt, o.globalHeader.archiveId,
        o.globalHeader.chunkPlainSize.toUInt64, o.globalHeader⟩ := by
  obtain ⟨first, rest, rfl⟩ := List.exists_cons_of_ne_nil some
  have zero : first.shardIndex = 0 := by
    unfold Numbered at numbered
    rw [List.map_cons, List.map_cons, List.length_cons, List.range_succ_eq_map] at numbered
    exact UInt32.toNat_inj.mp (List.cons.inj numbered).1
  have found : ((first :: rest).map (infoOf blake3 hmacSha256 o)).find?
      (fun s => s.shardIndex = 0) = Option.some (infoOf blake3 hmacSha256 o first) := by
    rw [List.map_cons, List.find?_cons_of_pos]
    exact decide_eq_true zero
  unfold makeDecryptContextFromShards
  rw [found]
  change (do
    let suite ← suiteFromAeadAlgId o.globalHeader.aeadAlgId
    validateKdfParams (kdfParamsOf o.globalHeader)
    pure (_ : ArchiveOpenContext)) = _
  rw [aeadAlgId, suiteFromAeadAlgId_suiteToAeadAlgId, valid]
  rfl

def sessionOf (c : Primitives) (r : EncryptRequest) (gh : GlobalPublicHeaderV1)
    (keys : ExpandedKeys)
    (hashes : List Bytes32) (reader : ShardReader) : DecryptSession where
  options := ⟨gh.chunkPlainSize.toUInt64, gh.archiveId, hashes.headD zeroMac, hashes,
    gh.paddedPlaintextSize⟩
  backend := aeadBackend c.aead r.params.suite
  keys := { keys with headerAuthenticationKey := [] }
  reader := reader
  hkdf := c.hkdf

theorem Prepared.coreDecrypt_eq
    (prepared : Prepared c sys r archiveId kdfSalt records start p w l gh
    keys padded) (lawful : c.Lawful) (opener : Opener c r q)
    (planned : shards.map planOf = l.bins.mapIdx binPlan) {files : Files} {paths : List Bytes}
    {read : List ChunkRecord}
    (back : ReadBack c.blake3 c.hmacSha256 ⟨some (suiteToAeadAlgId r.params.suite),
      some gh.archiveId, some gh.chunkPlainSize.toUInt64, none⟩ keys.headerAuthenticationKey files
      q.input paths (shards.map (infoOf c.blake3 c.hmacSha256
        (r.shardOptions gh keys.headerAuthenticationKey (plannedHashes c.blake3 l gh))))
      l.chunkCount read) :
    coreDecrypt c files q (some paths) = .ok (sessionOf c r gh keys (plannedHashes c.blake3 l gh)
      (.start (shards.map (infoOf c.blake3 c.hmacSha256 (r.shardOptions gh
        keys.headerAuthenticationKey (plannedHashes c.blake3 l gh)))) l.chunkCount)) := by
  generalize options : r.shardOptions gh keys.headerAuthenticationKey
    (plannedHashes c.blake3 l gh) =
    o at back ⊢
  have header : o.globalHeader = gh := by rw [← options]; rfl
  have key : o.headerAuthenticationKey = keys.headerAuthenticationKey := by rw [← options]; rfl
  have keyed : o.headerAuthenticationKey ≠ [] := by
    rw [key, ← List.length_pos_iff, (prepared.sized lawful).headerAuthenticationKey]
    decide
  have bins : 0 < l.bins.length := List.length_pos_iff.mpr (by
    unfold ChunkLayout.bins NextFit.Packing.bins
    simp)
  have count : shards.length = l.bins.length := by
    have lengths := congrArg List.length planned
    rwa [List.length_map, List.length_mapIdx] at lengths
  have some : shards ≠ [] := List.length_pos_iff.mp (by omega)
  have numbered : Numbered (shards.map (infoOf c.blake3 c.hmacSha256 o)) :=
    indices_of_planned prepared.few planned
  have preset : validateKdfParams (kdfParamsOf gh) = .ok () := by
    rw [prepared.kdfParams]
    exact (validateKdfParams_preset r.params archiveId kdfSalt).1
  have admits : checkKdfParamsAgainstPolicy (kdfParamsOf gh) q.kdfPolicy = .ok () := by
    rw [prepared.kdfParams]
    exact opener.admits
  have context := makeDecryptContext_infos numbered some (header ▸ prepared.aeadAlgId)
    (header ▸ preset)
  have macs : verifyAllShardHeaderMacs c.hmacSha256 o.headerAuthenticationKey
    (shards.map (infoOf c.blake3 c.hmacSha256 o)) = .ok () := verifyAllShardHeaderMacs_infos keyed _
  have hashes := perShardHashes_eq numbered (by rw [ne_eq, List.map_eq_nil_iff]; exact some)
    (by rw [List.length_map, count]; exact prepared.few)
  rw [hashes_of_planned planned, header] at hashes
  rw [header] at context
  rw [key] at macs
  unfold App.coreDecrypt
  refine (Result.bind_eq_ok _ _ _).mpr ⟨(), opener.policy, ?_⟩
  refine (Result.bind_eq_ok _ _ _).mpr ⟨_, back.discovered, ?_⟩
  refine (Result.bind_eq_ok _ _ _).mpr ⟨_, context, ?_⟩
  refine (Result.bind_eq_ok _ _ _).mpr ⟨(), admits, ?_⟩
  refine (Result.bind_eq_ok _ _ _).mpr ⟨_, prepared.rederived opener _ rfl, ?_⟩
  refine (Result.bind_eq_ok _ _ _).mpr ⟨(), macs, ?_⟩
  refine (Result.bind_eq_ok _ _ _).mpr ⟨_, back.opened, ?_⟩
  rw [hashes]
  rfl

end Opened

section RoundTrip
variable {c : Primitives} {sys : System} {r : EncryptRequest} {archiveId kdfSalt : Bytes32}
  {records : RecordStream} {start : Disk} {p : EncryptPipeline ShardPlanner ShardWriter}
  {w : ShardWriter} {l : ChunkLayout} {gh : GlobalPublicHeaderV1} {keys : ExpandedKeys}
  {padded : UInt64} {jobs : List Encrypt.PlainChunk} {chunks : List Encrypt.CipherChunk}
  {reader : ShardReader} {σ : Type} {archiveReader : PlaintextReader σ}

theorem Prepared.sameArchive
    (prepared : Prepared c sys r archiveId kdfSalt records start p w l gh keys padded)
    (reader : ShardReader) :
    SameArchive p.options (sessionOf c r gh keys (plannedHashes c.blake3 l gh) reader).options := by
  rw [prepared.pipeline]
  refine ⟨prepared.ids.1, rfl, rfl, ?_⟩
  change (plannedHashes c.blake3 l gh).length < 2 ^ 32
  rw [plannedHashes, fillPerShardHashes, List.length_map, List.length_map, List.length_mapIdx]
  exact prepared.few

def reopened (job : Encrypt.PlainChunk) : Decrypt.PlainChunk := ⟨UInt64.ofNat job.index, job.bytes⟩

theorem Encrypted.opens (encrypted : Encrypted p l records jobs chunks)
    (prepared : Prepared c sys r archiveId kdfSalt records start p w l gh keys padded)
    (lawful : c.Lawful) :
    ((sessionOf c r gh keys (plannedHashes c.blake3 l gh) reader).pipeline
      ⟨chunks.map recordOf, none⟩ archiveReader).Opens (jobs.map reopened) where
  ending := rfl
  decrypts := by
    have same := prepared.sameArchive reader
    have worked := encrypted.worked
    change List.Forall₂ _ (chunks.map recordOf) _
    rw [List.forall₂_map_left_iff, List.forall₂_map_right_iff]
    refine List.forall₂_iff_get.mpr ⟨worked.length_eq.symm, fun i left right => ?_⟩
    have planned := encrypted.planned i right
    have each := (List.forall₂_iff_get.mp worked).2 i right left
    rw [List.get_eq_getElem, List.get_eq_getElem] at each ⊢
    generalize options : p.options = eo at each same
    rw [prepared.pipeline] at each
    exact decryptJob_encryptJob (lawful.aead r.params.suite) same (describes_of_planned planned)
      each
  order := by
    refine List.ext_getElem (by simp) fun i left right => ?_
    simp only [List.length_map, List.length_range] at left right
    have planned := encrypted.planned i left
    have small := l.n_lt
    have number := encrypted.number
    simp only [List.getElem_map, List.getElem_range]
    change (UInt64.ofNat jobs[i].index).toNat = i
    rw [planned.index]
    exact UInt64.toNat_ofNat_of_lt' (by simp only [UInt64.size]; omega)
  total := by
    have lengths : ((jobs.map reopened).map fun chunk => chunk.bytes.length).sum =
        records.records.flatten.length := by
      rw [← encrypted.plaintext, List.length_flatten, List.map_map, List.map_map]
      rfl
    rw [lengths, encrypted.size, ← prepared.size, UInt64.ofNat_toNat]
    exact prepared.paddedPlaintextSize.symm

theorem Prepared.validateInputs
    (prepared : Prepared c sys r archiveId kdfSalt records start p w l gh keys padded)
    (lawful : c.Lawful) (hashes : List Bytes32) (stream : ChunkStream) :
    ((sessionOf c r gh keys hashes reader).pipeline stream archiveReader).validateInputs =
      .ok () := by
  have sized := prepared.sized lawful
  have some : gh.chunkPlainSize.toUInt64 ≠ 0 := by
    have pos := l.finalPos.trans l.finalLe
    rw [prepared.announces.chunkPlainSize, ne_eq, ← UInt64.toNat_inj, UInt32.toNat_toUInt64]
    exact Nat.ne_of_gt pos
  unfold DecryptPipeline.validateInputs
  refine (Result.bind_eq_ok _ _ _).mpr ⟨gh.chunkPlainSize.toUInt64.toNat, if_neg some, ?_⟩
  have there : ¬keys.nonceDerivationKey.isEmpty = true := by
    rw [List.isEmpty_iff, ← List.length_eq_zero_iff, sized.nonceDerivationKey]
    decide
  exact (if_neg (not_not.mpr sized.chunkEncryptionKey)).trans (if_neg there)

/-- The archive reader gets these pieces before it is asked to finish, whatever the threads throw.
When it takes them and finishes, the threads left to themselves do not fail. -/
structure Delivers (d : DecryptPipeline σ) (pieces : List Bytes) : Prop where
  validated : d.validateInputs = .ok ()
  only : ∀ (workers capacity : Nat) (workersPos : 0 < workers) (capacityPos : 0 < capacity)
    (start : σ) (s : State (d.threads workers capacity workersPos capacityPos)),
    Reaches (init _ ⟨start, 0⟩) s → Call.finish ∈ s.calls →
    ∃ chunks : List Decrypt.PlainChunk, s.calls = chunks.map .consume ++ [.finish] ∧
      chunks.map Decrypt.PlainChunk.bytes = pieces
  succeeds : ∀ (workers capacity : Nat) (workersPos : 0 < workers) (capacityPos : 0 < capacity)
    (start mid stop : σ) (s : State (d.threads workers capacity workersPos capacityPos)),
    exec (d.archiveReader.consumeAll pieces) start = (.ok (), mid) →
    exec d.archiveReader.finish mid = (.ok (), stop) → Run OwnSteps (init _ ⟨start, 0⟩) s →
    s.failure = none ∧ ¬s.Stuck ∧ (s.main = .returned → s.sink.archiveReader = stop)

/-- The files are an archive of this plaintext, for whoever asks so. -/
structure Restores (c : Primitives) (files : Files) (q : DecryptRequest) (paths : List Bytes)
    (plaintext : Bytes) (session : DecryptSession) (read : List ChunkRecord) (pieces : List Bytes) :
    Prop where
  opened : coreDecrypt c files q (some paths) = .ok session
  reads : Reads files session.reader read
  whole : pieces.flatten = plaintext
  delivers : ∀ (σ : Type) (archiveReader : PlaintextReader σ),
    Delivers (session.pipeline ⟨read, none⟩ archiveReader) pieces

theorem Encrypted.delivers (encrypted : Encrypted p l records jobs chunks)
    (prepared : Prepared c sys r archiveId kdfSalt records start p w l gh keys padded)
    (lawful : c.Lawful) :
    Delivers ((sessionOf c r gh keys (plannedHashes c.blake3 l gh) reader).pipeline
      ⟨chunks.map recordOf, none⟩ archiveReader) (jobs.map Encrypt.PlainChunk.bytes) := by
  have opens : ((sessionOf c r gh keys (plannedHashes c.blake3 l gh) reader).pipeline
      ⟨chunks.map recordOf, none⟩ archiveReader).Opens (jobs.map reopened) :=
    encrypted.opens prepared lawful
  have bytes : (jobs.map reopened).map Decrypt.PlainChunk.bytes =
      jobs.map Encrypt.PlainChunk.bytes := by
    rw [List.map_map]
    rfl
  refine ⟨prepared.validateInputs lawful _ _, ?_, ?_⟩
  · intro workers capacity workersPos capacityPos start s run asked
    exact ⟨_, opens.only workers capacity workersPos capacityPos run asked, bytes⟩
  · intro workers capacity workersPos capacityPos start mid stop s consumed finished run
    rw [← bytes] at consumed
    have sound := opens.sound workers capacity workersPos capacityPos consumed finished
    obtain ⟨quiet, moves, returned⟩ := run.sound sound
    refine ⟨?_, moves, fun back => by rw [(returned back).2.2]⟩
    have fine := quiet.failed
    rwa [State.failed, Option.isSome_eq_false_iff, Option.isNone_iff_eq_none] at fine

/-- What a finished run has left on the disk, and how it is read back. -/
theorem Prepared.written {tagSize : UInt16} {workers capacity : Nat} {workersPos : 0 < workers}
    {capacityPos : 0 < capacity}
    {s : State (p.threads tagSize workers capacity workersPos capacityPos)}
    (prepared : Prepared c sys r archiveId kdfSalt records start p w l gh keys padded)
    (lawful : c.Lawful) (small : records.records.flatten.length < 2 ^ 64)
    (validated : p.validateInputs = .ok tagSize)
    (drawn : ∀ k, hasBinExtension (joinPath r.output (sys.names k ++ ascii ".bin")))
    (run : Reaches (init _ w) s) (returned : s.main = .returned) (fine : s.failure = none) :
    ∃ chunks, Encrypted p l records (p.planned tagSize) chunks ∧
      s.sink.finalizedShards.map planOf = l.bins.mapIdx binPlan ∧ OnlyShards start.files s.sink ∧
      ∀ (validation : ShardReaderValidation) (inputDir : Bytes) (paths : List Bytes),
        ExpectsHeader validation gh → paths.Nodup →
        (∀ path ∈ paths, hasBinExtension path = true → start.files path = none) →
        (∀ path, start.files path = none → s.sink.disk.files path ≠ none → path ∈ paths) →
        (∀ path content, s.sink.disk.files path = some content → content.length < 2 ^ 64) →
        ReadBack c.blake3 c.hmacSha256 validation keys.headerAuthenticationKey s.sink.disk.files
          inputDir paths (s.sink.finalizedShards.map (infoOf c.blake3 c.hmacSha256
            (r.shardOptions gh keys.headerAuthenticationKey (plannedHashes c.blake3 l gh))))
          l.chunkCount (chunks.map recordOf) := by
  obtain ⟨chunks, mid, u, encrypted, consumed, finished⟩ :=
    prepared.encrypted small validated run returned fine
  have ran := encrypted.writes (o := r.shardOptions gh keys.headerAuthenticationKey
    (plannedHashes c.blake3 l gh)) (by rw [prepared.pipeline]) consumed finished
  have key := (prepared.sized lawful).headerAuthenticationKey
  have ends := written_read_back sys c.hmacSha256 c.blake3 prepared.few prepared.announces
    prepared.magic prepared.rules prepared.limit key prepared.made drawn encrypted.body
  rw [encrypted.framed] at ends
  exact ⟨chunks, encrypted, ends.of_ok ran⟩

/-- A listing of a directory in which `now` is all that has been written since `before`. -/
structure PathsOf (before now : Files) (paths : List Bytes) : Prop where
  nodup : paths.Nodup
  alone : ∀ path ∈ paths, hasBinExtension path = true → before path = none
  listed : ∀ path, before path = none → now path ≠ none → path ∈ paths
  sized : ∀ path content, now path = some content → content.length < 2 ^ 64

/-- The archive that is left is opened and read as the frames that were written. -/
theorem Prepared.reread {tagSize : UInt16} {workers capacity : Nat} {workersPos : 0 < workers}
    {capacityPos : 0 < capacity}
    {s : State (p.threads tagSize workers capacity workersPos capacityPos)}
    (prepared : Prepared c sys r archiveId kdfSalt records start p w l gh keys padded)
    (lawful : c.Lawful) (small : records.records.flatten.length < 2 ^ 64)
    (validated : p.validateInputs = .ok tagSize)
    (drawn : ∀ k, hasBinExtension (joinPath r.output (sys.names k ++ ascii ".bin")))
    (run : Reaches (init _ w) s) (returned : s.main = .returned) (fine : s.failure = none)
    {q : DecryptRequest} (opener : Opener c r q) {paths : List Bytes}
    (whole : PathsOf start.files s.sink.disk.files paths) :
    ∃ chunks reader, Encrypted p l records (p.planned tagSize) chunks ∧
      coreDecrypt c s.sink.disk.files q (some paths) =
        .ok (sessionOf c r gh keys (plannedHashes c.blake3 l gh) reader) ∧
      Reads s.sink.disk.files reader (chunks.map recordOf) := by
  obtain ⟨chunks, encrypted, planned, -, back⟩ :=
    prepared.written lawful small validated drawn run returned fine
  have back := back ⟨some (suiteToAeadAlgId r.params.suite), some gh.archiveId,
    some gh.chunkPlainSize.toUInt64, none⟩ q.input paths ?_ whole.nodup whole.alone whole.listed
    whole.sized
  · exact ⟨chunks, _, encrypted, prepared.coreDecrypt_eq lawful opener planned back, back.reads⟩
  · refine ⟨fun id same => ?_, fun id same => ?_, fun size same => ?_, rfl⟩
    · cases same
      exact prepared.aeadAlgId
    · cases same
      rfl
    · cases same
      rfl

theorem Prepared.restores {tagSize : UInt16} {workers capacity : Nat} {workersPos : 0 < workers}
    {capacityPos : 0 < capacity}
    {s : State (p.threads tagSize workers capacity workersPos capacityPos)}
    (prepared : Prepared c sys r archiveId kdfSalt records start p w l gh keys padded)
    (lawful : c.Lawful) (small : records.records.flatten.length < 2 ^ 64)
    (validated : p.validateInputs = .ok tagSize)
    (drawn : ∀ k, hasBinExtension (joinPath r.output (sys.names k ++ ascii ".bin")))
    (run : Reaches (init _ w) s) (returned : s.main = .returned) (fine : s.failure = none)
    {q : DecryptRequest} (opener : Opener c r q) {paths : List Bytes}
    (whole : PathsOf start.files s.sink.disk.files paths) :
    ∃ session read pieces, Restores c s.sink.disk.files q paths records.records.flatten session read
      pieces := by
  obtain ⟨_, _, encrypted, opened, reads⟩ :=
    prepared.reread lawful small validated drawn run returned fine opener whole
  exact ⟨_, _, _, opened, reads, encrypted.plaintext, fun _ _ => encrypted.delivers prepared lawful⟩

/-- An encryption that returns without a failure, on a system that lets no file operation fail,
leaves an archive of the records it was given: with the same passphrase and keyfiles, whoever lists
the output directory afterwards, in any order, opens it and gets those bytes back, however the
threads of both sides take turns. -/
theorem coreDecrypt_coreEncrypt (c : Primitives) (lawful : c.Lawful) (sys : System)
    (calm : ∀ k, sys.faults k = none) (r : EncryptRequest) (archiveId kdfSalt : Bytes32)
    (raw : UInt64) (some : 1 ≤ raw) (records : RecordStream)
    (small : records.records.flatten.length < 2 ^ 64) (start : Disk)
    (p : EncryptPipeline ShardPlanner ShardWriter) (w : ShardWriter)
    (prepared : coreEncrypt c sys r archiveId kdfSalt raw records start = .ok (p, w))
    (tagSize : UInt16) (validated : p.validateInputs = .ok tagSize)
    (drawn : ∀ k, hasBinExtension (joinPath r.output (sys.names k ++ ascii ".bin")))
    (workers capacity : Nat) (workersPos : 0 < workers) (capacityPos : 0 < capacity)
    (s : State (p.threads tagSize workers capacity workersPos capacityPos))
    (run : Reaches (init _ w) s) (returned : s.main = .returned) (fine : s.failure = none)
    (files : Files) (left : sys.Leaves s.sink.disk files)
    (q : DecryptRequest) (opener : Opener c r q) (paths : List Bytes) (nodup : paths.Nodup)
    (alone : ∀ path ∈ paths, hasBinExtension path = true → start.files path = none)
    (listed : ∀ path, start.files path = none → files path ≠ none → path ∈ paths)
    (sized : ∀ path content, files path = .some content → content.length < 2 ^ 64) :
    ∃ session read pieces, Restores c files q paths records.records.flatten session read
      pieces := by
  obtain rfl := left calm
  obtain ⟨l, gh, keys, padded, prepared⟩ := coreEncrypt_ok some prepared
  have whole : PathsOf start.files s.sink.disk.files paths := ⟨nodup, alone, listed, sized⟩
  exact prepared.restores lawful small validated drawn run returned fine opener whole

theorem exists_listing {tagSize : UInt16} {workers capacity : Nat} {workersPos : 0 < workers}
    {capacityPos : 0 < capacity}
    {s : State (p.threads tagSize workers capacity workersPos capacityPos)}
    (prepared : Prepared c sys r archiveId kdfSalt records start p w l gh keys padded)
    (lawful : c.Lawful) (small : records.records.flatten.length < 2 ^ 64)
    (validated : p.validateInputs = .ok tagSize)
    (drawn : ∀ k, hasBinExtension (joinPath r.output (sys.names k ++ ascii ".bin")))
    (run : Reaches (init _ w) s) (returned : s.main = .returned) (fine : s.failure = none)
    (empty : ∀ path, start.files path = none)
    (short : 272 + r.params.effectiveShardSize.toNat < 2 ^ 64) :
    ∃ paths : List Bytes, paths.Nodup ∧
      (∀ path, start.files path = none → s.sink.disk.files path ≠ none → path ∈ paths) ∧
      ∀ path content, s.sink.disk.files path = some content → content.length < 2 ^ 64 := by
  obtain ⟨chunks, encrypted, planned, only, -⟩ :=
    prepared.written lawful small validated drawn run returned fine
  refine ⟨_, only.distinct, fun path fresh there => ?_, fun path content there => ?_⟩
  · obtain ⟨content, there⟩ := Option.ne_none_iff_exists'.mp there
    obtain ⟨shard, member, rfl, -⟩ := only.known path content fresh there
    exact List.mem_map_of_mem member
  · obtain ⟨shard, member, -, length⟩ := only.known path content (empty path) there
    obtain ⟨k, b, inside⟩ := inBin_of_planned prepared.few (planned ▸ List.mem_map_of_mem member)
    have load : b.load ≤ l.maxShardPayloadLen.toNat :=
      bins_load_le l.n (fun j _ => l.frameSize_le j) b (List.mem_of_getElem? inside.here)
    rw [← prepared.limit] at load
    rw [length, inside.load]
    omega

def plainPrimitives : Primitives where
  blake3 _ := List.Vector.replicate 32 1
  hmacSha256 _ _ := zeroMac
  hkdf _ _ _ outputLen := List.replicate outputLen 1
  argon2id _ _ _ _ _ outputLen := .ok (List.replicate outputLen 1)
  aead := plainAead

theorem plainPrimitives_lawful : plainPrimitives.Lawful where
  hkdf _ _ _ _ := List.length_replicate
  aead suite key nonce plaintext aad := by
    simp only [plainPrimitives, plainAead, List.length_append, List.length_replicate,
      Nat.add_sub_cancel, List.take_left]

def fiveBytesRequest : EncryptRequest where
  params := fiveBytesParams
  output := [46]
  passphrase := [112]
  keyfiles := []
  durabilityMode := .off
  directory := rfl

def fiveBytesPrepared : Result (EncryptPipeline ShardPlanner ShardWriter × ShardWriter) :=
  coreEncrypt plainPrimitives oneName fiveBytesRequest zeroMac zeroMac 5 ⟨[[1, 2, 3, 4, 5]], none⟩
    emptyDisk

theorem exists_files {prepared : Result (EncryptPipeline ShardPlanner ShardWriter × ShardWriter)}
    {actions : List (Action 1 Failure)} {test : Files → Bool} (ran : prepared.toOption.any (fun x =>
      x.1.validateInputs.toOption == some 16 &&
        (runActions (init (x.1.threads 16 1 1 Nat.one_pos Nat.one_pos) x.2) actions).any
          fun s => finishedWell s && test s.sink.disk.files) = true) :
    ∃ p w, prepared = .ok (p, w) ∧ p.validateInputs = .ok 16 ∧
      ∃ s : State (p.threads 16 1 1 Nat.one_pos Nat.one_pos), Reaches (init _ w) s ∧
        s.main = .returned ∧ s.failure = none ∧ test s.sink.disk.files = true := by
  rcases prepared with e | ⟨p, w⟩
  · cases ran
  obtain ⟨tag, well⟩ := Bool.and_eq_true_iff.mp ran
  rcases validated : p.validateInputs with e | tagSize
  · rw [show (p, w).1.validateInputs = _ from validated] at tag
    cases tag
  rw [show (p, w).1.validateInputs = _ from validated] at tag
  obtain rfl : tagSize = 16 := Option.some.inj (beq_iff_eq.mp tag)
  obtain ⟨s, run, well⟩ := reaches_of_any well
  simp only [finishedWell, Bool.and_eq_true, decide_eq_true_eq, Option.isNone_iff_eq_none] at well
  exact ⟨p, w, rfl, validated, s, run, well.1.1.1, well.1.1.2, well.2⟩

theorem exists_returned {prepared : Result (EncryptPipeline ShardPlanner ShardWriter × ShardWriter)}
    {actions : List (Action 1 Failure)} (ran : prepared.toOption.any (fun x =>
      x.1.validateInputs.toOption == some 16 &&
        (runActions (init (x.1.threads 16 1 1 Nat.one_pos Nat.one_pos) x.2) actions).any
          finishedWell) = true) :
    ∃ p w, prepared = .ok (p, w) ∧ p.validateInputs = .ok 16 ∧
      ∃ s : State (p.threads 16 1 1 Nat.one_pos Nat.one_pos),
        Reaches (init _ w) s ∧ s.main = .returned ∧ s.failure = none := by
  obtain ⟨p, w, same, validated, s, run, returned, fine, -⟩ :=
    @exists_files prepared actions (fun _ => true) (by simpa only [Bool.and_true] using ran)
  exact ⟨p, w, same, validated, s, run, returned, fine⟩

theorem drawn_oneName (k : Nat) : hasBinExtension (joinPath fiveBytesRequest.output
    (oneName.names k ++ ascii ".bin")) :=
  (by decide : hasBinExtension (joinPath [46] ([120] ++ ascii ".bin")))

theorem coreDecrypt_coreEncrypt_fiveBytes : ∃ files paths session read pieces,
    Restores plainPrimitives files ⟨[46], [112], [], {}⟩ paths [1, 2, 3, 4, 5] session read
      pieces := by
  obtain ⟨p, w, prepared, validated, s, run, returned, fine⟩ :=
    @exists_returned fiveBytesPrepared oneAfterTheOther (by decide +kernel)
  obtain ⟨l, gh, keys, padded, known⟩ := coreEncrypt_ok (by decide) prepared
  obtain ⟨paths, nodup, listed, sized⟩ := exists_listing known plainPrimitives_lawful (by decide)
    validated drawn_oneName run returned fine (fun _ => rfl) (by decide)
  have opener : Opener plainPrimitives fiveBytesRequest ⟨[46], [112], [], {}⟩ :=
    ⟨rfl, rfl, rfl, rfl⟩
  exact ⟨_, paths, coreDecrypt_coreEncrypt plainPrimitives plainPrimitives_lawful oneName
    (fun _ => rfl) fiveBytesRequest zeroMac zeroMac 5 (by decide) _ (by decide) emptyDisk p w
    prepared 16 validated drawn_oneName 1 1 Nat.one_pos Nat.one_pos s run returned fine _
    (fun _ => rfl) _
    opener paths nodup (fun _ _ _ => rfl) listed sized⟩

end RoundTrip
end Bseal.App
