import Bseal.App.LayoutAgreement
import Bseal.Io.TornWrite
import Bseal.Io.WriterNames

/-! What the writer has finished, the reader discovers, validates and reads back frame by frame. -/
namespace Bseal.App
open Bseal.Io Bseal.Platform NextFit Effect

section Infos
variable (blake3 : Bytes → Bytes32) (hmacSha256 : Bytes → Bytes → Bytes32) (l : ChunkLayout)
  (o : ShardWriterOptions) (bodies : Nat → Bytes)

def framesOf (first count : Nat) : List Frame :=
  (List.range' first count).map fun i => ⟨l.frameHeader i, bodies i⟩

theorem payloadOf_eq (first count : Nat) :
    payloadOf l bodies first count = (framesOf l bodies first count).flatMap Frame.bytes := by
  unfold payloadOf framesOf
  rw [List.flatMap_map]
  rfl

def infoOf (s : FinalizedShard) : ShardInfo where
  path := s.path
  globalHeader := o.globalHeader
  shardHeader := (shardHeader s.shardIndex s.firstChunkIndex s.chunkCount s.payloadLen).signed
    hmacSha256 o.headerAuthenticationKey o.globalHeader
  publicHeaderHash := computePublicHeaderHash blake3 o.globalHeader
    (shardHeader s.shardIndex s.firstChunkIndex s.chunkCount s.payloadLen)
  fileSize := kPayloadOffset + s.payloadLen

variable {blake3 hmacSha256 l o bodies}

structure InBin (l : ChunkLayout) (s : FinalizedShard) (k : Nat) (b : Bin) : Prop where
  here : l.bins[k]? = some b
  shardIndex : s.shardIndex.toNat = k
  first : s.firstChunkIndex.toNat = b.first
  count : s.chunkCount.toNat = b.count
  load : s.payloadLen.toNat = b.load

theorem inBin_of_planned (few : l.bins.length < 2 ^ 32) {s : FinalizedShard}
    (planned : planOf s ∈ l.bins.mapIdx binPlan) : ∃ k b, InBin l s k b := by
  obtain ⟨k, b, here, same⟩ := mem_plans planned
  have bound : k < l.bins.length := (List.getElem?_eq_some_iff.mp here).1
  obtain ⟨first, count, load⟩ := bin_values l b (List.mem_of_getElem? here)
  refine ⟨k, b, here, ?_, ?_, ?_, ?_⟩
  · rw [show s.shardIndex = UInt32.ofNat k from congrArg ShardPlan.shardIndex same]
    exact UInt32.toNat_ofNat_of_lt' (by simp only [UInt32.size]; omega)
  · rw [show s.firstChunkIndex = UInt64.ofNat b.first from
      congrArg ShardPlan.firstChunkIndex same, first]
  · rw [show s.chunkCount = UInt64.ofNat b.count from congrArg ShardPlan.chunkCount same, count]
  · rw [show s.payloadLen = UInt64.ofNat b.load from congrArg ShardPlan.payloadLen same, load]

variable {s : FinalizedShard} {k : Nat} {b : Bin}

theorem InBin.stop (inside : InBin l s k b) : b.first + b.count ≤ l.n :=
  bins_end_le l.n b (List.mem_of_getElem? inside.here)

theorem InBin.shardOf (inside : InBin l s k b) {i : Nat}
    (range : b.first ≤ i ∧ i < b.first + b.count) : l.shardOf i = k := by
  have items := @bins_items l.maxShardPayloadLen.toNat l.frameSize l.n k b inside.here
  have member : i ∈ List.range' b.first b.count := List.mem_range'_1.mpr range
  rw [← items] at member
  exact of_decide_eq_true (List.mem_filter.mp member).2

theorem InBin.payload_length (inside : InBin l s k b)
    (body : ∀ i < l.n, (bodies i).length = (l.len i).toNat + 16) :
    (shardPayload l bodies s).length = s.payloadLen.toNat := by
  have stop := inside.stop
  rw [shardPayload, inside.first, inside.count, inside.load,
    bins_load l.n b (List.mem_of_getElem? inside.here), payloadOf, List.length_flatMap]
  refine congrArg List.sum (List.map_congr_left fun i member => ?_)
  rw [List.mem_range'_1] at member
  rw [frameBytes, List.length_append, encodeChunkFrameHeaderV1_length, body i (by omega)]
  rfl

theorem InBin.file_length (inside : InBin l s k b)
    (body : ∀ i < l.n, (bodies i).length = (l.len i).toNat + 16) :
    (shardFile hmacSha256 o.headerAuthenticationKey o.globalHeader s
      (shardPayload l bodies s)).length = 272 + s.payloadLen.toNat := by
  rw [shardFile, List.length_append, List.length_append, inside.payload_length body,
    serializeGlobalPublicHeader_length, serializeShardPublicHeader_length]
  rfl

theorem InBin.rules (inside : InBin l s k b) (few : l.bins.length < 2 ^ 32)
    (announces : Announces l o.globalHeader) (magic : o.globalHeader.magic = kGlobalHeaderV1Magic)
    (rules : GlobalHeaderRules o.globalHeader)
    (body : ∀ i < l.n, (bodies i).length = (l.len i).toNat + 16) :
    ShardInfoRules blake3 s.path (shardFile hmacSha256 o.headerAuthenticationKey o.globalHeader s
      (shardPayload l bodies s)) (infoOf blake3 hmacSha256 o s) := by
  have member := List.mem_of_getElem? inside.here
  have bound : k < l.bins.length := (List.getElem?_eq_some_iff.mp inside.here).1
  obtain ⟨count, load⟩ := bin_pos l b member
  have chunks : s.chunkCount ≠ 0 := by
    rw [ne_eq, ← UInt64.toNat_inj, inside.count, UInt64.toNat_zero]
    omega
  have payload : s.payloadLen ≠ 0 := by
    rw [ne_eq, ← UInt64.toNat_inj, inside.load, UInt64.toNat_zero]
    omega
  refine ⟨rfl, magic, rules, rfl, ⟨rfl, chunks, payload, rfl⟩, ⟨_, rfl⟩, ?_, rfl, ?_, rfl⟩
  · change s.shardIndex < o.globalHeader.shardCount
    rw [UInt32.lt_iff_toNat_lt, inside.shardIndex, announces.shardCount,
      UInt32.toNat_ofNat_of_lt' (by simp only [UInt32.size]; omega)]
    exact bound
  · rw [inside.file_length body, UInt64.ofNat_add, UInt64.ofNat_toNat]
    rfl

theorem InBin.frames (inside : InBin l s k b) (few : l.bins.length < 2 ^ 32)
    (announces : Announces l o.globalHeader)
    (body : ∀ i < l.n, (bodies i).length = (l.len i).toNat + 16) :
    FramesFrom (infoOf blake3 hmacSha256 o s) l.n b.first (framesOf l bodies b.first b.count) := by
  have bound : k < l.bins.length := (List.getElem?_eq_some_iff.mp inside.here).1
  have rules : ∀ i, b.first ≤ i ∧ i < b.first + b.count →
      FrameRules (infoOf blake3 hmacSha256 o s) l.n i ⟨l.frameHeader i, bodies i⟩ := by
    intro i range
    have stop := inside.stop
    have small := l.n_lt
    refine ⟨?_, ?_, ?_, ?_, ?_, ?_, body i (by omega)⟩
    · refine ⟨?_, rfl, rfl⟩
      change (if i + 1 = l.n then kChunkFrameFlagFinalChunk else 0) &&& ~~~kChunkFrameKnownFlags = 0
      split <;> decide
    · change UInt32.ofNat (l.shardOf i) = s.shardIndex
      rw [inside.shardOf range, ← UInt32.toNat_inj, inside.shardIndex,
        UInt32.toNat_ofNat_of_lt' (by simp only [UInt32.size]; omega)]
    · exact UInt64.toNat_ofNat_of_lt' (by simp only [UInt64.size]; omega)
    · change l.len i ≤ o.globalHeader.chunkPlainSize
      rw [announces.chunkPlainSize, UInt32.le_iff_toNat_le]
      exact l.len_le i
    · change (if i + 1 = l.n then kChunkFrameFlagFinalChunk else 0) &&&
        kChunkFrameFlagFinalChunk ≠ 0 ↔ _
      by_cases last : i + 1 = l.n
      · rw [if_pos last]
        exact iff_of_true (by decide) last
      · rw [if_neg last]
        exact iff_of_false (by decide) last
    · intro more
      change l.len i = o.globalHeader.chunkPlainSize
      rw [announces.chunkPlainSize, ChunkLayout.len, if_neg more]
  have from_ : ∀ count first, (∀ i, first ≤ i ∧ i < first + count →
      FrameRules (infoOf blake3 hmacSha256 o s) l.n i ⟨l.frameHeader i, bodies i⟩) →
      FramesFrom (infoOf blake3 hmacSha256 o s) l.n first (framesOf l bodies first count) := by
    intro count
    induction count with
    | zero => exact fun _ _ => trivial
    | succ count ih =>
      intro first rules
      rw [framesOf, List.range'_succ, List.map_cons]
      exact ⟨rules first ⟨le_rfl, by omega⟩, ih (first + 1) fun i range => rules i (by omega)⟩
  exact from_ b.count b.first rules

theorem covers_infos {stop first : Nat} {shards : List FinalizedShard} {bins : List Bin}
    (each : List.Forall₂ (fun s b => s.firstChunkIndex.toNat = b.first ∧
      s.chunkCount.toNat = b.count) shards bins) (chain : Chain bins first stop) :
    Covers (shards.map (infoOf blake3 hmacSha256 o)) first stop := by
  induction each generalizing first with
  | nil => exact chain
  | @cons s b shards bins same each ih =>
    obtain ⟨here, rest⟩ := chain
    refine ⟨same.1.trans here, ?_⟩
    change Covers (shards.map _) (first + s.chunkCount.toNat) stop
    rw [same.2]
    exact ih rest

theorem forall₂_of_planned (few : l.bins.length < 2 ^ 32) {shards : List FinalizedShard}
    (planned : shards.map planOf = l.bins.mapIdx binPlan) :
    List.Forall₂ (fun s b => ∃ k, InBin l s k b) shards l.bins := by
  have lengths := congrArg List.length planned
  rw [List.length_map, List.length_mapIdx] at lengths
  refine List.forall₂_iff_get.mpr ⟨lengths, fun k left right => ?_⟩
  rw [List.get_eq_getElem, List.get_eq_getElem]
  have same : planOf shards[k] = binPlan k l.bins[k] := by
    have at_k := List.getElem_of_eq planned (by simpa using left)
    rwa [List.getElem_map, List.getElem_mapIdx] at at_k
  have member : planOf shards[k] ∈ l.bins.mapIdx binPlan :=
    planned ▸ List.mem_map_of_mem (List.getElem_mem left)
  obtain ⟨j, b, inside⟩ := inBin_of_planned few member
  have index : shards[k].shardIndex.toNat = k := by
    rw [show shards[k].shardIndex = UInt32.ofNat k from congrArg ShardPlan.shardIndex same]
    exact UInt32.toNat_ofNat_of_lt' (by simp only [UInt32.size]; omega)
  obtain rfl : k = j := index.symm.trans inside.shardIndex
  refine ⟨k, ?_⟩
  have here := inside.here
  rw [List.getElem?_eq_getElem right] at here
  exact Option.some.inj here ▸ inside

theorem indices_of_planned (few : l.bins.length < 2 ^ 32) {shards : List FinalizedShard}
    (planned : shards.map planOf = l.bins.mapIdx binPlan) :
    (shards.map (infoOf blake3 hmacSha256 o)).map (fun s => s.shardIndex.toNat) =
      List.range (shards.map (infoOf blake3 hmacSha256 o)).length := by
  have lengths := congrArg List.length planned
  rw [List.length_map, List.length_mapIdx] at lengths
  rw [List.map_map, List.length_map]
  refine List.ext_getElem (by simp) fun k left right => ?_
  rw [List.getElem_map, List.getElem_range]
  have bound : k < shards.length := by simpa using left
  have same : planOf shards[k] = binPlan k l.bins[k] := by
    have at_k := List.getElem_of_eq planned (by simpa using bound)
    rwa [List.getElem_map, List.getElem_mapIdx] at at_k
  change shards[k].shardIndex.toNat = k
  rw [show shards[k].shardIndex = UInt32.ofNat k from congrArg ShardPlan.shardIndex same]
  exact UInt32.toNat_ofNat_of_lt' (by simp only [UInt32.size]; omega)

structure ExpectsHeader (validation : ShardReaderValidation) (g : GlobalPublicHeaderV1) :
    Prop where
  suiteId : Expects validation.suiteId g.aeadAlgId
  archiveId : Expects validation.archiveId g.archiveId
  chunkPlainSize : Expects validation.chunkPlainSize g.chunkPlainSize.toUInt64
  publicHeaderHash : validation.publicHeaderHash = none

theorem shardSet_of_planned (few : l.bins.length < 2 ^ 32) (announces : Announces l o.globalHeader)
    {validation : ShardReaderValidation} (expects : ExpectsHeader validation o.globalHeader)
    (key : o.headerAuthenticationKey ≠ []) {shards : List FinalizedShard}
    (planned : shards.map planOf = l.bins.mapIdx binPlan) :
    ShardSet hmacSha256 validation o.headerAuthenticationKey
      (shards.map (infoOf blake3 hmacSha256 o)) l.chunkCount := by
  have lengths := congrArg List.length planned
  rw [List.length_map, List.length_mapIdx] at lengths
  have bins : l.bins ≠ [] := by
    unfold ChunkLayout.bins Packing.bins
    simp
  have same : ∀ i ∈ shards.map (infoOf blake3 hmacSha256 o), i.globalHeader = o.globalHeader := by
    intro i member
    obtain ⟨s, -, rfl⟩ := List.mem_map.mp member
    rfl
  refine ⟨?_, indices_of_planned few planned, fun i member front atFront => ?_, fun i member => ?_,
    fun i member => ?_, ?_⟩
  · rw [ne_eq, List.map_eq_nil_iff, ← List.length_eq_zero_iff, lengths, List.length_eq_zero_iff]
    exact bins
  · refine ⟨by rw [same i member, same front atFront], ?_, ?_, ?_, fun _ => ?_, fun _ => ?_⟩
    · rw [same i member]
      exact expects.suiteId
    · rw [same i member]
      exact expects.archiveId
    · rw [same i member]
      exact expects.chunkPlainSize
    · rw [expects.publicHeaderHash]
      exact fun _ none => by cases none
    · obtain ⟨s, -, rfl⟩ := List.mem_map.mp member
      exact verifyShardHeaderMac_computed hmacSha256 _ _ _ _
        (computeShardHeaderMac_of_key hmacSha256 _ _ _ key)
  · rw [same i member, announces.shardCount, List.length_map, lengths,
      UInt32.toNat_ofNat_of_lt' (by simp only [UInt32.size]; omega)]
  · rw [same i member, announces.globalChunkCount]
  · have chain : Chain l.bins 0 l.n := packed_chain l.n
    rw [l.chunkCount_toNat]
    refine covers_infos ((forall₂_of_planned few planned).imp fun s b inside => ?_) chain
    obtain ⟨k, inside⟩ := inside
    exact ⟨inside.first, inside.count⟩

theorem flatten_framesOf {stop first : Nat} {shards : List FinalizedShard} {bins : List Bin}
    (each : List.Forall₂ (fun s b => s.firstChunkIndex.toNat = b.first ∧
      s.chunkCount.toNat = b.count) shards bins) (chain : Chain bins first stop) :
    (shards.map fun s => framesOf l bodies s.firstChunkIndex.toNat s.chunkCount.toNat).flatten =
      framesOf l bodies first (stop - first) := by
  induction each generalizing first with
  | nil =>
    obtain rfl : first = stop := chain
    rw [Nat.sub_self]
    rfl
  | @cons s b shards bins same each ih =>
    obtain ⟨rfl, rest⟩ := chain
    have later := chain_le rest
    rw [List.map_cons, List.flatten_cons, ih rest, same.1, same.2, framesOf, framesOf, framesOf,
      ← List.map_append, List.range'_append_1]
    congr 2
    omega

theorem InBin.holds (inside : InBin l s k b) (few : l.bins.length < 2 ^ 32)
    (announces : Announces l o.globalHeader)
    (body : ∀ i < l.n, (bodies i).length = (l.len i).toNat + 16) {files : Files}
    (stored : files s.path = some (shardFile hmacSha256 o.headerAuthenticationKey o.globalHeader s
      (shardPayload l bodies s))) :
    ShardHolds files l.n (infoOf blake3 hmacSha256 o s)
      (framesOf l bodies s.firstChunkIndex.toNat s.chunkCount.toNat) := by
  refine ⟨?_, ?_, ?_⟩
  · rw [framesOf, List.length_map, List.length_range']
    rfl
  · change FramesFrom _ _ s.firstChunkIndex.toNat _
    rw [inside.first, inside.count]
    exact inside.frames few announces body
  · rw [← payloadOf_eq]
    exact stored

theorem sorted_of_planned (few : l.bins.length < 2 ^ 32) {shards : List FinalizedShard}
    (planned : shards.map planOf = l.bins.mapIdx binPlan) {found : List ShardInfo}
    (perm : found.Perm (shards.map (infoOf blake3 hmacSha256 o))) :
    found.insertionSort ShardInfo.Before = shards.map (infoOf blake3 hmacSha256 o) := by
  have indices : (shards.map (infoOf blake3 hmacSha256 o)).map (fun s => s.shardIndex.toNat) =
      List.range (shards.map (infoOf blake3 hmacSha256 o)).length := indices_of_planned few planned
  generalize shards.map (infoOf blake3 hmacSha256 o) = infos at perm indices
  have rises : infos.Pairwise fun a b => a.shardIndex.toNat < b.shardIndex.toNat := by
    have pairwise := @List.pairwise_lt_range infos.length
    rwa [← indices, List.pairwise_map] at pairwise
  have distinct : ∀ a ∈ infos, ∀ b ∈ infos, a.shardIndex = b.shardIndex → a = b := by
    have nodup : (infos.map fun s => s.shardIndex.toNat).Nodup := by
      rw [indices]
      exact List.nodup_range
    intro a memberA b memberB same
    exact List.inj_on_of_nodup_map nodup memberA memberB (congrArg UInt32.toNat same)
  refine ((List.perm_insertionSort _ found).trans perm).eq_of_pairwise
    (fun a b memberA memberB less more => ?_) (List.pairwise_insertionSort _ found)
    (rises.imp fun less => UInt32.le_iff_toNat_le.mpr less.le)
  exact distinct a (perm.mem_iff.mp ((List.perm_insertionSort _ found).mem_iff.mp memberA)) b
    memberB (UInt32.le_antisymm less more)

structure ReadBack (blake3 : Bytes → Bytes32) (hmacSha256 : Bytes → Bytes → Bytes32)
    (validation : ShardReaderValidation) (key : Bytes) (files : Files) (inputDir : Bytes)
    (paths : List Bytes) (shards : List ShardInfo) (total : UInt64) (records : List ChunkRecord) :
    Prop where
  discovered : discover blake3 files inputDir (some paths) = .ok shards
  opened : openShardReader hmacSha256 shards key validation = .ok (.start shards total)
  reads : Reads files (.start shards total) records

theorem ReadBack.readsArchive {validation : ShardReaderValidation} {key : Bytes} {files : Files}
    {inputDir : Bytes} {paths : List Bytes} {shards : List ShardInfo} {total : UInt64}
    {records : List ChunkRecord}
    (back : ReadBack blake3 hmacSha256 validation key files inputDir paths shards total records) :
    ReadsArchive blake3 hmacSha256 validation key files inputDir (some paths) records :=
  ⟨_, _, back.discovered, back.opened, back.reads⟩

/-- The shard files of a finished writer, among files that are none, are read as the frames. -/
theorem readBack_of_finalized (few : l.bins.length < 2 ^ 32)
    (announces : Announces l o.globalHeader) (magic : o.globalHeader.magic = kGlobalHeaderV1Magic)
    (rules : GlobalHeaderRules o.globalHeader)
    (body : ∀ i < l.n, (bodies i).length = (l.len i).toNat + 16)
    {validation : ShardReaderValidation} (expects : ExpectsHeader validation o.globalHeader)
    (key : o.headerAuthenticationKey.length = 32)
    (nonzero : allZero o.headerAuthenticationKey = false)
    {w : ShardWriter} (finalized : Finalized l o hmacSha256 bodies w) (inputDir : Bytes)
    {paths : List Bytes}
    (sized : ∀ s ∈ w.finalizedShards, 272 + s.payloadLen.toNat < 2 ^ 64)
    (listed : (paths.filter (isShardFile w.disk.files)).Perm
      (w.finalizedShards.map FinalizedShard.path)) :
    ReadBack blake3 hmacSha256 validation o.headerAuthenticationKey w.disk.files inputDir paths
      (w.finalizedShards.map (infoOf blake3 hmacSha256 o)) l.chunkCount
      ((framesOf l bodies 0 l.n).map Frame.record) := by
  have there : o.headerAuthenticationKey ≠ [] := by
    intro none
    rw [none] at key
    cases key
  have planned : ∀ s ∈ w.finalizedShards, ∃ k b, InBin l s k b := fun s member =>
    inBin_of_planned few (finalized.shards ▸ List.mem_map_of_mem member)
  have read : List.Forall₂ (fun path i => ∃ content, w.disk.files path = some content ∧
      ShardInfoRules blake3 path content i) (w.finalizedShards.map FinalizedShard.path)
      (w.finalizedShards.map (infoOf blake3 hmacSha256 o)) := by
    rw [List.forall₂_map_left_iff, List.forall₂_map_right_iff, List.forall₂_same]
    intro s member
    obtain ⟨k, b, inside⟩ := planned s member
    exact ⟨_, finalized.stored s member, inside.rules few announces magic rules body⟩
  obtain ⟨found, matched, perm⟩ := List.perm_comp_forall₂ listed read
  have sorted := sorted_of_planned few finalized.shards perm
  have shardSet : ShardSet hmacSha256 validation o.headerAuthenticationKey
      (w.finalizedShards.map (infoOf blake3 hmacSha256 o)) l.chunkCount :=
    shardSet_of_planned few announces expects there finalized.shards
  have filled : found ≠ [] := by
    rintro rfl
    exact shardSet.nonempty (List.nil_perm.mp perm)
  have accepted : ∀ s ∈ w.finalizedShards.map (infoOf blake3 hmacSha256 o), s.Accepted := by
    intro s member
    obtain ⟨_, _, _, _, rules⟩ := forall₂_mem_right matched s (perm.mem_iff.mpr member)
    exact rules.accepted
  refine ⟨?_, ?_, ?_⟩
  · unfold discover
    simp only
    rw [(readShards_ok blake3 w.disk.files paths found).mpr matched, ← sorted]
    change (if found.isEmpty = true then _ else _) = _
    rw [if_neg (by rw [List.isEmpty_iff]; exact filled)]
  · unfold openShardReader
    rw [if_neg (by rw [key, nonzero]; simp), (validateShards_ok hmacSha256 validation
      o.headerAuthenticationKey _ _ l.chunkCount accepted).mpr ⟨.refl _, shardSet⟩]
    rfl
  · have chunks := l.chunks
    have each : List.Forall₂ (fun s b => s.firstChunkIndex.toNat = b.first ∧
        s.chunkCount.toNat = b.count) w.finalizedShards l.bins :=
      (forall₂_of_planned few finalized.shards).imp fun s b ⟨k, inside⟩ =>
        ⟨inside.first, inside.count⟩
    have flat : _ = framesOf l bodies 0 (l.n - 0) := flatten_framesOf each (packed_chain l.n)
    rw [ShardReader.start_eq _ (by rw [l.chunkCount_toNat]; omega)]
    refine (reads_iff w.disk.files l.chunkCount _ 0 _ shardSet.covers fun i member => ?_).mpr
      ⟨w.finalizedShards.map fun s =>
        framesOf l bodies s.firstChunkIndex.toNat s.chunkCount.toNat, ?_, ?_⟩
    · obtain ⟨s, here, rfl⟩ := List.mem_map.mp member
      obtain ⟨k, b, inside⟩ := planned s here
      exact ⟨shardPayload l bodies s, finalized.stored s here, inside.payload_length body,
        sized s here⟩
    · rw [flat, Nat.sub_zero]
    · rw [List.forall₂_map_left_iff, List.forall₂_map_right_iff, List.forall₂_same]
      intro s member
      obtain ⟨k, b, inside⟩ := planned s member
      rw [l.chunkCount_toNat]
      exact inside.holds few announces body (finalized.stored s member)

end Infos

section RoundTrip
variable (sys : System) (hmacSha256 : Bytes → Bytes → Bytes32)

theorem makeShardWriter_key {o : ShardWriterOptions} {disk : Disk} {w : ShardWriter}
    (made : makeShardWriter sys o disk = .ok w) : allZero o.headerAuthenticationKey = false := by
  have same := (makeShardWriter_ok sys made).1
  unfold makeShardWriter at made
  obtain ⟨o', -, rest⟩ := (Result.bind_eq_ok _ _ _).mp made
  obtain ⟨_, -, rest⟩ := (Result.bind_eq_ok _ _ _).mp rest
  split at rest
  · cases rest
  split at rest
  · cases rest
  rename_i missing
  have options : o' = { o with filenameExtension := o.extension } :=
    congrArg ShardWriter.options ((Except.ok.inj rest).trans same)
  have key : o'.headerAuthenticationKey = o.headerAuthenticationKey := by rw [options]
  exact key ▸ Bool.not_eq_true _ ▸ missing

def storedRecord (f : PlannedChunkFrame × Bytes) : ChunkRecord := Frame.record ⟨f.1.header, f.2⟩

theorem writeFrames_ready {start : Disk} {w : ShardWriter}
    (frames : List (PlannedChunkFrame × Bytes))
    (ready : Ready (fun _ => True) start w) :
    Ends (writeFrames sys hmacSha256 frames) w (fun _ t => Ready (fun _ => True) start t)
      fun _ _ => True := by
  induction frames generalizing w with
  | nil => exact ready
  | cons frame frames ih =>
    obtain ⟨planned, body⟩ := frame
    unfold writeFrames
    refine Ends.bind ((writeChunkFrame_tracked sys hmacSha256 ready planned.header
      planned.headerBytes body fun _ => trivial).mono (fun _ _ => id) fun _ _ _ => trivial)
      fun _ t there => ?_
    exact Ends.bind (ih there) fun _ _ => id

theorem writeFrames_named {o : ShardWriterOptions} {Drawn : Bytes → Prop}
    (drawn : ∀ k, Drawn (joinPath o.outputDir (sys.names k ++ o.filenameExtension)))
    {w : ShardWriter} (frames : List (PlannedChunkFrame × Bytes)) (named : Named o Drawn w) :
    Keeps (Named o Drawn) (writeFrames sys hmacSha256 frames) w := by
  induction frames generalizing w with
  | nil => exact .of_pure _ named
  | cons frame frames ih =>
    obtain ⟨planned, body⟩ := frame
    unfold writeFrames
    refine (named.writeChunkFrame sys hmacSha256 drawn _ _ _).bind fun _ t there => ?_
    exact (ih there).bind fun _ _ last => .of_pure _ last

theorem new_mem {start : Disk} {t : ShardWriter} (ready : Ready (fun _ => True) start t)
    (closed : t.streamOpen = false) {path : Bytes} (fresh : start.files path = none)
    (there : t.disk.files path ≠ none) : path ∈ t.finalizedShards.map FinalizedShard.path := by
  have recorded : t.recorded = t.finalizedShards.map FinalizedShard.path := by
    rw [ShardWriter.recorded, if_pos (ready.idle closed), List.append_nil]
  rw [← recorded]
  by_contra unknown
  obtain ⟨ops, ran, left⟩ := ready.ran
  rw [ran.owned.outside path fun inside => unknown ((left path).mp inside)] at there
  exact there fresh

theorem listed_of_named {start : Disk} {o : ShardWriterOptions} {t : ShardWriter}
    (ready : Ready (fun _ => True) start t) (named : Named o (fun path => hasBinExtension path) t)
    (closed : t.streamOpen = false) (distinct : (t.finalizedShards.map FinalizedShard.path).Nodup)
    {paths : List Bytes} (nodup : paths.Nodup)
    (alone : ∀ path ∈ paths, hasBinExtension path = true → start.files path = none)
    (listed : ∀ path, start.files path = none → t.disk.files path ≠ none → path ∈ paths) :
    (paths.filter (isShardFile t.disk.files)).Perm (t.finalizedShards.map FinalizedShard.path) := by
  have recorded : t.recorded = t.finalizedShards.map FinalizedShard.path := by
    rw [ShardWriter.recorded, if_pos (ready.idle closed), List.append_nil]
  refine (List.perm_ext_iff_of_nodup (nodup.filter _) distinct).mpr fun path => ?_
  rw [List.mem_filter, isShardFile, Bool.and_eq_true, Option.isSome_iff_ne_none]
  constructor
  · rintro ⟨member, there, bin⟩
    exact new_mem ready closed (alone path member bin) there
  · intro member
    obtain ⟨fresh, there⟩ := ready.known (recorded ▸ member)
    obtain ⟨s, here, rfl⟩ := List.mem_map.mp member
    exact ⟨listed _ fresh there, there, named.finalized s here⟩

structure OnlyShards (files : Files) (t : ShardWriter) : Prop where
  distinct : (t.finalizedShards.map FinalizedShard.path).Nodup
  known : ∀ path content, files path = none → t.disk.files path = some content →
    ∃ s ∈ t.finalizedShards, s.path = path ∧ content.length = 272 + s.payloadLen.toNat

/-- What the reader meets once the frames of a layout are written and finished: whoever lists the
directory, in any order, gets the shards of the writer and then the frames one by one. -/
theorem written_read_back (blake3 : Bytes → Bytes32) {l : ChunkLayout} {o : ShardWriterOptions}
    {start : Disk} {w : ShardWriter} {bodies : Nat → Bytes} (few : l.bins.length < 2 ^ 32)
    (announces : Announces l o.globalHeader) (magic : o.globalHeader.magic = kGlobalHeaderV1Magic)
    (rules : GlobalHeaderRules o.globalHeader)
    (limit : o.maxShardPayloadLen = l.maxShardPayloadLen)
    (key : o.headerAuthenticationKey.length = 32) (made : makeShardWriter sys o start = .ok w)
    (drawn : ∀ k, hasBinExtension (joinPath o.outputDir (sys.names k ++ o.extension)))
    (body : ∀ i < l.n, (bodies i).length = (l.len i).toNat + 16) :
    Ends (do
      let _ ← writeFrames sys hmacSha256
        ((List.range' 0 l.n).map fun j => (l.frame j, bodies j))
      finish sys hmacSha256) w
      (fun _ t => t.finalizedShards.map planOf = l.bins.mapIdx binPlan ∧ OnlyShards start.files t ∧
        ∀ (validation : ShardReaderValidation) (inputDir : Bytes) (paths : List Bytes),
        ExpectsHeader validation o.globalHeader → paths.Nodup →
        (∀ path ∈ paths, hasBinExtension path = true → start.files path = none) →
        (∀ path, start.files path = none → t.disk.files path ≠ none → path ∈ paths) →
        (∀ path content, t.disk.files path = some content → content.length < 2 ^ 64) →
        ReadBack blake3 hmacSha256 validation o.headerAuthenticationKey t.disk.files inputDir paths
          (t.finalizedShards.map (infoOf blake3 hmacSha256 o)) l.chunkCount
          ((framesOf l bodies 0 l.n).map Frame.record))
      (StorageFailure sys) := by
  have nonzero := makeShardWriter_key sys made
  obtain ⟨rfl, there⟩ := makeShardWriter_ok sys made
  let o' : ShardWriterOptions := { o with filenameExtension := o.extension }
  let Bin := fun path => hasBinExtension path = true
  have named : Named o' Bin (.fresh o' (start.done (.createDirectories o.outputDir))) :=
    ⟨rfl, fun _ member => absurd member List.not_mem_nil, fun isOpen => by cases isOpen⟩
  have reaching : Ends (writeFrames sys hmacSha256
      ((List.range' 0 l.n).map fun j => (l.frame j, bodies j)))
      (.fresh o' (start.done (.createDirectories o.outputDir)))
      (fun positions t => positions = (List.range' 0 l.n).map l.position ∧
        WriterAt l o' hmacSha256 bodies t (0 + l.n)) (StorageFailure sys) :=
    writeFrames_ends l.n 0 (by omega) announces limit there body (writerAt_fresh _)
  refine Ends.bind ((reaching.and ((writeFrames_ready sys hmacSha256 _
    (fresh_ready (fun _ => True) o' start)).and
    (writeFrames_named sys hmacSha256 drawn _ named))).mono (fun _ _ => id) fun _ _ => And.left) ?_
  rintro _ t ⟨⟨-, reached⟩, ready, named⟩
  rw [Nat.zero_add] at reached
  have running : t.finished = false := by
    rcases reached with ⟨_, written, -⟩ | ⟨written, -⟩
    · exact written.finished
    · exact written.finished
  have finishing : Ends (finish sys hmacSha256) t
      (fun _ u => Finalized l o' hmacSha256 bodies u) (StorageFailure sys) :=
    finish_ends announces there reached
  refine Ends.mono (finishing.and
    ((finish_tracked sys hmacSha256 ready.toTracked).and
      (named.finish sys hmacSha256 running))) ?_ fun _ _ => And.left
  rintro _ u ⟨finalized, ⟨-, stays⟩, named, closed⟩
  have lengths : ∀ s ∈ u.finalizedShards, ∀ content, u.disk.files s.path = some content →
      content.length = 272 + s.payloadLen.toNat := by
    intro s member content there
    obtain ⟨k, b, inside⟩ := inBin_of_planned few (finalized.shards ▸ List.mem_map_of_mem member)
    rw [finalized.stored s member, Option.some.injEq] at there
    rw [← there]
    exact inside.file_length body
  refine ⟨finalized.shards, ⟨finalized.distinct, fun path content fresh there => ?_⟩,
    fun validation inputDir paths expects nodup alone listed sized => ?_⟩
  · have among := new_mem (stays ready) closed fresh (by rw [there]; exact Option.some_ne_none _)
    obtain ⟨s, member, rfl⟩ := List.mem_map.mp among
    exact ⟨s, member, rfl, lengths s member content there⟩
  have bounded : ∀ s ∈ u.finalizedShards, 272 + s.payloadLen.toNat < 2 ^ 64 := by
    intro s member
    have stored := finalized.stored s member
    rw [← lengths s member _ stored]
    exact sized s.path _ stored
  have shards := listed_of_named (stays ready) named closed finalized.distinct nodup alone listed
  exact readBack_of_finalized (o := o') few announces magic rules body expects key nonzero
    finalized inputDir bounded shards

/-- Planned frames are written and finished by a system that lets no file operation fail; whoever
lists the directory afterwards, in any order, reads back their headers and bodies one by one and
then the end. -/
theorem shard_round_trip (calm : ∀ k, sys.faults k = none) (blake3 : Bytes → Bytes32)
    (l : ChunkLayout) (o : ShardWriterOptions) (start : Disk) (w : ShardWriter)
    (bodies : Nat → Bytes) (few : l.bins.length < 2 ^ 32) (announces : Announces l o.globalHeader)
    (magic : o.globalHeader.magic = kGlobalHeaderV1Magic) (rules : GlobalHeaderRules o.globalHeader)
    (limit : o.maxShardPayloadLen = l.maxShardPayloadLen)
    (key : o.headerAuthenticationKey.length = 32) (made : makeShardWriter sys o start = .ok w)
    (drawn : ∀ k, hasBinExtension (joinPath o.outputDir (sys.names k ++ o.extension)))
    (body : ∀ i < l.n, (bodies i).length = (l.len i).toNat + 16) :
    ∃ frames planner, planFrames l o l.n 0 .fresh = .ok (frames, planner) ∧
      Ends (do
        let _ ← writeFrames sys hmacSha256 (frames.zip ((List.range l.n).map bodies))
        finish sys hmacSha256) w
        (fun _ t => ∀ (files : Files), sys.Leaves t.disk files →
          ∀ (validation : ShardReaderValidation) (inputDir : Bytes) (paths : List Bytes),
          ExpectsHeader validation o.globalHeader → paths.Nodup →
          (∀ path ∈ paths, hasBinExtension path = true → start.files path = none) →
          (∀ path, start.files path = none → files path ≠ none → path ∈ paths) →
          (∀ path content, files path = some content → content.length < 2 ^ 64) →
          ReadsArchive blake3 hmacSha256 validation o.headerAuthenticationKey files inputDir
            (some paths) ((frames.zip ((List.range l.n).map bodies)).map storedRecord))
        (fun e t => e = noUniqueName ∧ t.NamesTaken sys) := by
  have planned : planFrames l o l.n 0 .fresh =
      .ok ((List.range l.n).map l.frame, plannerAt l l.n) := by
    have run := planFrames_eq announces limit l.n 0
    rw [Nat.zero_add, ← List.range_eq_range'] at run
    exact run
  have jobs : ((List.range l.n).map l.frame).zip ((List.range l.n).map bodies) =
      (List.range' 0 l.n).map fun j => (l.frame j, bodies j) := by
    rw [List.zip_map', List.range_eq_range']
  have records : ((List.range' 0 l.n).map fun j => (l.frame j, bodies j)).map storedRecord =
      (framesOf l bodies 0 l.n).map Frame.record := by
    rw [List.map_map, framesOf, List.map_map]
    rfl
  refine ⟨_, _, planned, ?_⟩
  rw [jobs, records]
  refine Ends.mono (written_read_back sys hmacSha256 blake3 few announces magic rules limit key made
    drawn body) ?_ fun _ _ failure => failure.names_taken calm
  intro _ t back files left validation inputDir paths expects nodup alone listed sized
  obtain rfl := left calm
  exact (back.2.2 validation inputDir paths expects nodup alone listed sized).readsArchive

def fiveBytes : ChunkLayout :=
  ⟨65536, 5, 65592, 1, by decide, by decide, by decide, by decide, by decide⟩

def fiveBytesOptions : ShardWriterOptions where
  outputDir := [46]
  maxShardPayloadLen := 65592
  filenameExtension := ascii ".bin"
  globalHeader := fiveByteHeader 1
  headerAuthenticationKey := List.replicate 32 1
  perShardPublicHeaderHashes := [List.Vector.replicate 32 1]
  durabilityMode := .off
  durabilityHooks := .noop

def oneName : System := ⟨fun _ => [120], fun _ => none⟩

theorem shard_round_trip_fiveBytes :
    ∃ frames planner, planFrames fiveBytes fiveBytesOptions 1 0 .fresh = .ok (frames, planner) ∧
      Ends (do
        let _ ← writeFrames oneName (fun _ _ => zeroMac)
          (frames.zip ((List.range 1).map fun _ => List.replicate 21 0))
        finish oneName fun _ _ => zeroMac)
        (ShardWriter.fresh fiveBytesOptions (emptyDisk.done (.createDirectories [46])))
        (fun _ t => ∀ (files : Files), oneName.Leaves t.disk files →
          ∀ (validation : ShardReaderValidation) (inputDir : Bytes) (paths : List Bytes),
          ExpectsHeader validation (fiveByteHeader 1) → paths.Nodup →
          (∀ path ∈ paths, hasBinExtension path = true → emptyDisk.files path = none) →
          (∀ path, emptyDisk.files path = none → files path ≠ none → path ∈ paths) →
          (∀ path content, files path = some content → content.length < 2 ^ 64) →
          ReadsArchive (fun _ => List.Vector.replicate 32 1) (fun _ _ => zeroMac) validation
            (List.replicate 32 1) files inputDir (some paths)
            ((frames.zip ((List.range 1).map fun _ => List.replicate 21 0)).map storedRecord))
        (fun e t => e = noUniqueName ∧ t.NamesTaken oneName) := by
  have bins : fiveBytes.bins.length = 1 := by decide
  have size : isPowerOfTwo32 65536 ∧ 65536 ≤ (65536 : UInt32) ∧ 65536 ≤ (67108864 : UInt32) := by
    decide
  have rules : GlobalHeaderRules (fiveByteHeader 1) :=
    ⟨⟨rfl, rfl⟩, rfl, rfl, rfl, rfl, .inl rfl, rfl, rfl, rfl, (by decide : (1 : UInt32) ≠ 0),
      (by decide : (1 : UInt64) ≠ 0), (by decide : (5 : UInt64) ≠ 0), size,
      (by decide : (5 : UInt32) ≠ 0), (by decide : (5 : UInt32) ≤ 65536), rfl,
      (by decide : (1 : UInt64) ≤ 1), .none rfl rfl, (by decide : (65592 : UInt64) ≠ 0), rfl, rfl,
      rfl⟩
  have drawn : ∀ k, hasBinExtension (joinPath fiveBytesOptions.outputDir
      (oneName.names k ++ fiveBytesOptions.extension)) := fun _ =>
    (by decide : hasBinExtension (joinPath [46] ([120] ++ ascii ".bin")))
  exact shard_round_trip oneName (fun _ _ => zeroMac) (fun _ => rfl)
    (fun _ => List.Vector.replicate 32 1)
    fiveBytes fiveBytesOptions emptyDisk _ (fun _ => List.replicate 21 0) (by rw [bins]; decide)
    ⟨⟨rfl, rfl, rfl, rfl⟩, by rw [bins]; rfl⟩ rfl rules rfl rfl rfl drawn (by decide)

end RoundTrip
end Bseal.App
