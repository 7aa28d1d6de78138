import Bseal.Pipeline.DecryptDelivery

/-! What a shard stream that is read to its end looks like, and what the size check of the
decrypt pipeline adds. -/
namespace Bseal.Pipeline
open Crypto Io OrderedPipeline Platform

def recordBytes (record : ChunkRecord) : Bytes := record.frameHeaderBytes ++ record.ciphertext

/-- The whole stream of an archive with this header. -/
structure ExactStream (g : GlobalPublicHeaderV1) (records : List ChunkRecord) : Prop where
  indices : records.map (fun record => record.chunkIndex.toNat) =
    List.range g.globalChunkCount.toNat
  final : ∀ i (inside : i < records.length),
    records[i].frameFlags &&& kChunkFrameFlagFinalChunk ≠ 0 ↔ i + 1 = records.length
  full : ∀ i (more : i + 1 < records.length), records[i].plaintextSize = g.chunkPlainSize.toUInt64

structure ExactShard (files : Files) (shard : ShardInfo) (records : List ChunkRecord) : Prop where
  content : files shard.path = some (serializeGlobalPublicHeader shard.globalHeader ++
    serializeShardPublicHeader shard.shardHeader ++ records.flatMap recordBytes)
  payloadLen : shard.shardPayloadLen.toNat =
    (records.map fun record => 40 + record.plaintextSize.toNat + 16).sum

variable {files : Files}

theorem exactShard_of_holds {total : Nat} {shard : ShardInfo} {frames : List Frame}
    (holds : ShardHolds files total shard frames) (file : ShardFile files shard) :
    ExactShard files shard (frames.map Frame.record) := by
  refine ⟨?_, ?_⟩
  · rw [holds.content, List.flatMap_map]
    rfl
  · rw [holds.payloadLen file, List.map_map]
    refine congrArg List.sum (List.map_congr_left fun f _ => ?_)
    simp only [Function.comp_apply, Frame.record, UInt32.toNat_toUInt64]

theorem exactShards_of_holds {total : Nat} {shards : List ShardInfo} {groups : List (List Frame)}
    (all : List.Forall₂ (ShardHolds files total) shards groups)
    (shardFiles : ∀ s ∈ shards, ShardFile files s) :
    List.Forall₂ (ExactShard files) shards (groups.map (List.map Frame.record)) := by
  induction all with
  | nil => exact .nil
  | cons holds _ ih =>
    exact .cons (exactShard_of_holds holds (shardFiles _ List.mem_cons_self))
      (ih fun s member => shardFiles s (List.mem_cons_of_mem _ member))

theorem exactStream_of_holds {g : GlobalPublicHeaderV1} {shards : List ShardInfo}
    {groups : List (List Frame)}
    (all : List.Forall₂ (ShardHolds files g.globalChunkCount.toNat) shards groups)
    (covers : Covers shards 0 g.globalChunkCount.toNat)
    (headers : ∀ s ∈ shards, s.globalHeader = g) :
    ExactStream g (groups.flatten.map Frame.record) := by
  have indices : groups.flatten.map (fun f => f.header.globalChunkIndex.toNat) =
      List.range g.globalChunkCount.toNat := by
    rw [holds_indices all covers, Nat.sub_zero, List.range_eq_range']
  have count : groups.flatten.length = g.globalChunkCount.toNat := by
    rw [← List.length_map (fun f : Frame => f.header.globalChunkIndex.toNat), indices,
      List.length_range]
  have place : ∀ i (inside : i < groups.flatten.length),
      groups.flatten[i].header.globalChunkIndex.toNat = i := by
    intro i inside
    have here := List.getElem_of_eq indices (by rw [List.length_map]; exact inside)
    rwa [List.getElem_map, List.getElem_range] at here
  have rules : ∀ i (inside : i < groups.flatten.length), ∃ s ∈ shards,
      FrameRules s g.globalChunkCount.toNat i groups.flatten[i] := by
    intro i inside
    obtain ⟨s, member, rules⟩ := holds_mem all _ (List.getElem_mem inside)
    rw [place i inside] at rules
    exact ⟨s, member, rules⟩
  refine ⟨?_, fun i inside => ?_, fun i more => ?_⟩
  · rw [List.map_map, ← indices]
    rfl
  · rw [List.length_map] at inside
    obtain ⟨s, _, frame⟩ := rules i inside
    rw [List.length_map, count, List.getElem_map]
    exact frame.final
  · rw [List.length_map] at more
    obtain ⟨s, member, frame⟩ := rules i (by omega)
    rw [List.getElem_map, Frame.record, frame.full (by omega), headers s member]

theorem ExactStream.total {g : GlobalPublicHeaderV1} {records : List ChunkRecord}
    (exact : ExactStream g records) {last : ChunkRecord} (ends : records.getLast? = some last) :
    (records.map fun record => record.plaintextSize.toNat).sum =
      (g.globalChunkCount.toNat - 1) * g.chunkPlainSize.toNat + last.plaintextSize.toNat := by
  obtain ⟨front, rfl⟩ := List.getLast?_eq_some_iff.mp ends
  have count := congrArg List.length exact.indices
  rw [List.length_map, List.length_range, List.length_append, List.length_singleton] at count
  have size : front.map (fun record => record.plaintextSize.toNat) =
      List.replicate front.length g.chunkPlainSize.toNat := by
    refine List.eq_replicate_iff.mpr ⟨List.length_map .., fun n member => ?_⟩
    obtain ⟨record, among, rfl⟩ := List.mem_map.mp member
    obtain ⟨i, inside, rfl⟩ := List.getElem_of_mem among
    have full := exact.full i (by simpa using inside)
    rw [List.getElem_append_left inside] at full
    rw [full, UInt32.toNat_toUInt64]
  rw [List.map_append, List.sum_append, size, List.sum_replicate, ← count, List.map_singleton,
    List.sum_singleton, smul_eq_mul, Nat.add_sub_cancel]

/-- With the padded size of the header as the total, modulo `2^64`, the last record has the
length that the header declares. -/
theorem ExactStream.last_plaintextSize {g : GlobalPublicHeaderV1} {records : List ChunkRecord}
    (exact : ExactStream g records) (rules : GlobalHeaderRules g) {last : ChunkRecord}
    (ends : records.getLast? = some last)
    (total : UInt64.ofNat (records.map fun record => record.plaintextSize.toNat).sum =
      g.paddedPlaintextSize) :
    last.plaintextSize = g.finalPlaintextChunkLen.toUInt64 := by
  have earlier : UInt64.ofNat (g.globalChunkCount.toNat - 1) = g.globalChunkCount - 1 := by
    rw [← u64_sub_one_toNat rules.globalChunkCount, UInt64.ofNat_toNat]
  have chunk : UInt64.ofNat g.chunkPlainSize.toNat = g.chunkPlainSize.toUInt64 := by
    rw [← UInt32.toNat_toUInt64, UInt64.ofNat_toNat]
  rw [exact.total ends, rules.sizeConsistent, expectedPaddedSize, UInt64.ofNat_add,
    UInt64.ofNat_mul, earlier, chunk, UInt64.ofNat_toNat] at total
  exact UInt64.add_right_inj _ |>.mp total

section Exact
variable (blake3 : Bytes → Bytes32) (hmacSha256 : Bytes → Bytes → Bytes32)
  (validation : ShardReaderValidation) (authKey : Bytes)

/-- A shard set that is accepted and read to its end is exactly its headers and frames. -/
theorem stream_exact {inputDir : Bytes} {listing : Option (List Bytes)}
    {shards sorted : List ShardInfo} {total : UInt64} {records : List ChunkRecord}
    (sized : ∀ path content, files path = some content → content.length < 2 ^ 64)
    (found : discover blake3 files inputDir listing = .ok shards)
    (valid : validateShards hmacSha256 validation authKey shards = .ok (sorted, total))
    (read : Reads files (.start sorted total) records) :
    ∃ g, sorted ≠ [] ∧ (∀ s ∈ sorted, s.globalHeader = g) ∧ ExactStream g records ∧
      (∃ groups, records = groups.flatten ∧ List.Forall₂ (ExactShard files) sorted groups) ∧
      ∀ {σ : Type} (d : DecryptPipeline σ) (workers capacity : Nat) (workersPos : 0 < workers)
        (capacityPos : 0 < capacity) (start : σ)
        (s : State (d.threads workers capacity workersPos capacityPos)),
        d.stream = ⟨records, none⟩ → d.options.paddedPlaintextSize = g.paddedPlaintextSize →
        Reaches (init _ ⟨start, 0⟩) s → Call.finish ∈ s.calls →
        ∀ last, records.getLast? = some last →
          last.plaintextSize = g.finalPlaintextChunkLen.toUInt64 := by
  obtain ⟨-, g, nonempty, headers, rules, rfl, covers, shardFiles⟩ :=
    accepted_set blake3 hmacSha256 validation authKey sized found valid
  rw [ShardReader.start_eq sorted (u64_pos rules.globalChunkCount),
    reads_iff files _ sorted 0 records covers shardFiles] at read
  obtain ⟨groups, rfl, all⟩ := read
  have exact := exactStream_of_holds all covers headers
  refine ⟨g, nonempty, headers, exact,
    ⟨groups.map (List.map Frame.record), ?_, exactShards_of_holds all shardFiles⟩,
    fun d workers capacity workersPos capacityPos start s stream padded run asked last ends => ?_⟩
  · rw [List.map_flatten]
  · have declared := DecryptPipeline.declared_of_finish
      (by rw [padded]; exact rules.paddedPlaintextSize) run asked
    rw [DecryptPipeline.declaredBytes, stream, padded] at declared
    exact exact.last_plaintextSize rules ends declared

end Exact

section TwoShards

def fullFrame : Frame := ⟨⟨0, 0, 0, 65536, 65536, 16⟩, List.replicate 65552 0⟩
def lastFrame : Frame := ⟨⟨kChunkFrameFlagFinalChunk, 1, 1, 5, 5, 16⟩, List.replicate 21 0⟩
def fullShard : ShardInfo := { oneChunkShard 0 65592 with path := ascii "d/a.bin" }
def lastShard : ShardInfo := { oneChunkShard 1 61 with path := ascii "d/b.bin" }

def oneFrameFile (s : ShardInfo) (f : Frame) : Bytes :=
  serializeGlobalPublicHeader s.globalHeader ++ serializeShardPublicHeader s.shardHeader ++ f.bytes

def twoShardFiles : Files := fun path =>
  if path = ascii "d/a.bin" then some (oneFrameFile fullShard fullFrame)
  else if path = ascii "d/b.bin" then some (oneFrameFile lastShard lastFrame)
  else none

theorem oneFrameFile_length (s : ShardInfo) (f : Frame) :
    (oneFrameFile s f).length = 312 + f.body.length := by
  rw [oneFrameFile, Frame.bytes, List.length_append, List.length_append, List.length_append,
    serializeGlobalPublicHeader_length, serializeShardPublicHeader_length,
    encodeChunkFrameHeaderV1_length, ← Nat.add_assoc]
  rfl

theorem fullFrame_length : fullFrame.body.length = 65552 := List.length_replicate

theorem lastFrame_length : lastFrame.body.length = 21 := List.length_replicate

theorem twoShardFiles_sized (path content : Bytes) (there : twoShardFiles path = some content) :
    content.length < 2 ^ 64 := by
  rw [twoShardFiles] at there
  split at there
  · cases there
    rw [oneFrameFile_length, fullFrame_length]
    decide
  · split at there
    · cases there
      rw [oneFrameFile_length, lastFrame_length]
      decide
    · cases there

theorem oneFrameFile_rules {s : ShardInfo} {f : Frame} (header : s.globalHeader = twoChunkHeader)
    (magic : s.shardHeader.shardMagic = kShardHeaderV1Magic)
    (rules : ShardHeaderRules s.shardHeader)
    (index : s.shardHeader.shardIndex < 2) (hash : s.publicHeaderHash = zeroMac)
    (size : s.fileSize = UInt64.ofNat (312 + f.body.length))
    (expected : s.fileSize = kPayloadOffset + s.shardHeader.shardPayloadLen) :
    ShardInfoRules (fun _ => zeroMac) s.path (oneFrameFile s f) s := by
  have parsed : parseGlobalPublicHeader (serializeGlobalPublicHeader twoChunkHeader) =
      .ok twoChunkHeader := by decide +kernel
  obtain ⟨globalMagic, globalRules, -⟩ := (parseGlobalPublicHeader_ok _ _).mp parsed
  rw [← oneFrameFile_length s f] at size
  exact ⟨rfl, header ▸ globalMagic, header ▸ globalRules, magic, rules, ⟨f.bytes, rfl⟩,
    by rw [header]; exact index, hash, size, expected⟩

theorem twoShardFiles_found : discover (fun _ => zeroMac) twoShardFiles (ascii "d")
    (some [ascii "d/b.bin", ascii "d/readme", ascii "d/a.bin"]) = .ok [fullShard, lastShard] := by
  have nonzero : (1 : UInt64) ≠ 0 ∧ (65592 : UInt64) ≠ 0 ∧ (61 : UInt64) ≠ 0 := by decide
  have listed : readShards (fun _ => zeroMac) twoShardFiles
      [ascii "d/b.bin", ascii "d/readme", ascii "d/a.bin"] = .ok [lastShard, fullShard] := by
    refine (readShards_ok ..).mpr ?_
    rw [show [ascii "d/b.bin", ascii "d/readme", ascii "d/a.bin"].filter (isShardFile
      twoShardFiles) =
      [ascii "d/b.bin", ascii "d/a.bin"] by decide +kernel]
    refine .cons ⟨oneFrameFile lastShard lastFrame, rfl, ?_⟩
      (.cons ⟨oneFrameFile fullShard fullFrame, rfl, ?_⟩ .nil)
    · refine oneFrameFile_rules (s := lastShard) rfl rfl ⟨rfl, nonzero.1, nonzero.2.2, rfl⟩
        (by decide) rfl ?_ rfl
      rw [lastFrame_length]
      rfl
    · refine oneFrameFile_rules (s := fullShard) rfl rfl ⟨rfl, nonzero.1, nonzero.2.1, rfl⟩
        (by decide) rfl ?_ rfl
      rw [fullFrame_length]
      rfl
  exact (Result.bind_eq_ok ..).mpr ⟨_, listed, rfl⟩

theorem twoShardFiles_valid : validateShards (fun _ _ => zeroMac) ⟨none, none, none, none⟩ []
    [fullShard, lastShard] = .ok ([fullShard, lastShard], 2) := by
  decide +kernel

theorem oneFrameFile_holds {s : ShardInfo} {f : Frame}
    (there : twoShardFiles s.path = some (oneFrameFile s f)) (count : s.chunkCount = 1)
    (rules : FrameRules s 2 s.firstChunkIndex.toNat f)
    (payload : 40 + f.body.length = s.shardPayloadLen.toNat) :
    ShardHolds twoShardFiles 2 s [f] ∧ ShardFile twoShardFiles s := by
  refine ⟨⟨by rw [count]; rfl, ⟨rules, trivial⟩, ?_⟩, f.bytes, there, ?_, ?_⟩
  · rw [there, List.flatMap_singleton]
    rfl
  · rw [Frame.bytes, List.length_append, encodeChunkFrameHeaderV1_length]
    exact payload
  · have small := twoShardFiles_sized _ _ there
    rw [oneFrameFile_length] at small
    omega

theorem twoShardFiles_reads :
    Reads twoShardFiles (.start [fullShard, lastShard] 2) [fullFrame.record, lastFrame.record] := by
  obtain ⟨first, firstFile⟩ := oneFrameFile_holds (s := fullShard) (f := fullFrame) rfl rfl
    ⟨⟨by decide, rfl, rfl⟩, rfl, rfl, by decide, by decide, fun _ => rfl, fullFrame_length⟩
    (by rw [fullFrame_length]; rfl)
  obtain ⟨last, lastFile⟩ := oneFrameFile_holds (s := lastShard) (f := lastFrame) rfl rfl
    ⟨⟨by decide, rfl, rfl⟩, rfl, rfl, by decide, by decide, fun no => absurd rfl no,
      lastFrame_length⟩ (by rw [lastFrame_length]; rfl)
  exact (reads_iff twoShardFiles 2 [fullShard, lastShard] 0 _ ⟨rfl, rfl, rfl⟩
    (List.forall_mem_cons.mpr ⟨firstFile, List.forall_mem_singleton.mpr lastFile⟩)).mpr
      ⟨[[fullFrame], [lastFrame]], rfl, .cons first (.cons last .nil)⟩

theorem stream_exact_twoShards : ExactStream twoChunkHeader [fullFrame.record, lastFrame.record] ∧
    ∃ groups : List (List ChunkRecord), [fullFrame.record, lastFrame.record] = groups.flatten ∧
      List.Forall₂ (ExactShard twoShardFiles) [fullShard, lastShard] groups := by
  obtain ⟨g, _, headers, stream, shards, _⟩ := stream_exact (fun _ => zeroMac) (fun _ _ => zeroMac)
    ⟨none, none, none, none⟩ [] twoShardFiles_sized twoShardFiles_found twoShardFiles_valid
    twoShardFiles_reads
  have header : twoChunkHeader = g := headers fullShard List.mem_cons_self
  exact ⟨header ▸ stream, shards⟩

end TwoShards

end Bseal.Pipeline
