import Bseal.App.ShardPlan
import Bseal.Io.HeaderCounts
import Bseal.Io.ShardReader
import Bseal.Io.ShardWriter
import Bseal.Pipeline.HeaderHash

/-! The three layout computations agree: the planner state of `plan_chunk_frame` and the
placement made by `write_chunk_frame` both run through the next-fit packing that
`plan_shards` computes. -/
namespace Bseal.App
open Bseal.Io Bseal.Platform Bseal.Pipeline NextFit Effect

namespace ChunkLayout
variable (l : ChunkLayout)

/-- The packing whose current bin takes frame `i`. -/
def target (i : Nat) : Packing := (l.packing i).target l.maxShardPayloadLen.toNat (l.frameSize i)

theorem packing_succ (i : Nat) :
    l.packing (i + 1) = ⟨(l.target i).closed, (l.target i).current.add (l.frameSize i)⟩ :=
  Packing.put_eq ..

theorem shardOf_eq (i : Nat) : l.shardOf i = (l.target i).closed.length := by
  unfold shardOf binOf
  rw [show packed _ _ (i + 1) = l.packing (i + 1) from rfl, l.packing_succ]

theorem target_full (i : Nat)
    (full : (l.packing i).Full l.maxShardPayloadLen.toNat (l.frameSize i)) :
    l.target i = ⟨(l.packing i).bins, ⟨i, 0, 0⟩⟩ := by
  have next := @packed_next l.maxShardPayloadLen.toNat l.frameSize i
  unfold target Packing.target
  rw [if_pos full]
  unfold packing
  rw [next]

theorem target_fits (i : Nat)
    (fits : ¬(l.packing i).Full l.maxShardPayloadLen.toNat (l.frameSize i)) :
    l.target i = l.packing i := if_neg fits

def headerIn (i : Nat) (shard : UInt32) : ChunkFrameHeaderV1 where
  frameFlags := if i + 1 = l.n then kChunkFrameFlagFinalChunk else 0
  shardIndex := shard
  globalChunkIndex := UInt64.ofNat i
  plaintextLen := l.len i
  ciphertextLen := (l.len i).toUInt64
  tagLen := 16

def frameHeader (i : Nat) : ChunkFrameHeaderV1 := l.headerIn i (UInt32.ofNat (l.shardOf i))

def position (i : Nat) : ShardWritePosition :=
  ⟨UInt32.ofNat (l.shardOf i), UInt64.ofNat (l.target i).current.load, UInt64.ofNat i⟩

def frame (i : Nat) : PlannedChunkFrame :=
  ⟨l.position i, l.frameHeader i, encodeChunkFrameHeaderV1 (l.frameHeader i)⟩

theorem validate_headerIn (i : Nat) (shard : UInt32) :
    validateChunkFrameHeaderV1 (l.headerIn i shard) = .ok () := by
  have known : (l.headerIn i shard).frameFlags &&& ~~~kChunkFrameKnownFlags = 0 := by
    unfold headerIn
    by_cases final : i + 1 = l.n
    · rw [if_pos final]
      show kChunkFrameFlagFinalChunk &&& ~~~kChunkFrameKnownFlags = 0
      decide
    · rw [if_neg final]
      show (0 : UInt16) &&& ~~~kChunkFrameKnownFlags = 0
      decide
  have tag : (l.headerIn i shard).tagLen ≠ 0 := by
    show (16 : UInt16) ≠ 0
    decide
  unfold validateChunkFrameHeaderV1
  rw [if_neg (not_not_intro known), if_neg tag]

theorem encodedSize_headerIn (i : Nat) (shard : UInt32) :
    chunkFrameV1EncodedSize (l.headerIn i shard) = .ok (UInt64.ofNat (l.frameSize i)) := by
  unfold chunkFrameV1EncodedSize
  rw [l.validate_headerIn]
  exact l.encodedSize i

theorem serialize_headerIn (i : Nat) (shard : UInt32) :
    serializeChunkFrameHeaderV1 (l.headerIn i shard) =
      .ok (encodeChunkFrameHeaderV1 (l.headerIn i shard)) := by
  unfold serializeChunkFrameHeaderV1
  rw [l.validate_headerIn]
  rfl

theorem frameSize_toNat (i : Nat) : (UInt64.ofNat (l.frameSize i)).toNat = l.frameSize i :=
  UInt64.toNat_ofNat_of_lt' ((l.frameSize_le i).trans_lt l.maxShardPayloadLen.toNat_lt)

theorem frameSize_within (i : Nat) :
    ¬UInt64.ofNat (l.frameSize i) > l.maxShardPayloadLen := by
  rw [gt_iff_lt, UInt64.lt_iff_toNat_lt, l.frameSize_toNat]
  exact Nat.not_lt.mpr (l.frameSize_le i)

end ChunkLayout

section Planner
variable (l : ChunkLayout) (o : ShardWriterOptions)

structure Counts (g : GlobalPublicHeaderV1) : Prop where
  chunkPlainSize : g.chunkPlainSize = l.chunkPlainSize
  finalPlaintextChunkLen : g.finalPlaintextChunkLen = l.finalLen
  globalChunkCount : g.globalChunkCount = l.chunkCount
  paddedPlaintextSize : g.paddedPlaintextSize.toNat =
    (l.n - 1) * l.chunkPlainSize.toNat + l.finalLen.toNat

structure Announces (g : GlobalPublicHeaderV1) : Prop extends Counts l g where
  shardCount : g.shardCount = UInt32.ofNat l.bins.length

/-- `plan_chunk_frame` for `count` chunks from index `i` on, the last one flagged. -/
def planFrames : Nat → Nat → ShardPlanner → Result (List PlannedChunkFrame × ShardPlanner)
  | 0, _, p => .ok ([], p)
  | count + 1, i, p => do
    let (planned, p) ← planChunkFrame o false (UInt64.ofNat i) (l.len i).toUInt64
      (l.len i).toUInt64 16 (i + 1 = l.n) p
    let (rest, p) ← planFrames count (i + 1) p
    pure (planned :: rest, p)

def plannerAt (i : Nat) : ShardPlanner :=
  ⟨UInt32.ofNat (l.packing i).closed.length, UInt64.ofNat (l.packing i).current.load,
    UInt64.ofNat i⟩

theorem place_plannerAt (i : Nat) :
    (plannerAt l i).place l.maxShardPayloadLen (UInt64.ofNat (l.frameSize i)) =
      ⟨UInt32.ofNat (l.target i).closed.length, UInt64.ofNat (l.target i).current.load,
        UInt64.ofNat i⟩ := by
  have exceeds : (plannerAt l i).plannedPayloadOffset >
        l.maxShardPayloadLen - UInt64.ofNat (l.frameSize i) ↔
      (l.packing i).Full l.maxShardPayloadLen.toNat (l.frameSize i) :=
    overCapacity_iff l _ i (load_toNat l i)
  unfold ShardPlanner.place
  by_cases full : (l.packing i).Full l.maxShardPayloadLen.toNat (l.frameSize i)
  · rw [if_pos (exceeds.mpr full), l.target_full i full, Packing.bins, List.length_append,
      List.length_singleton, UInt32.ofNat_add]
    rfl
  · rw [if_neg (fun h => full (exceeds.mp h)), l.target_fits i full]
    rfl

variable {l o}

theorem planChunkFrame_frame (announces : Announces l o.globalHeader)
    (limit : o.maxShardPayloadLen = l.maxShardPayloadLen) (i : Nat) :
    planChunkFrame o false (UInt64.ofNat i) (l.len i).toUInt64 (l.len i).toUInt64 16
      (i + 1 = l.n) (plannerAt l i) = .ok (l.frame i, plannerAt l (i + 1)) := by
  have len := l.len_le i
  have small := (l.len i).toNat_lt
  have withinChunk : ¬(l.len i).toUInt64 > o.globalHeader.chunkPlainSize.toUInt64 := by
    rw [announces.chunkPlainSize, gt_iff_lt, UInt64.lt_iff_toNat_lt, UInt32.toNat_toUInt64,
      UInt32.toNat_toUInt64]
    omega
  have withinField : ¬(l.len i).toUInt64 > 0xffffffff := by
    rw [gt_iff_lt, UInt64.lt_iff_toNat_lt, UInt32.toNat_toUInt64]
    show ¬4294967295 < _
    omega
  have next : (plannerAt l i).plannedNextChunkIndex = UInt64.ofNat i := rfl
  have header (shard : UInt32) :
      ({ frameFlags := if decide (i + 1 = l.n) then kChunkFrameFlagFinalChunk else 0
         shardIndex := shard
         globalChunkIndex := UInt64.ofNat i
         plaintextLen := (l.len i).toUInt64.toUInt32
         ciphertextLen := (l.len i).toUInt64
         tagLen := 16 } : ChunkFrameHeaderV1) = l.headerIn i shard := by
    simp [ChunkLayout.headerIn]
  have load : UInt64.ofNat (l.target i).current.load + UInt64.ofNat (l.frameSize i) =
      UInt64.ofNat (l.packing (i + 1)).current.load := by
    rw [l.packing_succ, ← UInt64.ofNat_add]
    rfl
  have index : UInt64.ofNat i + 1 = UInt64.ofNat (i + 1) := (UInt64.ofNat_add i 1).symm
  have closed : (l.target i).closed = (l.packing (i + 1)).closed := by rw [l.packing_succ]
  unfold planChunkFrame
  rw [if_neg (by simp), if_neg (by rw [next]; simp), if_neg withinChunk, if_neg withinField]
  simp only [header, l.encodedSize_headerIn, limit, bind, Except.bind,
    if_neg (l.frameSize_within i), place_plannerAt, l.serialize_headerIn, load, index]
  unfold ChunkLayout.frame ChunkLayout.position ChunkLayout.frameHeader plannerAt
  rw [l.shardOf_eq, closed]
  rfl

theorem planFrames_eq (announces : Announces l o.globalHeader)
    (limit : o.maxShardPayloadLen = l.maxShardPayloadLen) (count i : Nat) :
    planFrames l o count i (plannerAt l i) =
      .ok ((List.range' i count).map l.frame, plannerAt l (i + count)) := by
  induction count generalizing i with
  | zero => rfl
  | succ count ih =>
    unfold planFrames
    rw [planChunkFrame_frame announces limit i]
    simp only [bind, Except.bind]
    rw [ih (i + 1), List.range'_succ, List.map_cons, Nat.add_assoc, Nat.add_comm 1]
    rfl

end Planner

section Writer
variable (l : ChunkLayout) (o : ShardWriterOptions) (sys : System)
  (hmacSha256 : Bytes → Bytes → Bytes32) (bodies : Nat → Bytes)

def planOf (s : FinalizedShard) : ShardPlan :=
  ⟨s.shardIndex, s.firstChunkIndex, s.chunkCount, s.payloadLen, zeroMac⟩

def frameBytes (i : Nat) : Bytes := encodeChunkFrameHeaderV1 (l.frameHeader i) ++ bodies i

def payloadOf (first count : Nat) : Bytes := (List.range' first count).flatMap (frameBytes l bodies)

def shardPayload (s : FinalizedShard) : Bytes :=
  payloadOf l bodies s.firstChunkIndex.toNat s.chunkCount.toNat

structure Written (w : ShardWriter) (i : Nat) (done : List Bin) : Prop where
  options : w.options = o
  finished : w.finished = false
  next : w.nextExpectedChunkIndex = UInt64.ofNat i
  final : w.finalChunkPlaintextLen = if i = l.n then l.finalLen.toUInt64 else 0
  shards : w.finalizedShards.map planOf = done.mapIdx binPlan
  distinct : (w.finalizedShards.map FinalizedShard.path).Nodup
  stored : ∀ s ∈ w.finalizedShards, w.disk.files s.path =
    some (shardFile hmacSha256 o.headerAuthenticationKey o.globalHeader s
      (shardPayload l bodies s))

/-- The open shard holds bin `b`, the `k`-th one. -/
structure Inside (w : ShardWriter) (k : Nat) (b : Bin) : Prop where
  isOpen : w.streamOpen = true
  good : w.streamGood = true
  currentShardIndex : w.currentShardIndex = UInt32.ofNat k
  nextShardIndex : w.nextShardIndex = UInt32.ofNat (k + 1)
  currentFirstChunkIndex : w.currentFirstChunkIndex = UInt64.ofNat b.first
  currentChunkCount : w.currentChunkCount = UInt64.ofNat b.count
  currentPayloadOffset : w.currentPayloadOffset = UInt64.ofNat b.load
  fresh : w.currentPath ∉ w.finalizedShards.map FinalizedShard.path
  content : w.disk.files w.currentPath =
    some (openHeaders o ++ payloadOf l bodies b.first b.count)

structure Between (w : ShardWriter) (i : Nat) (done : List Bin) : Prop where
  isClosed : w.streamOpen = false
  nextShardIndex : w.nextShardIndex = UInt32.ofNat done.length
  opens : l.target i = ⟨done, ⟨i, 0, 0⟩⟩
  all : 1 ≤ i → done = (l.packing i).bins

/-- The invariant of the writer: the open shard is the current bin of the packing, unless it
was full and closed at once. -/
def WriterAt (w : ShardWriter) (i : Nat) : Prop :=
  (∃ done, Written l o hmacSha256 bodies w i done ∧ Between l w i done) ∨
    (Written l o hmacSha256 bodies w i (l.packing i).closed ∧
      Inside l o bodies w (l.packing i).closed.length (l.packing i).current ∧
      1 ≤ (l.packing i).current.count)

variable {l o sys hmacSha256 bodies}

theorem Written.opened {w t : ShardWriter} {i : Nat} {done : List Bin} {first : UInt64}
    (written : Written l o hmacSha256 bodies w i done) (opened : Opened w t first) :
    Written l o hmacSha256 bodies t i done := by
  obtain ⟨path, disk, free, update, rfl⟩ := opened
  refine ⟨written.options, written.finished, written.next, written.final, written.shards,
    written.distinct, fun s member => ?_⟩
  have there := written.stored s member
  show disk.files s.path = _
  rw [update, Function.update_of_ne (fun same => by simp [same, free] at there)]
  exact there

theorem inside_of_opened {w t : ShardWriter} {i k : Nat} {done : List Bin}
    (written : Written l o hmacSha256 bodies w i done)
    (nextShardIndex : w.nextShardIndex = UInt32.ofNat k)
    (opened : Opened w t (UInt64.ofNat i)) : Inside l o bodies t k ⟨i, 0, 0⟩ := by
  obtain ⟨path, disk, free, update, rfl⟩ := opened
  refine ⟨rfl, rfl, nextShardIndex, ?_, rfl, rfl, rfl, ?_, ?_⟩
  · show w.nextShardIndex + 1 = _
    rw [nextShardIndex, UInt32.ofNat_add]
    rfl
  · intro member
    obtain ⟨s, there, same⟩ := List.mem_map.mp member
    have stored := written.stored s there
    rw [show s.path = path from same, free] at stored
    cases stored
  · show disk.files path = _
    rw [update, Function.update_self, written.options]
    simp [payloadOf]

theorem Written.closed {w : ShardWriter} {i : Nat} {done : List Bin} {b : Bin} {disk : Disk}
    (written : Written l o hmacSha256 bodies w i done)
    (inside : Inside l o bodies w done.length b) (small : b.first + b.count < 2 ^ 64)
    (update : disk.files = Function.update w.disk.files w.currentPath
      (some (shardFile hmacSha256 w.options.headerAuthenticationKey w.options.globalHeader
        w.currentShard (payloadOf l bodies b.first b.count)))) :
    Written l o hmacSha256 bodies (w.closed.withDisk disk) i (done ++ [b]) := by
  refine ⟨written.options, written.finished, written.next, written.final, ?_, ?_, ?_⟩
  · show (w.finalizedShards ++ [w.currentShard]).map planOf = _
    rw [List.map_append, written.shards, List.mapIdx_concat, List.map_singleton, binPlan,
      ← inside.currentShardIndex, ← inside.currentFirstChunkIndex, ← inside.currentChunkCount,
      ← inside.currentPayloadOffset]
    rfl
  · show ((w.finalizedShards ++ [w.currentShard]).map FinalizedShard.path).Nodup
    rw [List.map_append, List.nodup_append]
    refine ⟨written.distinct, List.nodup_singleton _, ?_⟩
    intro path member other single same
    rw [List.map_singleton, List.mem_singleton] at single
    exact inside.fresh (by rw [← show other = w.currentPath from single, ← same]; exact member)
  · intro s member
    show disk.files s.path = _
    rcases List.mem_append.mp member with before | last
    · rw [update, Function.update_of_ne]
      · exact written.stored s before
      · intro same
        exact inside.fresh (same ▸ List.mem_map_of_mem before)
    · rw [List.mem_singleton.mp last, update]
      have payload : shardPayload l bodies w.currentShard =
          payloadOf l bodies b.first b.count := by
        show payloadOf l bodies w.currentFirstChunkIndex.toNat w.currentChunkCount.toNat = _
        rw [inside.currentFirstChunkIndex, inside.currentChunkCount,
          UInt64.toNat_ofNat_of_lt' (by simp only [UInt64.size]; omega),
          UInt64.toNat_ofNat_of_lt' (by simp only [UInt64.size]; omega)]
      rw [payload, written.options]
      exact Function.update_self ..

variable (l) in
theorem target_next (i : Nat) : (l.target i).current.first + (l.target i).current.count = i := by
  by_cases full : (l.packing i).Full l.maxShardPayloadLen.toNat (l.frameSize i)
  · rw [l.target_full i full]
    exact Nat.add_zero i
  · rw [l.target_fits i full]
    exact packed_next i

theorem openShardFor_ends {w : ShardWriter} {i : Nat} (hi : i < l.n)
    (limit : o.maxShardPayloadLen = l.maxShardPayloadLen) (key : o.headerAuthenticationKey ≠ [])
    (reached : WriterAt l o hmacSha256 bodies w i) :
    Ends (openShardFor sys hmacSha256 (l.frameHeader i) (UInt64.ofNat (l.frameSize i))) w
      (fun _ t => Written l o hmacSha256 bodies t i (l.target i).closed ∧
        Inside l o bodies t (l.target i).closed.length (l.target i).current)
      (StorageFailure sys) := by
  unfold openShardFor
  rw [ends_get_bind]
  rcases reached with ⟨done, written, between⟩ | ⟨written, inside, count⟩
  · rw [if_pos (by rw [between.isClosed]; simp)]
    apply (openNextShard_ends sys _ between.isClosed).mono
    · intro _ t opened
      rw [between.opens]
      exact ⟨written.opened opened, inside_of_opened written between.nextShardIndex opened⟩
    · exact fun _ _ => id
  · have exceeds : w.currentPayloadOffset >
          w.options.maxShardPayloadLen - UInt64.ofNat (l.frameSize i) ↔
        (l.packing i).Full l.maxShardPayloadLen.toNat (l.frameSize i) := by
      rw [written.options, limit, inside.currentPayloadOffset]
      exact overCapacity_iff l _ i (load_toNat l i)
    have next : (l.packing i).current.first + (l.packing i).current.count = i := packed_next i
    have small := l.n_lt
    rw [if_neg (by rw [inside.isOpen]; simp)]
    by_cases full : (l.packing i).Full l.maxShardPayloadLen.toNat (l.frameSize i)
    · rw [if_pos (exceeds.mpr full)]
      have chunks : w.currentChunkCount ≠ 0 := by
        rw [inside.currentChunkCount, ne_eq, ← UInt64.toNat_inj, UInt64.toNat_ofNat_of_lt' (by
          simp only [UInt64.size]; omega), UInt64.toNat_zero]
        omega
      refine Ends.bind (closeCurrentShard_ends sys hmacSha256 (payloadOf l bodies
        (l.packing i).current.first (l.packing i).current.count) inside.isOpen chunks ?_ ?_) ?_
      · rw [written.options]
        exact key
      · rw [written.options]
        exact inside.content
      rintro _ _ ⟨disk, update, rfl⟩
      have recorded := written.closed inside (by omega) update
      apply (openNextShard_ends sys _ rfl).mono
      · intro _ t opened
        rw [l.target_full i full]
        refine ⟨recorded.opened opened, inside_of_opened recorded ?_ opened⟩
        show w.nextShardIndex = _
        rw [inside.nextShardIndex, Packing.bins, List.length_append, List.length_singleton]
      · exact fun _ _ => id
    · rw [if_neg (fun h => full (exceeds.mp h)), ends_pure, l.target_fits i full]
      exact ⟨written, inside⟩

variable (l bodies) in
theorem payloadOf_target (i : Nat) :
    payloadOf l bodies (l.packing (i + 1)).current.first (l.packing (i + 1)).current.count =
      payloadOf l bodies (l.target i).current.first (l.target i).current.count ++
        encodeChunkFrameHeaderV1 (l.frameHeader i) ++ bodies i := by
  rw [l.packing_succ]
  unfold payloadOf Bin.add
  simp only
  rw [List.range'_concat, List.flatMap_append, Nat.one_mul, target_next l i]
  simp [frameBytes]

theorem Written.frame {w : ShardWriter} {i : Nat} {disk : Disk} (hi : i < l.n)
    (written : Written l o hmacSha256 bodies w i (l.target i).closed)
    (inside : Inside l o bodies w (l.target i).closed.length (l.target i).current)
    (update : disk.files = Function.update w.disk.files w.currentPath
      (some (openHeaders w.options ++ (payloadOf l bodies (l.target i).current.first
        (l.target i).current.count ++ encodeChunkFrameHeaderV1 (l.frameHeader i) ++ bodies i)))) :
    Written l o hmacSha256 bodies ((w.withDisk disk).frameWritten (l.frameHeader i)
        (UInt64.ofNat (l.frameSize i))) (i + 1) (l.packing (i + 1)).closed ∧
      Inside l o bodies ((w.withDisk disk).frameWritten (l.frameHeader i)
        (UInt64.ofNat (l.frameSize i))) (l.packing (i + 1)).closed.length
        (l.packing (i + 1)).current := by
  rw [← payloadOf_target] at update
  rw [l.packing_succ] at update ⊢
  constructor
  · refine ⟨written.options, written.finished, ?_, ?_, written.shards, written.distinct, ?_⟩
    · show w.nextExpectedChunkIndex + 1 = _
      rw [written.next, UInt64.ofNat_add]
      rfl
    · show (if (l.frameHeader i).frameFlags &&& kChunkFrameFlagFinalChunk ≠ 0 then
        (l.len i).toUInt64 else w.finalChunkPlaintextLen) = _
      unfold ChunkLayout.frameHeader ChunkLayout.headerIn ChunkLayout.len
      rw [written.final]
      by_cases last : i + 1 = l.n
      · simp only [if_pos last]
        rw [if_pos (by decide)]
      · simp only [if_neg last]
        rw [if_neg (by decide), if_neg (by omega)]
    · intro s member
      show disk.files s.path = _
      rw [update, Function.update_of_ne]
      · exact written.stored s member
      · intro same
        exact inside.fresh (same ▸ List.mem_map_of_mem member)
  · refine ⟨inside.isOpen, inside.good, inside.currentShardIndex, inside.nextShardIndex,
      inside.currentFirstChunkIndex, ?_, ?_, inside.fresh, ?_⟩
    · show w.currentChunkCount + 1 = _
      rw [inside.currentChunkCount, Bin.add, UInt64.ofNat_add]
      rfl
    · show w.currentPayloadOffset + UInt64.ofNat (l.frameSize i) = _
      rw [inside.currentPayloadOffset, Bin.add, UInt64.ofNat_add]
    · show disk.files w.currentPath = _
      rw [update, Function.update_self, written.options]

theorem writerAt_of_closing {w t : ShardWriter} {i : Nat} (hi : i < l.n)
    (limit : o.maxShardPayloadLen = l.maxShardPayloadLen)
    (written : Written l o hmacSha256 bodies w (i + 1) (l.packing (i + 1)).closed)
    (inside : Inside l o bodies w (l.packing (i + 1)).closed.length (l.packing (i + 1)).current)
    (closing : ClosedWhenFull hmacSha256 w t (payloadOf l bodies
      (l.packing (i + 1)).current.first (l.packing (i + 1)).current.count)) :
    WriterAt l o hmacSha256 bodies t (i + 1) := by
  have next : (l.packing (i + 1)).current.first + (l.packing (i + 1)).current.count = i + 1 :=
    packed_next (i + 1)
  have small := l.n_lt
  unfold ClosedWhenFull at closing
  by_cases full : w.currentPayloadOffset ≥ w.options.maxShardPayloadLen
  · rw [if_pos full] at closing
    obtain ⟨disk, update, rfl⟩ := closing
    refine .inl ⟨(l.packing (i + 1)).bins, written.closed inside (by omega) update, rfl, ?_, ?_,
      fun _ => rfl⟩
    · show w.nextShardIndex = _
      rw [inside.nextShardIndex, Packing.bins, List.length_append, List.length_singleton]
    · rw [ge_iff_le, UInt64.le_iff_toNat_le, written.options, limit,
        inside.currentPayloadOffset, load_toNat] at full
      have size := l.frameSize_pos (i + 1)
      exact l.target_full (i + 1) (by unfold Packing.Full; omega)
  · rw [if_neg full] at closing
    subst closing
    exact .inr ⟨written, inside, packed_count_pos i⟩

/-- `write_chunk_frame` puts frame `i` where the planner had planned it. -/
theorem writeChunkFrame_ends {w : ShardWriter} {i : Nat} (hi : i < l.n)
    (announces : Announces l o.globalHeader)
    (limit : o.maxShardPayloadLen = l.maxShardPayloadLen) (key : o.headerAuthenticationKey ≠ [])
    (body : (bodies i).length = (l.len i).toNat + 16)
    (reached : WriterAt l o hmacSha256 bodies w i) :
    Ends (writeChunkFrame sys hmacSha256 (l.frameHeader i)
        (encodeChunkFrameHeaderV1 (l.frameHeader i)) (bodies i)) w
      (fun position t => position = l.position i ∧ WriterAt l o hmacSha256 bodies t (i + 1))
      (StorageFailure sys) := by
  have options : w.options = o ∧ w.finished = false ∧
      w.nextExpectedChunkIndex = UInt64.ofNat i := by
    rcases reached with ⟨done, written, -⟩ | ⟨written, -⟩
    · exact ⟨written.options, written.finished, written.next⟩
    · exact ⟨written.options, written.finished, written.next⟩
  obtain ⟨options, running, nextIndex⟩ := options
  have withinChunk : ¬(l.frameHeader i).plaintextLen > o.globalHeader.chunkPlainSize := by
    rw [announces.chunkPlainSize, gt_iff_lt, UInt32.lt_iff_toNat_lt]
    exact Nat.not_lt.mpr (l.len_le i)
  have bodySize : (UInt64.ofNat (l.frameSize i) - 40).toNat = (bodies i).length := by
    have size := l.frameSize_pos i
    rw [UInt64.toNat_sub_of_le, l.frameSize_toNat, body]
    · show 40 + _ - 40 = _
      omega
    · rw [UInt64.le_iff_toNat_le, l.frameSize_toNat]
      show 40 ≤ _
      omega
  have header : serializeChunkFrameHeaderV1 (l.frameHeader i) =
    .ok (encodeChunkFrameHeaderV1 (l.frameHeader i)) := l.serialize_headerIn i _
  have size : chunkFrameV1EncodedSize (l.frameHeader i) = .ok (UInt64.ofNat (l.frameSize i)) :=
    l.encodedSize_headerIn i _
  have small := l.n_lt
  have next := target_next l i
  unfold writeChunkFrame
  rw [ends_get_bind, ends_throwIf_bind, if_neg (by rw [running]; simp), ends_throwIf_bind,
    if_neg (by rw [nextIndex]; exact not_not_intro rfl), ends_throwIf_bind, options,
    if_neg withinChunk, ends_lift_bind_of_ok _ _ header, ends_throwIf_bind,
    if_neg (not_not_intro rfl), ends_lift_bind_of_ok _ _ size,
    ends_throwIf_bind, if_neg (not_not_intro bodySize.symm), ends_throwIf_bind, limit,
    if_neg (l.frameSize_within i)]
  apply Ends.bind (openShardFor_ends hi limit key reached)
  rintro _ v ⟨written, inside⟩
  have few : v.currentChunkCount + 1 ≠ 0 := by
    rw [inside.currentChunkCount, ne_eq, ← UInt64.toNat_inj, UInt64.toNat_add,
      UInt64.toNat_ofNat_of_lt' (by simp only [UInt64.size]; omega), UInt64.toNat_zero,
      UInt64.toNat_one]
    omega
  apply Ends.mono (appendFrame_ends sys hmacSha256 (l.frameHeader i) _ (bodies i)
    (UInt64.ofNat (l.frameSize i)) (payloadOf l bodies (l.target i).current.first
      (l.target i).current.count) inside.isOpen inside.good ?_ ?_ few ?_)
  · rintro position t ⟨rfl, disk, update, closing⟩
    obtain ⟨written', inside'⟩ := written.frame hi inside update
    rw [← payloadOf_target] at closing
    refine ⟨?_, ?_⟩
    · unfold ChunkLayout.position
      rw [inside.currentShardIndex, inside.currentPayloadOffset, l.shardOf_eq]
      rfl
    · exact writerAt_of_closing hi limit written' inside' closing
  · exact fun _ _ => id
  · rw [inside.currentShardIndex, ← l.shardOf_eq]
    rfl
  · rw [written.options]
    exact key
  · rw [written.options]
    exact inside.content

variable (sys hmacSha256) in
def writeFrames : List (PlannedChunkFrame × Bytes) →
    Effect Failure ShardWriter (List ShardWritePosition)
  | [] => pure []
  | (planned, body) :: rest => do
    let position ← writeChunkFrame sys hmacSha256 planned.header planned.headerBytes body
    let positions ← writeFrames rest
    pure (position :: positions)

theorem writeFrames_ends {w : ShardWriter} (count i : Nat) (hi : i + count ≤ l.n)
    (announces : Announces l o.globalHeader)
    (limit : o.maxShardPayloadLen = l.maxShardPayloadLen) (key : o.headerAuthenticationKey ≠ [])
    (body : ∀ j < l.n, (bodies j).length = (l.len j).toNat + 16)
    (reached : WriterAt l o hmacSha256 bodies w i) :
    Ends (writeFrames sys hmacSha256
        ((List.range' i count).map fun j => (l.frame j, bodies j))) w
      (fun positions t => positions = (List.range' i count).map l.position ∧
        WriterAt l o hmacSha256 bodies t (i + count)) (StorageFailure sys) := by
  induction count generalizing i w with
  | zero =>
    unfold writeFrames
    exact ⟨rfl, reached⟩
  | succ count ih =>
    rw [List.range'_succ, List.map_cons, List.map_cons]
    unfold writeFrames
    apply Ends.bind (writeChunkFrame_ends (by omega) announces limit key
      (body i (by omega)) reached)
    rintro _ t ⟨rfl, reached'⟩
    apply Ends.bind (ih (i + 1) (by omega) reached')
    rintro _ u ⟨rfl, done⟩
    rw [ends_pure]
    refine ⟨rfl, ?_⟩
    rw [Nat.add_comm count, ← Nat.add_assoc]
    exact done

theorem Written.finalGlobal {w : ShardWriter} (announces : Announces l o.globalHeader)
    (written : Written l o hmacSha256 bodies w l.n l.bins) :
    w.finalGlobal = .ok o.globalHeader := by
  have total := l.total
  have pos := l.finalPos
  have chunks := l.chunks
  have len := l.finalLen.toNat_lt
  have count : w.nextExpectedChunkIndex = l.chunkCount := written.next
  have last : w.finalChunkPlaintextLen = l.finalLen.toUInt64 := by
    rw [written.final, if_pos rfl]
  have nonzero : l.chunkCount ≠ 0 := by
    intro zero
    have := l.chunkCount_toNat
    rw [zero, UInt64.toNat_zero] at this
    omega
  have positive : w.nextExpectedChunkIndex > 0 ∧ w.finalChunkPlaintextLen > 0 := by
    rw [count, last, gt_iff_lt, gt_iff_lt, UInt64.lt_iff_toNat_lt, UInt64.lt_iff_toNat_lt,
      l.chunkCount_toNat, UInt32.toNat_toUInt64, UInt64.toNat_zero]
    omega
  have full : checkedMulU64 (l.chunkCount - 1) l.chunkPlainSize.toUInt64
      "ShardWriter: padded plaintext size" =
      .ok (UInt64.ofNat ((l.n - 1) * l.chunkPlainSize.toNat)) := by
    rw [checkedMulU64_ok, u64_sub_one_toNat nonzero, l.chunkCount_toNat, UInt32.toNat_toUInt64]
    exact UInt64.toNat_ofNat_of_lt' (by simp only [UInt64.size]; omega)
  have padded : checkedAddU64 (UInt64.ofNat ((l.n - 1) * l.chunkPlainSize.toNat))
      l.finalLen.toUInt64 "ShardWriter: padded plaintext size" =
      .ok o.globalHeader.paddedPlaintextSize := by
    rw [checkedAddU64_ok, announces.paddedPlaintextSize, UInt32.toNat_toUInt64,
      UInt64.toNat_ofNat_of_lt' (by simp only [UInt64.size]; omega)]
  have shards : w.finalizedShards.length = l.bins.length := by
    have lengths := congrArg List.length written.shards
    rwa [List.length_map, List.length_mapIdx] at lengths
  have same := ShardWriter.finalGlobal_of_ok (w := w) positive
    (by rw [count, written.options, announces.chunkPlainSize]; exact full)
    (by rw [last]; exact padded)
  rw [same, written.options, shards, count, last, ← announces.shardCount,
    ← announces.globalChunkCount, UInt32.toUInt32_toUInt64, ← announces.finalPlaintextChunkLen]

variable (l o hmacSha256 bodies) in
/-- Every shard of the plan is on disk under the planned global header. -/
structure Finalized (w : ShardWriter) : Prop where
  finished : w.finished = true
  shards : w.finalizedShards.map planOf = l.bins.mapIdx binPlan
  distinct : (w.finalizedShards.map FinalizedShard.path).Nodup
  stored : ∀ s ∈ w.finalizedShards, w.disk.files s.path =
    some (shardFile hmacSha256 o.headerAuthenticationKey o.globalHeader s
      (shardPayload l bodies s))

theorem finish_ends {w : ShardWriter} (announces : Announces l o.globalHeader)
    (key : o.headerAuthenticationKey ≠ []) (reached : WriterAt l o hmacSha256 bodies w l.n) :
    Ends (finish sys hmacSha256) w (fun _ t => Finalized l o hmacSha256 bodies t)
      (StorageFailure sys) := by
  have running : w.finished = false := by
    rcases reached with ⟨done, written, -⟩ | ⟨written, -⟩
    · exact written.finished
    · exact written.finished
  have closing : Ends (closeCurrentShard sys hmacSha256) w
      (fun _ t => Written l o hmacSha256 bodies t l.n l.bins) (StorageFailure sys) := by
    rcases reached with ⟨done, written, between⟩ | ⟨written, inside, count⟩
    · unfold Ends
      rw [closeCurrentShard_idle sys hmacSha256 between.isClosed]
      have all : done = l.bins := between.all l.chunks
      exact all ▸ written
    · have next : (l.packing l.n).current.first + (l.packing l.n).current.count = l.n :=
        packed_next l.n
      have small := l.n_lt
      have chunks : w.currentChunkCount ≠ 0 := by
        rw [inside.currentChunkCount, ne_eq, ← UInt64.toNat_inj, UInt64.toNat_ofNat_of_lt' (by
          simp only [UInt64.size]; omega), UInt64.toNat_zero]
        omega
      apply Ends.mono (closeCurrentShard_ends sys hmacSha256 (payloadOf l bodies
        (l.packing l.n).current.first (l.packing l.n).current.count) inside.isOpen chunks ?_ ?_)
      · rintro _ _ ⟨disk, update, rfl⟩
        exact written.closed inside (by omega) update
      · exact fun _ _ => id
      · rw [written.options]
        exact key
      · rw [written.options]
        exact inside.content
  unfold finish
  rw [ends_get_bind, if_neg (by rw [running]; simp)]
  apply Ends.bind closing
  intro _ t written
  rw [ends_get_bind, ends_lift_bind_of_ok _ _ (written.finalGlobal announces)]
  have stored := written.stored
  rw [← written.options] at stored
  refine Ends.bind (finishShards_ends sys hmacSha256 t.options.globalHeader o.globalHeader
    (shardPayload l bodies) t.finalizedShards written.distinct ?_ stored) ?_
  · rw [written.options]
    exact key
  rintro _ _ ⟨disk, patched, -, rfl⟩
  apply Ends.bind (flush_ends sys _)
  rintro _ _ ⟨disk', same, rfl⟩
  rw [ends_modify]
  refine ⟨rfl, written.shards, written.distinct, fun s member => ?_⟩
  show disk'.files s.path = _
  rw [same, ShardWriter.withDisk_disk, patched s member, written.options]

theorem writerAt_fresh (disk : Disk) :
    WriterAt l o hmacSha256 bodies (ShardWriter.fresh o disk) 0 := by
  have chunks := l.chunks
  refine .inl ⟨[], ⟨rfl, rfl, rfl, ?_, rfl, List.nodup_nil, by simp [ShardWriter.fresh]⟩,
    ⟨rfl, rfl, ?_, fun late => absurd late (by decide)⟩⟩
  · rw [if_neg (by omega)]
    rfl
  · apply l.target_fits 0
    have size := l.frameSize_le 0
    show ¬_ < 0 + l.frameSize 0
    omega

end Writer
section Agreement
variable (l : ChunkLayout)

/-- The plan that `core_encrypt` makes for a header with these counts. -/
def plansOf (base : GlobalPublicHeaderV1) : List ShardPlan :=
  match planShards l.chunkCount l.chunkPlainSize.toUInt64 16 l.maxShardPayloadLen base with
  | .ok plans => plans
  | .error _ => []

theorem plansOf_eq (base : GlobalPublicHeaderV1) (counts : Counts l base) :
    planShards l.chunkCount l.chunkPlainSize.toUInt64 16 l.maxShardPayloadLen base =
      .ok (plansOf l base) ∧ plansOf l base = l.bins.mapIdx binPlan := by
  have planned := planShards_eq l base counts.finalPlaintextChunkLen
  unfold plansOf
  rw [planned]
  exact ⟨rfl, rfl⟩

def inShard (frames : List PlannedChunkFrame) (shardIndex : UInt32) : List PlannedChunkFrame :=
  frames.filter fun f => f.header.shardIndex = shardIndex

structure PlansFrames (plan : ShardPlan) (frames : List PlannedChunkFrame) : Prop where
  first : (inShard frames plan.shardIndex).head?.map (fun f => f.header.globalChunkIndex) =
    some plan.firstChunkIndex
  count : (inShard frames plan.shardIndex).length = plan.chunkCount.toNat
  payload : ((inShard frames plan.shardIndex).map fun f =>
    40 + (f.header.ciphertextLen.toNat + f.header.tagLen.toNat)).sum = plan.payloadLen.toNat
  range : ∀ f ∈ inShard frames plan.shardIndex,
    plan.firstChunkIndex ≤ f.header.globalChunkIndex ∧
      f.header.globalChunkIndex.toNat < plan.firstChunkIndex.toNat + plan.chunkCount.toNat

theorem bin_values (b : Bin) (member : b ∈ l.bins) :
    (UInt64.ofNat b.first).toNat = b.first ∧ (UInt64.ofNat b.count).toNat = b.count ∧
      (UInt64.ofNat b.load).toNat = b.load := by
  have stop : b.first + b.count ≤ l.n := bins_end_le l.n b member
  have load : b.load ≤ l.maxShardPayloadLen.toNat :=
    bins_load_le l.n (fun j _ => l.frameSize_le j) b member
  have small := l.n_lt
  have limit := l.maxShardPayloadLen.toNat_lt
  refine ⟨?_, ?_, ?_⟩
  · exact UInt64.toNat_ofNat_of_lt' (by simp only [UInt64.size]; omega)
  · exact UInt64.toNat_ofNat_of_lt' (by simp only [UInt64.size]; omega)
  · exact UInt64.toNat_ofNat_of_lt' (by simp only [UInt64.size]; omega)

theorem bin_pos (b : Bin) (member : b ∈ l.bins) : 0 < b.count ∧ 0 < b.load := by
  have chunks := l.chunks
  have last : l.n - 1 + 1 = l.n := by omega
  have count : 0 < b.count := by
    apply @bins_count_pos l.maxShardPayloadLen.toNat l.frameSize
      (l.frameSize_le 0) (l.n - 1)
    rw [last]
    exact member
  refine ⟨count, ?_⟩
  obtain ⟨more, total⟩ := Nat.exists_eq_add_of_lt count
  have size := l.frameSize_pos b.first
  rw [bins_load l.n b member, total, List.range'_succ, List.map_cons, List.sum_cons]
  omega

theorem inShard_eq (few : l.bins.length < 2 ^ 32) (k : Nat) (b : Bin)
    (here : l.bins[k]? = some b) :
    inShard ((List.range l.n).map l.frame) (UInt32.ofNat k) =
      (List.range' b.first b.count).map l.frame := by
  have bound : k < l.bins.length := (List.getElem?_eq_some_iff.mp here).1
  have items := @bins_items l.maxShardPayloadLen.toNat l.frameSize l.n k b here
  unfold inShard
  rw [List.filter_map, ← items]
  congr 1
  apply List.filter_congr
  intro j member
  have lt : l.shardOf j < l.bins.length := binOf_lt l.n j (List.mem_range.mp member)
  have same : UInt32.ofNat (l.shardOf j) = UInt32.ofNat k ↔ l.shardOf j = k := by
    rw [← UInt32.toNat_inj, UInt32.toNat_ofNat_of_lt' (by simp only [UInt32.size]; omega),
      UInt32.toNat_ofNat_of_lt' (by simp only [UInt32.size]; omega)]
  exact decide_eq_decide.mpr same

theorem plansFrames_bin (few : l.bins.length < 2 ^ 32) (k : Nat) (b : Bin)
    (here : l.bins[k]? = some b) :
    PlansFrames (binPlan k b) ((List.range l.n).map l.frame) := by
  have member := List.mem_of_getElem? here
  obtain ⟨first, count, load⟩ := bin_values l b member
  have shard := inShard_eq l few k b here
  have pos := (bin_pos l b member).1
  unfold binPlan
  refine ⟨?_, ?_, ?_, ?_⟩
  · simp only [shard]
    obtain ⟨more, total⟩ := Nat.exists_eq_add_of_lt pos
    rw [total, List.range'_succ, List.map_cons]
    rfl
  · simp only [shard]
    rw [List.length_map, List.length_range', count]
  · simp only [shard]
    rw [List.map_map, load, bins_load l.n b member]
    rfl
  · simp only [shard]
    intro f there
    obtain ⟨j, range, rfl⟩ := List.mem_map.mp there
    rw [List.mem_range'_1] at range
    have small := l.n_lt
    have stop : b.first + b.count ≤ l.n := bins_end_le l.n b member
    have index : (l.frame j).header.globalChunkIndex.toNat = j :=
      UInt64.toNat_ofNat_of_lt' (by simp only [UInt64.size]; omega)
    rw [UInt64.le_iff_toNat_le, index, first, count]
    exact range

variable (o : ShardWriterOptions) (blake3 : Bytes → Bytes32) (fallback : Bytes32)

/-- The hash the encryption workers bind into the associated data of a frame. -/
def boundHash (f : PlannedChunkFrame) : Bytes32 :=
  Encrypt.selectPublicHeaderHash o.perShardPublicHeaderHashes fallback f.header.shardIndex

/-- The agreement of plan, planner and writer, on the writer's final state. -/
structure LayoutsAgree (plans : List ShardPlan) (frames : List PlannedChunkFrame)
    (positions : List ShardWritePosition) (w : ShardWriter) : Prop where
  finished : w.finished = true
  positions : positions = frames.map (·.position)
  shardIndex : ∀ f ∈ frames, f.position.shardIndex = f.header.shardIndex
  planned : ∀ f ∈ frames, ∃ plan ∈ plans, plan.shardIndex = f.header.shardIndex
  covers : ∀ plan ∈ plans, PlansFrames plan frames
  written : w.finalizedShards.map planOf = plans
  headers : ∀ s ∈ w.finalizedShards, ∃ mac payload, w.disk.files s.path =
    some (serializeGlobalPublicHeader o.globalHeader ++ serializeShardPublicHeader
      { shardHeader s.shardIndex s.firstChunkIndex s.chunkCount s.payloadLen with
        headerMac := mac } ++ payload)
  hash : ∀ s ∈ w.finalizedShards, ∀ f ∈ inShard frames s.shardIndex, boundHash o fallback f =
    computePublicHeaderHash blake3 o.globalHeader
      (shardHeader s.shardIndex s.firstChunkIndex s.chunkCount s.payloadLen)
  reader : ∀ s ∈ w.finalizedShards, ∀ content info, w.disk.files s.path = some content →
    readShardInfo blake3 s.path content = .ok info →
    info.shardHeader.shardIndex = s.shardIndex ∧
      ∀ f ∈ inShard frames s.shardIndex, boundHash o fallback f = info.publicHeaderHash

variable {l o blake3 fallback}

theorem mem_plans {plan : ShardPlan} (member : plan ∈ l.bins.mapIdx binPlan) :
    ∃ k b, l.bins[k]? = some b ∧ plan = binPlan k b := by
  obtain ⟨k, bound, same⟩ := List.mem_mapIdx.mp member
  exact ⟨k, l.bins[k], List.getElem?_eq_getElem bound, same.symm⟩

theorem shard_nonempty {s : FinalizedShard} (planned : planOf s ∈ l.bins.mapIdx binPlan) :
    s.chunkCount ≠ 0 ∧ s.payloadLen ≠ 0 := by
  obtain ⟨k, b, here, same⟩ := mem_plans planned
  have member := List.mem_of_getElem? here
  obtain ⟨-, count, load⟩ := bin_values l b member
  obtain ⟨chunks, payload⟩ := bin_pos l b member
  rw [show s.chunkCount = UInt64.ofNat b.count from congrArg ShardPlan.chunkCount same,
    show s.payloadLen = UInt64.ofNat b.load from congrArg ShardPlan.payloadLen same, ne_eq, ne_eq,
    ← UInt64.toNat_inj, ← UInt64.toNat_inj, count, load, UInt64.toNat_zero]
  omega

theorem hash_of_plan {base : GlobalPublicHeaderV1} (counts : Counts l base)
    (few : l.bins.length < 2 ^ 32)
    (hashes : o.perShardPublicHeaderHashes =
      (fillPerShardHashes blake3 (plansOf l base) o.globalHeader).map ShardPlan.publicHeaderHash)
    {s : FinalizedShard} (planned : planOf s ∈ l.bins.mapIdx binPlan)
    {f : PlannedChunkFrame} (member : f.header.shardIndex = s.shardIndex) :
    boundHash o fallback f = computePublicHeaderHash blake3 o.globalHeader
      (shardHeader s.shardIndex s.firstChunkIndex s.chunkCount s.payloadLen) := by
  obtain ⟨k, b, here, same⟩ := mem_plans planned
  have bound : k < l.bins.length := (List.getElem?_eq_some_iff.mp here).1
  have index : s.shardIndex.toNat = k := by
    rw [show s.shardIndex = UInt32.ofNat k from congrArg ShardPlan.shardIndex same]
    exact UInt32.toNat_ofNat_of_lt' (by simp only [UInt32.size]; omega)
  unfold boundHash
  rw [member]
  apply Encrypt.selectPublicHeaderHash_of_getElem?
  have at_k : (plansOf l base)[k]? = some (planOf s) := by
    rw [(plansOf_eq l base counts).2, List.getElem?_mapIdx, here, same]
    rfl
  rw [hashes, index, fillPerShardHashes, List.map_map, List.getElem?_map, at_k]
  rfl

theorem readShardInfo_shardFile {hmacSha256 : Bytes → Bytes → Bytes32} {key : Bytes}
    {g : GlobalPublicHeaderV1} {s : FinalizedShard} {payload : Bytes} {info : ShardInfo}
    (chunks : s.chunkCount ≠ 0) (payloadLen : s.payloadLen ≠ 0)
    (read : readShardInfo blake3 s.path (shardFile hmacSha256 key g s payload) = .ok info) :
    info.shardHeader.shardIndex = s.shardIndex ∧ info.publicHeaderHash =
      computePublicHeaderHash blake3 g
        (shardHeader s.shardIndex s.firstChunkIndex s.chunkCount s.payloadLen) := by
  have rules := (readShardInfo_ok blake3 s.path _ info).mp read
  let signed := (shardHeader s.shardIndex s.firstChunkIndex s.chunkCount s.payloadLen).signed
    hmacSha256 key g
  obtain ⟨rest, layout⟩ := rules.layout
  unfold shardFile at layout
  rw [List.append_assoc, List.append_assoc] at layout
  obtain ⟨globalBytes, layout⟩ := List.append_inj layout (by simp)
  obtain ⟨shardBytes, -⟩ := List.append_inj layout (by simp)
  have parsed : parseShardPublicHeader (serializeShardPublicHeader signed) = .ok signed :=
    (parseShardPublicHeader_ok _ _).mpr ⟨⟨rfl, rfl, chunks, payloadLen, rfl⟩, [], by simp⟩
  have parsed' : parseShardPublicHeader (serializeShardPublicHeader signed) =
      .ok info.shardHeader :=
    (parseShardPublicHeader_ok _ _).mpr
      ⟨⟨rules.shardMagic, rules.shardRules⟩, [], by rw [shardBytes, List.append_nil]⟩
  have header : info.shardHeader = signed := Except.ok.inj (parsed'.symm.trans parsed)
  refine ⟨by rw [header]; rfl, ?_⟩
  rw [rules.hash, header]
  unfold computePublicHeaderHash
  rw [globalBytes]
  rfl

theorem layoutsAgree_of_finalized {base : GlobalPublicHeaderV1} {extension : Bytes}
    {hmacSha256 : Bytes → Bytes → Bytes32} {bodies : Nat → Bytes} {w : ShardWriter}
    (counts : Counts l base) (few : l.bins.length < 2 ^ 32)
    (hashes : o.perShardPublicHeaderHashes =
      (fillPerShardHashes blake3 (plansOf l base) o.globalHeader).map ShardPlan.publicHeaderHash)
    (finalized : Finalized l { o with filenameExtension := extension } hmacSha256 bodies w) :
    LayoutsAgree o blake3 fallback (plansOf l base) ((List.range l.n).map l.frame)
      ((List.range' 0 l.n).map l.position) w := by
  have plans := (plansOf_eq l base counts).2
  have planned : ∀ s ∈ w.finalizedShards, planOf s ∈ l.bins.mapIdx binPlan := fun s member =>
    finalized.shards ▸ List.mem_map_of_mem member
  refine ⟨finalized.finished, ?_, ?_, ?_, ?_, finalized.shards.trans plans.symm, ?_, ?_, ?_⟩
  · rw [List.map_map, List.range_eq_range']
    rfl
  · intro f member
    obtain ⟨j, -, rfl⟩ := List.mem_map.mp member
    rfl
  · intro f member
    obtain ⟨j, range, rfl⟩ := List.mem_map.mp member
    obtain ⟨b, here, -⟩ := @bins_binOf l.maxShardPayloadLen.toNat l.frameSize
      j l.n (List.mem_range.mp range)
    obtain ⟨bound, same⟩ := List.getElem?_eq_some_iff.mp here
    rw [plans]
    exact ⟨binPlan (l.shardOf j) b, List.mem_mapIdx.mpr ⟨_, bound, by rw [← same]; rfl⟩, rfl⟩
  · intro plan member
    rw [plans] at member
    obtain ⟨k, b, here, rfl⟩ := mem_plans member
    exact plansFrames_bin l few k b here
  · intro s member
    exact ⟨_, _, finalized.stored s member⟩
  · intro s member f inside
    exact hash_of_plan counts few hashes (planned s member)
      (of_decide_eq_true (List.mem_filter.mp inside).2)
  · intro s member content info stored read
    rw [finalized.stored s member, Option.some.injEq] at stored
    rw [← stored] at read
    obtain ⟨chunks, payload⟩ := shard_nonempty (planned s member)
    obtain ⟨index, hash⟩ := readShardInfo_shardFile chunks payload read
    refine ⟨index, fun f inside => ?_⟩
    rw [hash]
    exact hash_of_plan counts few hashes (planned s member)
      (of_decide_eq_true (List.mem_filter.mp inside).2)

theorem layouts_agree (sys : System) (hmacSha256 : Bytes → Bytes → Bytes32)
    (blake3 : Bytes → Bytes32) (l : ChunkLayout) (base : GlobalPublicHeaderV1)
    (o : ShardWriterOptions) (disk : Disk) (w : ShardWriter) (bodies : Nat → Bytes)
    (fallback : Bytes32) (counts : Counts l base)
    (few : (plansOf l base).length < 2 ^ 32)
    (header : o.globalHeader =
      { base with shardCount := UInt32.ofNat (plansOf l base).length })
    (limit : o.maxShardPayloadLen = l.maxShardPayloadLen)
    (hashes : o.perShardPublicHeaderHashes =
      (fillPerShardHashes blake3 (plansOf l base) o.globalHeader).map ShardPlan.publicHeaderHash)
    (made : makeShardWriter sys o disk = .ok w)
    (body : ∀ i < l.n, (bodies i).length = (l.len i).toNat + 16) :
    planShards l.chunkCount l.chunkPlainSize.toUInt64 16 l.maxShardPayloadLen base =
        .ok (plansOf l base) ∧
      ∃ frames planner, planFrames l o l.n 0 .fresh = .ok (frames, planner) ∧
        Ends (do
          let positions ← writeFrames sys hmacSha256 (frames.zip ((List.range l.n).map bodies))
          finish sys hmacSha256
          pure positions) w
          (fun positions t => LayoutsAgree o blake3 fallback (plansOf l base) frames positions t)
          (StorageFailure sys) := by
  obtain ⟨planned, plans⟩ := plansOf_eq l base counts
  have lengths : (plansOf l base).length = l.bins.length := by rw [plans, List.length_mapIdx]
  have announces : Announces l o.globalHeader := by
    rw [header, lengths]
    exact ⟨⟨counts.chunkPlainSize, counts.finalPlaintextChunkLen, counts.globalChunkCount,
      counts.paddedPlaintextSize⟩, rfl⟩
  have fewBins : l.bins.length < 2 ^ 32 := lengths ▸ few
  obtain ⟨rfl, key⟩ := makeShardWriter_ok sys made
  let o' : ShardWriterOptions := { o with filenameExtension := o.extension }
  have frames : planFrames l o l.n 0 .fresh =
      .ok ((List.range l.n).map l.frame, plannerAt l l.n) := by
    have run := planFrames_eq announces limit l.n 0
    rw [Nat.zero_add, ← List.range_eq_range'] at run
    exact run
  have jobs : ((List.range l.n).map l.frame).zip ((List.range l.n).map bodies) =
      (List.range' 0 l.n).map fun j => (l.frame j, bodies j) := by
    rw [List.zip_map', List.range_eq_range']
  refine ⟨planned, _, _, frames, ?_⟩
  rw [jobs]
  apply Ends.bind (writeFrames_ends (o := o') l.n 0 (by omega) announces limit key body
    (writerAt_fresh _))
  rintro positions t ⟨rfl, reached⟩
  rw [Nat.zero_add] at reached
  apply Ends.bind (finish_ends (o := o') announces key reached)
  intro _ t finalized
  rw [ends_pure]
  exact layoutsAgree_of_finalized counts fewBins hashes finalized

def twoShards : ChunkLayout := ⟨1, 1, 57, 2, by decide, by decide, by decide, by decide, by decide⟩

def twoShardsHeader : GlobalPublicHeaderV1 :=
  { fiveByteHeader 2 with
    chunkPlainSize := 1
    paddedPlaintextSize := 2
    finalPlaintextChunkLen := 1
    shardCount := 2 }

def twoShardsOptions : ShardWriterOptions where
  outputDir := [46]
  maxShardPayloadLen := 57
  filenameExtension := ascii ".bin"
  globalHeader := twoShardsHeader
  headerAuthenticationKey := [1]
  perShardPublicHeaderHashes := [List.Vector.replicate 32 1, List.Vector.replicate 32 1]
  durabilityMode := .off
  durabilityHooks := .noop

def emptyDisk : Disk := ⟨fun _ => none, [], 0, 0⟩

def calmSystem : System := ⟨fun k => [UInt8.ofNat k], fun _ => none⟩

theorem layouts_agree_twoShards :
    planShards 2 1 16 57 twoShardsHeader = .ok (plansOf twoShards twoShardsHeader) ∧
      ∃ frames planner, planFrames twoShards twoShardsOptions 2 0 .fresh = .ok (frames, planner) ∧
        Ends (do
          let positions ← writeFrames calmSystem (fun _ _ => zeroMac)
            (frames.zip ((List.range 2).map fun _ => List.replicate 17 0))
          finish calmSystem fun _ _ => zeroMac
          pure positions)
          (ShardWriter.fresh twoShardsOptions (emptyDisk.done (.createDirectories [46])))
          (fun positions t => LayoutsAgree twoShardsOptions (fun _ => List.Vector.replicate 32 1)
            zeroMac (plansOf twoShards twoShardsHeader) frames positions t)
          (StorageFailure calmSystem) := by
  have two : (plansOf twoShards twoShardsHeader).length = 2 := by decide
  have bodies : ∀ i < twoShards.n,
      (List.replicate 17 (0 : UInt8)).length = (twoShards.len i).toNat + 16 := by decide
  exact layouts_agree calmSystem (fun _ _ => zeroMac) (fun _ => List.Vector.replicate 32 1)
    twoShards twoShardsHeader twoShardsOptions emptyDisk _ (fun _ => List.replicate 17 0) zeroMac
    ⟨rfl, rfl, rfl, rfl⟩ (by rw [two]; decide) (by rw [two]; rfl) rfl (by decide) rfl bodies

end Agreement
end Bseal.App
