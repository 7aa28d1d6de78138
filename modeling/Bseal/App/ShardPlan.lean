import Bseal.Common.CheckedArithmetic
import Bseal.Io.ChunkFrame
import Bseal.Io.ShardHeader
import Bseal.Lib.NextFit

/-! `plan_shards` and `fill_per_shard_hashes` of `app/CoreApi`: the two nested loops
compute the next-fit packing of the frame sizes. -/
namespace Bseal.App
open Bseal.Io NextFit

/-- The lengths `c, …, c, f` of a chunk sequence whose frames fit shards of payload `M`. -/
structure ChunkLayout where
  chunkPlainSize : UInt32
  finalLen : UInt32
  maxShardPayloadLen : UInt64
  n : Nat
  chunks : 1 ≤ n
  finalPos : 1 ≤ finalLen.toNat
  finalLe : finalLen.toNat ≤ chunkPlainSize.toNat
  frameFits : 40 + chunkPlainSize.toNat + 16 ≤ maxShardPayloadLen.toNat
  total : (n - 1) * chunkPlainSize.toNat + finalLen.toNat < 2 ^ 64

namespace ChunkLayout
variable (l : ChunkLayout)

def chunkCount : UInt64 := UInt64.ofNat l.n

def len (i : Nat) : UInt32 := if i + 1 = l.n then l.finalLen else l.chunkPlainSize

def frameSize (i : Nat) : Nat := 40 + ((l.len i).toNat + 16)

def packing (i : Nat) : Packing := packed l.maxShardPayloadLen.toNat l.frameSize i

def bins : List Bin := (l.packing l.n).bins

def shardOf (i : Nat) : Nat := binOf l.maxShardPayloadLen.toNat l.frameSize i

theorem n_lt : l.n < 2 ^ 64 := by
  have pos : 1 ≤ l.chunkPlainSize.toNat := l.finalPos.trans l.finalLe
  have chunks := l.chunks
  have count : l.n - 1 ≤ (l.n - 1) * l.chunkPlainSize.toNat := Nat.le_mul_of_pos_right _ pos
  have final := l.finalPos
  have total := l.total
  omega

theorem len_le (i : Nat) : (l.len i).toNat ≤ l.chunkPlainSize.toNat := by
  unfold len
  split
  · exact l.finalLe
  · exact le_rfl

theorem frameSize_le (i : Nat) : l.frameSize i ≤ l.maxShardPayloadLen.toNat := by
  have len := l.len_le i
  have fits := l.frameFits
  unfold frameSize
  omega

theorem frameSize_pos (i : Nat) : 56 ≤ l.frameSize i := by
  unfold frameSize
  omega

theorem load_le (i : Nat) : (l.packing i).current.load ≤ l.maxShardPayloadLen.toNat :=
  packed_load_le i fun j _ => l.frameSize_le j

theorem chunkCount_toNat : l.chunkCount.toNat = l.n := UInt64.toNat_ofNat_of_lt' l.n_lt

theorem encodedSize (i : Nat) :
    chunkFrameV1EncodedSizeFromParams (l.len i).toUInt64 16 =
      .ok (UInt64.ofNat (l.frameSize i)) := by
  rw [chunkFrameV1EncodedSizeFromParams_ok, UInt32.toNat_toUInt64]
  exact UInt64.toNat_ofNat_of_lt' ((l.frameSize_le i).trans_lt l.maxShardPayloadLen.toNat_lt)

end ChunkLayout

structure ShardPlan where
  shardIndex : UInt32
  firstChunkIndex : UInt64
  chunkCount : UInt64
  payloadLen : UInt64
  publicHeaderHash : Bytes32
  deriving DecidableEq

structure ShardFill where
  chunkIdx : UInt64
  chunkCount : UInt64
  payload : UInt64

section Loops
variable (globalChunkCount chunkPlainSize : UInt64) (tagLen : UInt16) (maxShardPayloadLen : UInt64)
  (h : GlobalPublicHeaderV1)

def thisPlainLen (chunkIdx : UInt64) : UInt64 :=
  if chunkIdx = globalChunkCount - 1 then h.finalPlaintextChunkLen.toUInt64 else chunkPlainSize

/-- The inner loop, for at most `fuel` chunks. -/
def fillShard : Nat → ShardFill → Result ShardFill
  | 0, s => .ok s
  | fuel + 1, s =>
    if s.chunkIdx < globalChunkCount then do
      let frameSize ← chunkFrameV1EncodedSizeFromParams
        (thisPlainLen globalChunkCount chunkPlainSize h s.chunkIdx) tagLen
      if s.chunkCount > 0 ∧ s.payload > maxShardPayloadLen - frameSize then .ok s
      else do
        let payload ← checkedAddU64 s.payload frameSize "shard payload accumulation"
        fillShard fuel ⟨s.chunkIdx + 1, s.chunkCount + 1, payload⟩
    else .ok s

/-- The outer loop; each of its at most `fuel` rounds places a chunk. -/
def planShardsLoop : Nat → UInt64 → UInt64 → List ShardPlan → Result (List ShardPlan)
  | 0, _, _, shards => .ok shards
  | fuel + 1, chunkIdx, shardIdx, shards =>
    if chunkIdx < globalChunkCount then do
      let fill ← fillShard globalChunkCount chunkPlainSize tagLen maxShardPayloadLen h
        globalChunkCount.toNat ⟨chunkIdx, 0, 0⟩
      planShardsLoop fuel fill.chunkIdx (shardIdx + 1) (shards ++
        [⟨shardIdx.toUInt32, chunkIdx, fill.chunkCount, fill.payload, zeroMac⟩])
    else .ok shards

def shardSizeTooSmall (maxFrameSize : UInt64) : Failure :=
  .invalidArgument ("--chunk-size (" ++ toString chunkPlainSize ++ " bytes) with" ++
    " tag overhead produces a frame of " ++ toString maxFrameSize ++
    " bytes, which exceeds --shard-size (" ++ toString maxShardPayloadLen ++ " bytes);" ++
    " minimum --shard-size for this --chunk-size is " ++ toString maxFrameSize ++ " bytes")

def planShards : Result (List ShardPlan) := do
  let maxFrameSize ← chunkFrameV1EncodedSizeFromParams chunkPlainSize tagLen
  if maxFrameSize > maxShardPayloadLen then
    .error (shardSizeTooSmall chunkPlainSize maxShardPayloadLen maxFrameSize)
  else
    planShardsLoop globalChunkCount chunkPlainSize tagLen maxShardPayloadLen h
      globalChunkCount.toNat 0 0 []

end Loops

/-- The shard header that `fill_per_shard_hashes` derives from a plan. -/
def ShardPlan.header (plan : ShardPlan) : ShardPublicHeaderV1 where
  shardMagic := kShardHeaderV1Magic
  shardHeaderLen := 80
  shardIndex := plan.shardIndex
  firstGlobalChunkIndex := plan.firstChunkIndex
  shardChunkCount := plan.chunkCount
  shardPayloadLen := plan.payloadLen
  headerMac := zeroMac
  reserved0 := 0

def fillPerShardHashes (blake3 : Bytes → Bytes32) (plans : List ShardPlan)
    (globalHeader : GlobalPublicHeaderV1) : List ShardPlan :=
  plans.map fun plan =>
    { plan with publicHeaderHash := computePublicHeaderHash blake3 globalHeader plan.header }

def binPlan (k : Nat) (b : Bin) : ShardPlan :=
  ⟨UInt32.ofNat k, UInt64.ofNat b.first, UInt64.ofNat b.count, UInt64.ofNat b.load, zeroMac⟩

section Proofs
variable (l : ChunkLayout) (h : GlobalPublicHeaderV1)
    (final : h.finalPlaintextChunkLen = l.finalLen)

def fillOf (i : Nat) : ShardFill :=
  ⟨UInt64.ofNat i, UInt64.ofNat (l.packing i).current.count,
    UInt64.ofNat (l.packing i).current.load⟩

include final in
theorem thisPlainLen_eq (i : Nat) (hi : i < l.n) :
    thisPlainLen l.chunkCount l.chunkPlainSize.toUInt64 h (UInt64.ofNat i) =
      (l.len i).toUInt64 := by
  have small := l.n_lt
  have nonzero : l.chunkCount ≠ 0 := by
    intro zero
    have := l.chunkCount_toNat
    rw [zero, UInt64.toNat_zero] at this
    omega
  have last : UInt64.ofNat i = l.chunkCount - 1 ↔ i + 1 = l.n := by
    rw [← UInt64.toNat_inj, u64_sub_one_toNat nonzero, l.chunkCount_toNat,
      UInt64.toNat_ofNat_of_lt' (by simp only [UInt64.size]; omega)]
    omega
  unfold thisPlainLen ChunkLayout.len
  rw [final]
  by_cases hl : i + 1 = l.n
  · rw [if_pos (last.mpr hl), if_pos hl]
  · rw [if_neg (fun e => hl (last.mp e)), if_neg hl]

theorem overCapacity_iff (payload : UInt64) (i : Nat)
    (here : payload.toNat = (l.packing i).current.load) :
    payload > l.maxShardPayloadLen - UInt64.ofNat (l.frameSize i) ↔
      (l.packing i).Full l.maxShardPayloadLen.toNat (l.frameSize i) := by
  have size := l.frameSize_le i
  have small := l.maxShardPayloadLen.toNat_lt
  have frame : (UInt64.ofNat (l.frameSize i)).toNat = l.frameSize i :=
    UInt64.toNat_ofNat_of_lt' (by simp only [UInt64.size]; omega)
  rw [gt_iff_lt, UInt64.lt_iff_toNat_lt, UInt64.toNat_sub_of_le, frame, here]
  · unfold Packing.Full
    omega
  · rw [UInt64.le_iff_toNat_le, frame]
    exact size

theorem load_toNat (i : Nat) :
    (UInt64.ofNat (l.packing i).current.load).toNat = (l.packing i).current.load :=
  UInt64.toNat_ofNat_of_lt' ((l.load_le i).trans_lt l.maxShardPayloadLen.toNat_lt)

theorem chunkIdx_lt_iff (i : Nat) (hi : i ≤ l.n) : UInt64.ofNat i < l.chunkCount ↔ i < l.n := by
  have small := l.n_lt
  rw [UInt64.lt_iff_toNat_lt, l.chunkCount_toNat, UInt64.toNat_ofNat_of_lt' (by
    simp only [UInt64.size]; omega)]

theorem count_pos (i : Nat) (hi : i < l.n) :
    UInt64.ofNat (l.packing (i + 1)).current.count > 0 := by
  have pos := @packed_count_pos l.maxShardPayloadLen.toNat l.frameSize i
  have next := @packed_next l.maxShardPayloadLen.toNat l.frameSize (i + 1)
  have small := l.n_lt
  rw [gt_iff_lt, UInt64.lt_iff_toNat_lt, UInt64.toNat_zero, UInt64.toNat_ofNat_of_lt' (by
    simp only [UInt64.size, ChunkLayout.packing]; omega)]
  exact pos

theorem payload_add (load i : Nat) (fits : load + l.frameSize i ≤ l.maxShardPayloadLen.toNat) :
    checkedAddU64 (UInt64.ofNat load) (UInt64.ofNat (l.frameSize i)) "shard payload accumulation" =
      .ok (UInt64.ofNat (load + l.frameSize i)) := by
  have small := l.maxShardPayloadLen.toNat_lt
  rw [checkedAddU64_ok, UInt64.toNat_ofNat_of_lt' (by simp only [UInt64.size]; omega),
    UInt64.toNat_ofNat_of_lt' (by simp only [UInt64.size]; omega),
    UInt64.toNat_ofNat_of_lt' (by simp only [UInt64.size]; omega)]

def fill (fuel : Nat) (s : ShardFill) : Result ShardFill :=
  fillShard l.chunkCount l.chunkPlainSize.toUInt64 16 l.maxShardPayloadLen h fuel s

include final in
theorem fill_step (fuel i : Nat) (count load : Nat) (hi : i < l.n) :
    fill l h (fuel + 1) ⟨UInt64.ofNat i, UInt64.ofNat count, UInt64.ofNat load⟩ =
      if UInt64.ofNat count > 0 ∧
          UInt64.ofNat load > l.maxShardPayloadLen - UInt64.ofNat (l.frameSize i) then
        .ok ⟨UInt64.ofNat i, UInt64.ofNat count, UInt64.ofNat load⟩
      else
        checkedAddU64 (UInt64.ofNat load) (UInt64.ofNat (l.frameSize i))
            "shard payload accumulation" >>= fun payload =>
          fill l h fuel ⟨UInt64.ofNat (i + 1), UInt64.ofNat (count + 1), payload⟩ := by
  unfold fill
  have succ (a : Nat) : UInt64.ofNat (a + 1) = UInt64.ofNat a + 1 := UInt64.ofNat_add a 1
  rw [fillShard, if_pos ((chunkIdx_lt_iff l i hi.le).mpr hi), thisPlainLen_eq l h final i hi,
    l.encodedSize i, succ i, succ count]
  rfl

theorem fill_end (fuel : Nat) (s : ShardFill) (atEnd : s.chunkIdx = l.chunkCount) :
    fill l h fuel s = .ok s := by
  unfold fill
  cases fuel with
  | zero => rfl
  | succ fuel => rw [fillShard, if_neg (by rw [atEnd]; exact UInt64.lt_irrefl _)]

include final in
theorem fill_run (fuel i : Nat) (start : 1 ≤ i) (hi : i ≤ l.n) (enough : l.n - i ≤ fuel) :
    ∃ k, i ≤ k ∧ k ≤ l.n ∧ fill l h fuel (fillOf l i) = .ok (fillOf l k) ∧
      (l.packing k).closed = (l.packing i).closed ∧
      (l.packing k).current.first = (l.packing i).current.first ∧
      (k = l.n ∨ k < l.n ∧ (l.packing k).Full l.maxShardPayloadLen.toNat (l.frameSize k)) := by
  induction fuel generalizing i with
  | zero =>
    have last : i = l.n := by omega
    exact ⟨i, le_rfl, hi, rfl, rfl, rfl, .inl last⟩
  | succ fuel ih =>
    by_cases last : i = l.n
    · refine ⟨i, le_rfl, hi, ?_, rfl, rfl, .inl last⟩
      apply fill_end
      rw [last]
      rfl
    · have inside : i < l.n := by omega
      have load := load_toNat l i
      have count : UInt64.ofNat (l.packing i).current.count > 0 := by
        have := count_pos l (i - 1) (by omega)
        rwa [Nat.sub_add_cancel start] at this
      by_cases full : (l.packing i).Full l.maxShardPayloadLen.toNat (l.frameSize i)
      · refine ⟨i, le_rfl, hi, ?_, rfl, rfl, .inr ⟨inside, full⟩⟩
        unfold fillOf
        rw [fill_step l h final fuel i _ _ inside,
          if_pos ⟨count, (overCapacity_iff l _ i load).mpr full⟩]
      · have put : l.packing (i + 1) =
            ⟨(l.packing i).closed, (l.packing i).current.add (l.frameSize i)⟩ := packed_fits full
        have next : fill l h (fuel + 1) (fillOf l i) = fill l h fuel (fillOf l (i + 1)) := by
          unfold fillOf
          rw [fill_step l h final fuel i _ _ inside,
            if_neg (fun exceeds => full ((overCapacity_iff l _ i load).mp exceeds.2)),
            payload_add l _ i (Nat.le_of_not_lt full), put]
          rfl
        obtain ⟨k, later, inRange, ran, closed, first, stop⟩ :=
          ih (i + 1) (by omega) inside (by omega)
        refine ⟨k, by omega, inRange, by rw [next, ran], ?_, ?_, stop⟩
        · rw [closed, put]
        · rw [first, put]
          rfl

include final in
theorem planShardsLoop_run (fuel i : Nat) (closed : List Bin) (hi : i < l.n)
    (opens : l.packing (i + 1) = ⟨closed, ⟨i, 1, l.frameSize i⟩⟩) (enough : l.n - i ≤ fuel) :
    planShardsLoop l.chunkCount l.chunkPlainSize.toUInt64 16 l.maxShardPayloadLen h fuel
        (UInt64.ofNat i) (UInt64.ofNat closed.length) (closed.mapIdx binPlan) =
      .ok (l.bins.mapIdx binPlan) := by
  induction fuel generalizing i closed with
  | zero => omega
  | succ fuel ih =>
    have enters : fill l h l.chunkCount.toNat ⟨UInt64.ofNat i, 0, 0⟩ =
        fill l h (l.n - 1) (fillOf l (i + 1)) := by
      have rounds : l.chunkCount.toNat = l.n - 1 + 1 := by
        rw [l.chunkCount_toNat]
        omega
      have first := fill_step l h final (l.n - 1) i 0 0 hi
      rw [rounds, show (0 : UInt64) = UInt64.ofNat 0 from rfl, first,
        if_neg (fun exceeds => absurd exceeds.1 (by decide)),
        payload_add l 0 i (by rw [Nat.zero_add]; exact l.frameSize_le i), Nat.zero_add]
      unfold fillOf
      rw [opens]
      rfl
    obtain ⟨k, later, inRange, ran, same, first, stop⟩ :=
      fill_run l h final (l.n - 1) (i + 1) (by omega) hi (by omega)
    rw [opens] at same first
    have here : closed.mapIdx binPlan ++ [⟨(UInt64.ofNat closed.length).toUInt32, UInt64.ofNat i,
          (fillOf l k).chunkCount, (fillOf l k).payload, zeroMac⟩] =
        (l.packing k).bins.mapIdx binPlan := by
      rw [Packing.bins, same, List.mapIdx_concat, binPlan, first]
      simp only [UInt64.toUInt32_ofNat']
      rfl
    have loaded : fill l h l.chunkCount.toNat ⟨UInt64.ofNat i, 0, 0⟩ = .ok (fillOf l k) := by
      rw [enters, ran]
    unfold fill at loaded
    rw [planShardsLoop, if_pos ((chunkIdx_lt_iff l i hi.le).mpr hi), loaded]
    simp only [bind, Except.bind]
    rw [here]
    have length : UInt64.ofNat closed.length + 1 = UInt64.ofNat (l.packing k).bins.length := by
      rw [Packing.bins, same, List.length_append, List.length_singleton, UInt64.ofNat_add]
      rfl
    rw [length]
    rcases stop with stop | ⟨inside, full⟩
    · rw [stop]
      have idle : ¬(fillOf l l.n).chunkIdx < l.chunkCount := UInt64.lt_irrefl _
      cases fuel with
      | zero => rfl
      | succ fuel =>
        rw [planShardsLoop, if_neg idle]
        rfl
    · have next := @packed_next l.maxShardPayloadLen.toNat l.frameSize k
      apply ih k (l.packing k).bins inside
      · unfold ChunkLayout.packing
        rw [packed_full full, next]
      · omega

include final in
/-- `plan_shards` returns the next-fit packing of the frames. -/
theorem planShards_eq :
    planShards l.chunkCount l.chunkPlainSize.toUInt64 16 l.maxShardPayloadLen h =
      .ok (l.bins.mapIdx binPlan) := by
  have fits := l.frameFits
  have small := l.maxShardPayloadLen.toNat_lt
  have largest : chunkFrameV1EncodedSizeFromParams l.chunkPlainSize.toUInt64 16 =
      .ok (UInt64.ofNat (40 + (l.chunkPlainSize.toNat + 16))) := by
    rw [chunkFrameV1EncodedSizeFromParams_ok, UInt32.toNat_toUInt64]
    exact UInt64.toNat_ofNat_of_lt' (by simp only [UInt64.size]; omega)
  have within : ¬UInt64.ofNat (40 + (l.chunkPlainSize.toNat + 16)) > l.maxShardPayloadLen := by
    rw [gt_iff_lt, UInt64.lt_iff_toNat_lt, UInt64.toNat_ofNat_of_lt' (by
      simp only [UInt64.size]; omega)]
    omega
  unfold planShards
  rw [largest]
  simp only [bind, Except.bind]
  rw [if_neg within]
  apply planShardsLoop_run l h final l.chunkCount.toNat 0 [] l.chunks
  · exact packed_one (l.frameSize_le 0)
  · rw [l.chunkCount_toNat]
    omega

end Proofs
end Bseal.App
