import Bseal.Io.StdoutShardWriter

/-! `io/AnyShardWriter`: what the two shard writers offer a pipeline, a planner that the
producer runs and the operations of the writing thread. -/
namespace Bseal.Io

structure AnyShardWriter (ρ ω : Type) where
  planChunkFrame : (chunkIndex plaintextLen ciphertextLen : UInt64) → (tagLen : UInt16) →
    (finalChunk : Bool) → ρ → Result (PlannedChunkFrame × ρ)
  writeChunkFrame : ChunkFrameHeaderV1 → Bytes → Bytes → Effect Failure ω ShardWritePosition
  finish : Effect Failure ω Unit
  planner : ρ

def fileWriter (sys : Platform.System) (hmacSha256 : Bytes → Bytes → Bytes32)
    (options : ShardWriterOptions) : AnyShardWriter ShardPlanner ShardWriter where
  planChunkFrame := planChunkFrame options false
  writeChunkFrame := writeChunkFrame sys hmacSha256
  finish := finish sys hmacSha256
  planner := .fresh

def stdoutWriter (faults : Nat → Bool) (hmacSha256 : Bytes → Bytes → Bytes32)
    (options : StdoutShardWriterOptions) : AnyShardWriter StdoutPlanner StdoutState where
  planChunkFrame := planStdoutChunkFrame options false
  writeChunkFrame := writeStdoutChunkFrame
  finish := finishStdout faults hmacSha256
  planner := .fresh

end Bseal.Io
