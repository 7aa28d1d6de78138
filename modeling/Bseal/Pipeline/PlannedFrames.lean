import Bseal.App.LayoutAgreement
import Bseal.Pipeline.ChunkAssembly

/-! The frames that the producer of the encrypt pipeline plans: with the file writer's planner they
are those of the layout, in order. -/
namespace Bseal.Pipeline
open App Crypto Io OrderedPipeline

namespace Encrypt

section Planned
variable {ρ ω : Type} (writer : AnyShardWriter ρ ω) (tagSize : UInt16)

inductive Planned : ρ → List PlainChunk → Prop where
  | nil (p : ρ) : Planned p []
  | cons {p q : ρ} {planned : PlannedChunkFrame} {finalChunk : Bool} {chunk : PlainChunk}
      {chunks : List PlainChunk}
      (plan : writer.planChunkFrame (UInt64.ofNat chunk.index) (UInt64.ofNat chunk.bytes.length)
        (UInt64.ofNat chunk.bytes.length) tagSize finalChunk p = .ok (planned, q))
      (header : chunk.frameHeader = planned.header)
      (headerBytes : chunk.frameHeaderBytes = planned.headerBytes)
      (rest : Planned q chunks) : Planned p (chunk :: chunks)

def PlansOn (next : Chunker ρ → Producer) : Prop :=
  ∀ c, Planned writer tagSize c.planner (next c).items

variable {writer tagSize}

theorem enqueuePlannedChunk_planned (bytes : Bytes) (finalChunk : Bool)
    {accepted refused : Chunker ρ → Producer} (rest : PlansOn writer tagSize accepted) :
    PlansOn writer tagSize
      fun c => enqueuePlannedChunk writer tagSize bytes finalChunk c accepted refused := by
  intro c
  simp only [enqueuePlannedChunk]
  split
  case h_1 => exact .nil _
  case h_2 planned planner plan =>
    exact .cons plan rfl rfl
      (rest ⟨c.currentChunk, c.pendingFullChunk, c.nextChunkIndex + 1, planner⟩)

theorem flushPendingAsNonFinal_planned {next : Chunker ρ → Producer}
    (rest : PlansOn writer tagSize next) :
    PlansOn writer tagSize fun c => flushPendingAsNonFinal writer tagSize c next := by
  intro c
  simp only [flushPendingAsNonFinal]
  split
  · exact rest c
  · exact enqueuePlannedChunk_planned _ _ rest { c with pendingFullChunk := none }

theorem appendRecordBytesToChunks_planned (chunkSize rounds : Nat) (record : Bytes)
    {next : Chunker ρ → Producer} (rest : PlansOn writer tagSize next) :
    PlansOn writer tagSize
      fun c => appendRecordBytesToChunks writer tagSize chunkSize rounds record c next := by
  induction rounds generalizing record with
  | zero => exact rest
  | succ rounds ih =>
    intro c
    simp only [appendRecordBytesToChunks]
    split
    · exact rest c
    · split
      · have more : PlansOn writer tagSize fun c' : Chunker ρ =>
            appendRecordBytesToChunks writer tagSize chunkSize rounds
              (record.drop (min record.length (chunkSize - c.currentChunk.length)))
              { c' with pendingFullChunk := some c'.currentChunk, currentChunk := [] } next :=
          fun c' => ih _ { c' with pendingFullChunk := some c'.currentChunk, currentChunk := [] }
        exact flushPendingAsNonFinal_planned more { c with
          currentChunk := c.currentChunk ++
            record.take (min record.length (chunkSize - c.currentChunk.length)) }
      · exact ih _ { c with
          currentChunk := c.currentChunk ++
            record.take (min record.length (chunkSize - c.currentChunk.length)) }

variable {options : EncryptPipelineOptions} {stream : RecordStream}

theorem plansOn_checkProduced :
    PlansOn writer tagSize fun _ => checkProduced options stream := by
  intro c
  rw [checkProduced_items]
  exact .nil _

theorem enqueueFinalChunk_planned :
    PlansOn writer tagSize (enqueueFinalChunk writer tagSize options stream) := by
  intro c
  have last : ∀ bytes, PlansOn writer tagSize fun c => enqueuePlannedChunk writer tagSize bytes true
      c (fun _ => checkProduced options stream) fun _ => checkProduced options stream :=
      fun bytes =>
    enqueuePlannedChunk_planned bytes true plansOn_checkProduced
  simp only [enqueueFinalChunk]
  split
  · exact flushPendingAsNonFinal_planned (fun c => last c.currentChunk c) c
  · split
    · exact last _ c
    · split
      · exact last [] c
      · exact plansOn_checkProduced c

theorem recordLoop_planned (chunkSize : Nat) (records : List Bytes) :
    PlansOn writer tagSize (recordLoop writer tagSize options stream chunkSize records) := by
  induction records with
  | nil =>
    intro c
    simp only [recordLoop, Script.items]
    split
    · exact .nil _
    · exact enqueueFinalChunk_planned c
  | cons record records ih =>
    exact fun c => appendRecordBytesToChunks_planned chunkSize _ record ih c

theorem producerMain_planned :
    Planned writer tagSize writer.planner (producerMain writer options tagSize stream).items := by
  unfold producerMain
  split
  · exact .nil _
  · exact recordLoop_planned _ _ ⟨[], none, 0, writer.planner⟩

end Planned

section Layout
variable {l : ChunkLayout} {o : ShardWriterOptions} {sys : Platform.System}
  {hmacSha256 : Bytes → Bytes → Bytes32}

structure PlainChunk.Of (l : ChunkLayout) (i : Nat) (chunk : PlainChunk) : Prop where
  index : chunk.index = i
  frameHeader : chunk.frameHeader = l.frameHeader i
  frameHeaderBytes : chunk.frameHeaderBytes = encodeChunkFrameHeaderV1 (l.frameHeader i)
  length : chunk.bytes.length = (l.len i).toNat

theorem planned_of_layout (announces : Announces l o.globalHeader)
    (limit : o.maxShardPayloadLen = l.maxShardPayloadLen) {i : Nat} {chunks : List PlainChunk}
    (planned : Planned (fileWriter sys hmacSha256 o) 16 (plannerAt l i) chunks)
    (stop : i + chunks.length ≤ l.n)
    (shapes : ∀ k (inside : k < chunks.length), chunks[k].index = i + k ∧
      chunks[k].bytes.length = (l.len (i + k)).toNat ∧ (chunks[k].final ↔ i + k + 1 = l.n)) :
    ∀ k (inside : k < chunks.length), PlainChunk.Of l (i + k) chunks[k] := by
  generalize start : plannerAt l i = p at planned
  induction planned generalizing i with
  | nil => exact fun k inside => absurd inside (Nat.not_lt_zero k)
  | @cons p q frame finalChunk chunk chunks plan header headerBytes rest ih =>
    subst start
    rw [List.length_cons] at stop
    obtain ⟨index, length, final⟩ := shapes 0 (Nat.succ_pos _)
    simp only [List.getElem_cons_zero, Nat.add_zero] at index length final
    have flag := (plansChunks_fileWriter sys hmacSha256 o plan).2.2
    have last : finalChunk = decide (i + 1 = l.n) := by
      rw [Bool.eq_iff_iff, ← flag, ← header, decide_eq_true_iff]
      exact final
    have len : UInt64.ofNat chunk.bytes.length = (l.len i).toUInt64 := by
      rw [length, ← UInt32.toNat_toUInt64, UInt64.ofNat_toNat]
    have known := planChunkFrame_frame announces limit i
    change planChunkFrame o false (UInt64.ofNat chunk.index) (UInt64.ofNat chunk.bytes.length)
      (UInt64.ofNat chunk.bytes.length) 16 finalChunk (plannerAt l i) = .ok (frame, q) at plan
    rw [index, len, last, known] at plan
    obtain ⟨rfl, rfl⟩ := Prod.mk.inj (Except.ok.inj plan)
    intro k inside
    cases k with
    | zero => exact ⟨index, header, headerBytes, length⟩
    | succ k =>
      rw [List.length_cons] at inside
      have later := ih (i := i + 1) (by omega) (fun k inside => ?_) rfl k (by omega)
      · rwa [Nat.add_right_comm, Nat.add_assoc] at later
      · have shape := shapes (k + 1) (by rw [List.length_cons]; omega)
        rwa [List.getElem_cons_succ, ← Nat.add_assoc, Nat.add_right_comm] at shape

/-- A producer that has as many bytes as the layout holds pushes the layout's chunks, and the
bytes of the records in them. -/
theorem producerMain_layout {options : EncryptPipelineOptions} {stream : RecordStream}
    (announces : Announces l o.globalHeader) (limit : o.maxShardPayloadLen = l.maxShardPayloadLen)
    (chunkSize : options.chunkPlainSize = l.chunkPlainSize.toUInt64)
    (size : stream.records.flatten.length = (l.n - 1) * l.chunkPlainSize.toNat + l.finalLen.toNat)
    (ok : (producerMain (fileWriter sys hmacSha256 o) options 16 stream).ending = none) :
    ((producerMain (fileWriter sys hmacSha256 o) options 16 stream).items.map
        PlainChunk.bytes).flatten = stream.records.flatten ∧
      (producerMain (fileWriter sys hmacSha256 o) options 16 stream).items.length = l.n ∧
      ∀ k (inside : k < (producerMain (fileWriter sys hmacSha256 o) options 16
        stream).items.length),
      PlainChunk.Of l k (producerMain (fileWriter sys hmacSha256 o) options 16
        stream).items[k] := by
  have planned : Planned (fileWriter sys hmacSha256 o) 16 (plannerAt l 0)
      (producerMain (fileWriter sys hmacSha256 o) options 16 stream).items := producerMain_planned
  obtain ⟨-, cut⟩ := producerMain_cuts (plansChunks_fileWriter sys hmacSha256 o) ok
  generalize (producerMain (fileWriter sys hmacSha256 o) options 16 stream).items = chunks at *
  have chunks' := l.chunks
  have final := l.finalPos
  have some : stream.records.flatten ≠ [] := List.ne_nil_of_length_pos (by omega)
  rw [CutOrEmpty, if_neg some, chunkSize, UInt32.toNat_toUInt64] at cut
  obtain ⟨front, last, rfl, full, flagged, atLeast, atMost, length⟩ := cut.split
  have count : front.length + 1 = l.n ∧ last.bytes.length = l.finalLen.toNat := by
    obtain ⟨here, rest⟩ := counts_of_split front.length atLeast atMost
    obtain ⟨there, rest'⟩ := counts_of_split (l.n - 1) l.finalPos l.finalLe
    rw [← length, size] at here rest
    exact ⟨by omega, by omega⟩
  have number : (front ++ [last]).length = l.n := by
    rw [List.length_append, List.length_singleton]
    exact count.1
  refine ⟨cut.concatenation, number, fun k inside => ?_⟩
  have of := planned_of_layout announces limit planned (by omega) (fun k inside => ?_) k inside
  · rwa [Nat.zero_add] at of
  · have announced := cut.numbered k _ (List.getElem?_eq_getElem inside)
    refine ⟨announced.index, ?_, ?_⟩
    · rw [Nat.zero_add, ChunkLayout.len]
      by_cases ends : k < front.length
      · rw [List.getElem_append_left ends, if_neg (by omega)]
        exact (full _ (List.getElem_mem ends)).1
      · rw [number] at inside
        rw [List.getElem_append_right (by omega), if_pos (by omega)]
        simp only [List.getElem_singleton]
        exact count.2
    · rw [Nat.zero_add]
      by_cases ends : k < front.length
      · rw [List.getElem_append_left ends]
        exact iff_of_false (full _ (List.getElem_mem ends)).2 (by omega)
      · rw [number] at inside
        rw [List.getElem_append_right (by omega)]
        simp only [List.getElem_singleton]
        exact iff_of_true flagged (by omega)

end Layout
end Encrypt
end Bseal.Pipeline
