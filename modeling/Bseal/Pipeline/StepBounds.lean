import Bseal.Lib.OrderedTermination
import Bseal.Pipeline.DecryptDelivery

/-! How long the runs of the two pipelines can get: in the number of records and of full chunks,
whatever the order of the steps and whatever is thrown. -/
namespace Bseal.Pipeline
open Crypto Io OrderedPipeline

namespace Encrypt
variable {ρ ω : Type} {writer : AnyShardWriter ρ ω} {tagSize : UInt16}

def Chunker.occupied (chunkSize : Nat) (c : Chunker ρ) : Nat :=
  c.currentChunk.length + if c.pendingFullChunk.isSome then chunkSize else 0

/-- What the script from here on may weigh, with so many bytes still to come. -/
def Bounded (chunkSize more rest : Nat) (next : Chunker ρ → Producer) : Prop :=
  ∀ c, (next c).weight ≤ 9 * ((c.occupied chunkSize + more) / chunkSize) + rest

theorem enqueuePlannedChunk_weight (bytes : Bytes) (finalChunk : Bool) (c : Chunker ρ)
    {accepted refused : Chunker ρ → Producer} {bound : Nat}
    (light : ∀ c' : Chunker ρ, c'.currentChunk = c.currentChunk →
      c'.pendingFullChunk = c.pendingFullChunk →
      (accepted c').weight ≤ bound ∧ (refused c').weight ≤ bound) :
    (enqueuePlannedChunk writer tagSize bytes finalChunk c accepted refused).weight ≤
    bound + 9 := by
  simp only [enqueuePlannedChunk]
  split
  · exact Nat.zero_le _
  · obtain ⟨first, second⟩ := light { c with
      nextChunkIndex := c.nextChunkIndex + 1
      planner := _ } rfl rfl
    exact Nat.add_le_add_right (max_le first second) 9

theorem flushPendingAsNonFinal_weight (c : Chunker ρ) {next : Chunker ρ → Producer} {bound : Nat}
    (light : ∀ c' : Chunker ρ, c'.currentChunk = c.currentChunk → c'.pendingFullChunk = none →
      (next c').weight ≤ bound) :
    (flushPendingAsNonFinal writer tagSize c next).weight ≤
      bound + if c.pendingFullChunk.isSome then 9 else 0 := by
  simp only [flushPendingAsNonFinal]
  cases pending : c.pendingFullChunk with
  | none => exact light c rfl pending
  | some bytes =>
    exact enqueuePlannedChunk_weight bytes false { c with pendingFullChunk := none }
      fun c' current none => ⟨light c' current none, Nat.zero_le _⟩

theorem appendRecordBytesToChunks_weight {chunkSize : Nat} (pos : 0 < chunkSize) (rounds : Nat)
    (record : Bytes) {next : Chunker ρ → Producer} {more rest : Nat}
    (light : Bounded chunkSize more rest next) :
    Bounded chunkSize (record.length + more) rest fun c =>
      appendRecordBytesToChunks writer tagSize chunkSize rounds record c next := by
  have later : ∀ (record : Bytes) (c : Chunker ρ), (next c).weight ≤
      9 * ((c.occupied chunkSize + (record.length + more)) / chunkSize) + rest := fun record c =>
    (light c).trans (Nat.add_le_add_right (Nat.mul_le_mul_left 9 (Nat.div_le_div_right (by omega)))
      rest)
  induction rounds generalizing record with
  | zero => exact later record
  | succ rounds ih =>
    intro c
    simp only [appendRecordBytesToChunks]
    split
    · exact later record c
    · generalize takes : min record.length (chunkSize - c.currentChunk.length) = toCopy
      have within : toCopy ≤ record.length := by omega
      have left : (record.drop toCopy).length = record.length - toCopy := List.length_drop
      have copied : (c.currentChunk ++ record.take toCopy).length =
          c.currentChunk.length + toCopy := by
        rw [List.length_append, List.length_take]
        omega
      split
      · -- the chunk is full: what was held is pushed, and the chunk is held in its place
        rename_i full
        refine (show _ ≤ 9 * ((chunkSize + (record.length - toCopy + more)) / chunkSize) + rest + _
          from flushPendingAsNonFinal_weight _ fun c' current none => ?_).trans ?_
        · have rest := ih (record.drop toCopy)
            { c' with pendingFullChunk := some c'.currentChunk, currentChunk := [] }
          rw [left] at rest
          exact rest.trans_eq (by rw [Chunker.occupied]; simp)
        · rw [copied] at full
          rw [Chunker.occupied]
          change _ + (if c.pendingFullChunk.isSome then 9 else 0) ≤ _
          split
          · have same : c.currentChunk.length + chunkSize + (record.length + more) =
                chunkSize + (record.length - toCopy + more) + chunkSize := by omega
            rw [same, Nat.add_div_right _ pos]
            omega
          · have same : c.currentChunk.length + 0 + (record.length + more) =
                chunkSize + (record.length - toCopy + more) := by omega
            rw [same]
            exact (Nat.add_zero _).le
      · refine (ih (record.drop toCopy)
          { c with currentChunk := c.currentChunk ++ record.take toCopy }).trans_eq ?_
        rw [Chunker.occupied, Chunker.occupied, copied, left]
        change 9 * ((c.currentChunk.length + toCopy +
          (if c.pendingFullChunk.isSome then chunkSize else 0) + _) / _) + _ = _
        congr 3
        omega

variable {options : EncryptPipelineOptions} {stream : RecordStream}

theorem checkProduced_weight : (checkProduced options stream).weight = 0 := by
  unfold checkProduced
  split <;> rfl

theorem enqueueFinalChunk_weight {chunkSize : Nat} (pos : 0 < chunkSize) :
    Bounded chunkSize 0 9 (enqueueFinalChunk writer tagSize options stream) := by
  intro c
  have last : ∀ bytes (c : Chunker ρ), (enqueuePlannedChunk writer tagSize bytes true c
      (fun _ => checkProduced options stream) fun _ => checkProduced options stream).weight ≤ 9 :=
    fun bytes c => (enqueuePlannedChunk_weight bytes true c fun _ _ _ =>
      ⟨checkProduced_weight.le, checkProduced_weight.le⟩).trans_eq (Nat.zero_add 9)
  simp only [enqueueFinalChunk]
  split
  · refine (flushPendingAsNonFinal_weight c fun c' _ _ => last c'.currentChunk c').trans ?_
    rw [Chunker.occupied]
    split
    · rw [Nat.add_zero (c.currentChunk.length + chunkSize), Nat.add_div_right _ pos]
      generalize c.currentChunk.length / chunkSize = full
      omega
    · omega
  · split
    · exact (last _ c).trans (Nat.le_add_left _ _)
    · split
      · exact (last [] c).trans (Nat.le_add_left _ _)
      · rw [checkProduced_weight]
        exact Nat.zero_le _

theorem afterRecords_weight {chunkSize : Nat} (pos : 0 < chunkSize) :
    Bounded chunkSize 0 10 (afterRecords writer tagSize options stream) := by
  intro c
  have last := @enqueueFinalChunk_weight ρ ω writer tagSize options stream chunkSize pos c
  change max (enqueueFinalChunk writer tagSize options stream c).weight 0 + 1 ≤ _
  omega

theorem recordLoop_weight {chunkSize : Nat} (pos : 0 < chunkSize) (records : List Bytes) :
    Bounded chunkSize records.flatten.length (records.length + 11)
      (recordLoop writer tagSize options stream chunkSize records) := by
  have after : Bounded chunkSize 0 10 (afterRecords writer tagSize options stream) :=
    afterRecords_weight pos
  induction records with
  | nil =>
    intro c
    have last := after c
    simp only [recordLoop, Script.weight]
    change _ ≤ 9 * ((c.occupied chunkSize + 0) / chunkSize) + (0 + 11)
    split
    · exact Nat.add_le_add_right (max_le (Nat.zero_le _) last) 1
    · exact Nat.add_le_add_right (max_le last last) 1
  | cons record records ih =>
    intro c
    have last := after c
    have copied : (appendRecordBytesToChunks writer tagSize chunkSize record.length record c
        (recordLoop writer tagSize options stream chunkSize records)).weight ≤ _ :=
      appendRecordBytesToChunks_weight pos record.length record ih c
    have more : 9 * ((c.occupied chunkSize + 0) / chunkSize) ≤
        9 * ((c.occupied chunkSize + (record.length + records.flatten.length)) / chunkSize) :=
      Nat.mul_le_mul_left 9 (Nat.div_le_div_right (by omega))
    simp only [recordLoop, Script.weight, List.flatten_cons, List.length_append, List.length_cons]
    omega

/-- The producer pushes about one chunk for each full one, and checks once a record. -/
theorem producerMain_weight :
    (producerMain writer options tagSize stream).weight ≤
      9 * (stream.records.flatten.length / options.chunkPlainSize.toNat) +
        (stream.records.length + 11) := by
  unfold producerMain checkedChunkSize
  by_cases zero : options.chunkPlainSize = 0
  · rw [if_pos zero]
    exact Nat.zero_le _
  · rw [if_neg zero]
    have pos : 0 < options.chunkPlainSize.toNat :=
      Nat.pos_of_ne_zero fun same => zero (UInt64.toNat_inj.mp same)
    have loop : (recordLoop writer tagSize options stream options.chunkPlainSize.toNat
        stream.records ⟨[], none, 0, writer.planner⟩).weight ≤
          9 * ((0 + 0 + stream.records.flatten.length) / options.chunkPlainSize.toNat) + _ :=
      recordLoop_weight pos stream.records ⟨[], none, 0, writer.planner⟩
    rwa [Nat.add_zero, Nat.zero_add] at loop

end Encrypt

theorem Decrypt.readerMain_weight (ending : Option Failure) (records : List ChunkRecord) :
    (Decrypt.readerMain ending records).weight = 10 * records.length + 1 := by
  induction records with
  | nil => cases ending <;> rfl
  | cons record records ih =>
    change max (max (Decrypt.readerMain ending records).weight 0 + 9) 0 + 1 = _
    rw [ih, List.length_cons]
    omega

/-- No run goes on for ever: its steps are bounded by the records, the full chunks and the workers,
however the threads take turns and whatever any of them throws. -/
theorem runs_bounded {ρ ω σ : Type} (e : EncryptPipeline ρ ω) (d : DecryptPipeline σ)
    (tagSize : UInt16) (workers capacity : Nat) (workersPos : 0 < workers)
    (capacityPos : 0 < capacity) :
    (∀ (start : ω) (s : State (e.threads tagSize workers capacity workersPos capacityPos)) actions,
      runActions (init _ start) actions = some s →
      actions.length ≤ 9 * (e.stream.records.flatten.length / e.options.chunkPlainSize.toNat) +
        e.stream.records.length + 5 * workers + 24) ∧
    ∀ (start : Decrypt.Consumer σ) (s : State (d.threads workers capacity workersPos capacityPos))
      actions, runActions (init _ start) actions = some s →
      actions.length ≤ 10 * d.stream.records.length + 5 * workers + 14 := by
  constructor
  · intro start s actions ran
    have spent := runActions_length ran
    have weight : (Encrypt.producerMain e.shardWriter e.options tagSize e.stream).weight ≤ _ :=
      Encrypt.producerMain_weight
    change actions.length ≤ (Encrypt.producerMain e.shardWriter e.options tagSize e.stream).weight +
      5 * workers + 13 at spent
    omega
  · intro start s actions ran
    have spent := runActions_length ran
    change actions.length ≤ (Decrypt.readerMain d.stream.ending d.stream.records).weight +
      5 * workers + 13 at spent
    rw [Decrypt.readerMain_weight] at spent
    omega

theorem runs_bounded_fiveBytes :
    (∃ s, runActions (init (fiveBytesThreads 5) fiveBytesStart) oneAfterTheOther = some s ∧
      oneAfterTheOther.length ≤ 30) ∧
    ∃ s, runActions (init fiveBytesDecryptThreads ⟨[], 0⟩) untilFinish = some s ∧
      untilFinish.length ≤ 29 := by
  obtain ⟨encrypt, decrypt⟩ := runs_bounded (fiveBytesPipeline 5) fiveBytesDecryption 16 1 1
    Nat.one_pos Nat.one_pos
  have first : (runActions (init (fiveBytesThreads 5) fiveBytesStart) oneAfterTheOther).isSome :=
    by decide +kernel
  have second : (runActions (init fiveBytesDecryptThreads ⟨[], 0⟩) untilFinish).isSome := by
    decide +kernel
  obtain ⟨s, ran⟩ := Option.isSome_iff_exists.mp first
  obtain ⟨t, ran'⟩ := Option.isSome_iff_exists.mp second
  exact ⟨⟨s, ran, encrypt fiveBytesStart s _ ran⟩, t, ran', decrypt ⟨[], 0⟩ t _ ran'⟩

end Bseal.Pipeline
