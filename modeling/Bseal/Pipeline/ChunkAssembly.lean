import Bseal.App.EncryptHeader
import Bseal.Io.TornWrite
import Bseal.Pipeline.EncryptDelivery

/-! The producer of the encrypt pipeline cuts the bytes of the records into chunks: all full but
the last, which is not empty and is the only one flagged, and as many as were planned. -/
namespace Bseal.Pipeline
open Crypto Io OrderedPipeline

namespace Encrypt

def PlainChunk.final (chunk : PlainChunk) : Prop :=
  chunk.frameHeader.frameFlags &&& kChunkFrameFlagFinalChunk ≠ 0

structure PlainChunk.Announced (chunk : PlainChunk) (i : Nat) : Prop where
  index : chunk.index = i
  globalChunkIndex : chunk.frameHeader.globalChunkIndex = UInt64.ofNat i
  plaintextLen : chunk.frameHeader.plaintextLen.toNat = chunk.bytes.length

/-- `data` cut into chunks of `c` bytes, numbered from `i` on; the last one may be shorter. -/
inductive Cut (c : Nat) : Nat → Bytes → List PlainChunk → Prop where
  | last {i : Nat} {chunk : PlainChunk} (announced : chunk.Announced i) (flagged : chunk.final)
      (some : 1 ≤ chunk.bytes.length) (short : chunk.bytes.length ≤ c) :
      Cut c i chunk.bytes [chunk]
  | more {i : Nat} {chunk : PlainChunk} {data : Bytes} {chunks : List PlainChunk}
      (announced : chunk.Announced i) (unflagged : ¬chunk.final) (full : chunk.bytes.length = c)
      (rest : Cut c (i + 1) data chunks) : Cut c i (chunk.bytes ++ data) (chunk :: chunks)

structure EmptyCut (emit : Bool) (i : Nat) (chunks : List PlainChunk) : Prop where
  silent : emit = false → chunks = []
  single : emit = true → ∃ chunk, chunks = [chunk] ∧ chunk.Announced i ∧ chunk.final ∧
    chunk.bytes = []

def CutOrEmpty (c : Nat) (emit : Bool) (i : Nat) (data : Bytes) (chunks : List PlainChunk) : Prop :=
  if data = [] then EmptyCut emit i chunks else Cut c i data chunks

/-- Both shard writers plan a frame with the index, the length and the flag they are given. -/
def PlansChunks {ρ ω : Type} (writer : AnyShardWriter ρ ω) : Prop :=
  ∀ {chunkIndex plaintextLen ciphertextLen tagLen finalChunk p planned q},
    writer.planChunkFrame chunkIndex plaintextLen ciphertextLen tagLen finalChunk p =
      .ok (planned, q) →
    planned.header.globalChunkIndex = chunkIndex ∧
      planned.header.plaintextLen.toNat = plaintextLen.toNat ∧
      (planned.header.frameFlags &&& kChunkFrameFlagFinalChunk ≠ 0 ↔ finalChunk = true)

theorem plansChunks_fileWriter (sys : Platform.System) (hmacSha256 : Bytes → Bytes → Bytes32)
    (options : ShardWriterOptions) : PlansChunks (fileWriter sys hmacSha256 options) := by
  intro chunkIndex plaintextLen ciphertextLen tagLen finalChunk p planned q ok
  change planChunkFrame options false chunkIndex plaintextLen ciphertextLen tagLen finalChunk p =
    .ok (planned, q) at ok
  obtain ⟨index, flag⟩ := planChunkFrame_header ok
  refine ⟨index, ?_, flag⟩
  unfold planChunkFrame at ok
  simp only [Result.guard_eq_ok, Result.bind_eq_ok] at ok
  obtain ⟨-, -, -, short, size, -, -, bytes, -, result⟩ := ok
  cases result
  exact u64_toUInt32_toNat short

theorem plansChunks_stdoutWriter (faults : Nat → Bool) (hmacSha256 : Bytes → Bytes → Bytes32)
    (options : StdoutShardWriterOptions) :
    PlansChunks (stdoutWriter faults hmacSha256 options) := by
  intro chunkIndex plaintextLen ciphertextLen tagLen finalChunk p planned q ok
  change planStdoutChunkFrame options false chunkIndex plaintextLen ciphertextLen tagLen finalChunk
    p = .ok (planned, q) at ok
  unfold planStdoutChunkFrame at ok
  simp only [Result.guard_eq_ok, Result.bind_eq_ok] at ok
  obtain ⟨-, -, -, short, size, -, bytes, -, result⟩ := ok
  cases result
  exact ⟨rfl, u64_toUInt32_toNat short, flag_iff finalChunk⟩

section Producer
variable {ρ ω : Type} {writer : AnyShardWriter ρ ω} (plans : PlansChunks writer)
  {tagSize : UInt16} {c : Nat} {emit : Bool}

def Chunker.held (ch : Chunker ρ) : Bytes := ch.pendingFullChunk.getD [] ++ ch.currentChunk

structure Chunker.Ready (c : Nat) (ch : Chunker ρ) : Prop where
  pending : ∀ bytes ∈ ch.pendingFullChunk, bytes.length = c
  current : ch.currentChunk.length < c

/-- What comes next cuts the bytes held back and those of `todo`. -/
def Cuts (c : Nat) (emit : Bool) (next : Chunker ρ → Producer) (todo : Bytes) : Prop :=
  ∀ ch, ch.Ready c → (next ch).ending = none →
    CutOrEmpty c emit ch.nextChunkIndex (ch.held ++ todo) (next ch).items

include plans in
theorem enqueuePlannedChunk_items {bytes : Bytes} {finalChunk : Bool} {ch : Chunker ρ}
    {accepted refused : Chunker ρ → Producer} (small : bytes.length < 2 ^ 64)
    (ok : (enqueuePlannedChunk writer tagSize bytes finalChunk ch accepted refused).ending =
      none) :
    ∃ chunk planner, chunk.Announced ch.nextChunkIndex ∧ (chunk.final ↔ finalChunk = true) ∧
      chunk.bytes = bytes ∧
      (accepted ⟨ch.currentChunk, ch.pendingFullChunk, ch.nextChunkIndex + 1, planner⟩).ending =
        none ∧
      (enqueuePlannedChunk writer tagSize bytes finalChunk ch accepted refused).items = chunk ::
        (accepted
          ⟨ch.currentChunk, ch.pendingFullChunk, ch.nextChunkIndex + 1, planner⟩).items := by
  unfold enqueuePlannedChunk at ok ⊢
  cases planned : writer.planChunkFrame (UInt64.ofNat ch.nextChunkIndex)
    (UInt64.ofNat bytes.length) (UInt64.ofNat bytes.length) tagSize finalChunk ch.planner with
  | error e =>
    simp only [planned] at ok
    cases ok
  | ok frame =>
    obtain ⟨index, len, flag⟩ := plans planned
    simp only [planned] at ok ⊢
    rw [UInt64.toNat_ofNat_of_lt' small] at len
    exact ⟨⟨_, _, _, _⟩, _, ⟨rfl, index, len⟩, flag, rfl, ok, rfl⟩

include plans in
theorem flushPendingAsNonFinal_cuts (ch : Chunker ρ) {next : Chunker ρ → Producer} (todo : Bytes)
    (small : c < 2 ^ 64) (full : ∀ bytes ∈ ch.pendingFullChunk, bytes.length = c)
    (current : ch.currentChunk ≠ [])
    (cuts : ∀ n planner, (next ⟨ch.currentChunk, none, n, planner⟩).ending = none →
      CutOrEmpty c emit n (ch.currentChunk ++ todo)
        (next ⟨ch.currentChunk, none, n, planner⟩).items)
    (ok : (flushPendingAsNonFinal writer tagSize ch next).ending = none) :
    CutOrEmpty c emit ch.nextChunkIndex (ch.held ++ todo)
      (flushPendingAsNonFinal writer tagSize ch next).items := by
  obtain ⟨currentChunk, pending, n, planner⟩ := ch
  unfold flushPendingAsNonFinal at ok ⊢
  cases pending with
  | none => exact cuts n planner ok
  | some bytes =>
    have length := full bytes rfl
    obtain ⟨chunk, planner', announced, flag, same, rest, items⟩ :=
      enqueuePlannedChunk_items plans (by omega) ok
    have later := cuts _ _ rest
    have data : currentChunk ++ todo ≠ [] := List.append_ne_nil_of_left_ne_nil current _
    have held : (Chunker.held ⟨currentChunk, some bytes, n, planner⟩) ++ todo =
        chunk.bytes ++ (currentChunk ++ todo) := by
      rw [same]
      exact List.append_assoc ..
    unfold CutOrEmpty at later ⊢
    rw [if_neg data] at later
    rw [held, if_neg (List.append_ne_nil_of_right_ne_nil _ data), items]
    exact .more announced (flag.not.mpr Bool.false_ne_true) (same ▸ length) later

include plans in
/-- The copy loop keeps every byte, and holds back less than two chunks. -/
theorem appendRecordBytesToChunks_cuts (pos : 0 < c) (small : c < 2 ^ 64) (rounds : Nat)
    {record todo : Bytes} {next : Chunker ρ → Producer} (enough : record.length ≤ rounds)
    (cuts : Cuts c emit next todo) :
    Cuts c emit (fun ch => appendRecordBytesToChunks writer tagSize c rounds record ch next)
      (record ++ todo) := by
  induction rounds generalizing record with
  | zero =>
    rw [List.length_eq_zero_iff.mp (Nat.le_zero.mp enough)]
    exact cuts
  | succ rounds ih =>
    intro ch ready ok
    simp only [appendRecordBytesToChunks] at ok ⊢
    by_cases empty : record = []
    · subst empty
      exact cuts ch ready ok
    have there : 0 < record.length := List.length_pos_iff.mpr empty
    have room := ready.current
    rw [if_neg (by simpa using empty)] at ok ⊢
    generalize copied : min record.length (c - ch.currentChunk.length) = k at ok ⊢
    have step : 1 ≤ k ∧ k ≤ record.length ∧ ch.currentChunk.length + k ≤ c := by omega
    have shorter : (record.drop k).length ≤ rounds := by
      rw [List.length_drop]
      omega
    have length : (ch.currentChunk ++ record.take k).length = ch.currentChunk.length + k := by
      rw [List.length_append, List.length_take]
      omega
    have data : ch.held ++ (record ++ todo) =
        (Chunker.held { ch with currentChunk := ch.currentChunk ++ record.take k }) ++
          (record.drop k ++ todo) := by
      unfold Chunker.held
      conv_lhs => rw [← List.take_append_drop k record]
      simp only [List.append_assoc]
    rw [data]
    by_cases full : (ch.currentChunk ++ record.take k).length = c
    · rw [if_pos full] at ok ⊢
      refine flushPendingAsNonFinal_cuts plans
        { ch with currentChunk := ch.currentChunk ++ record.take k } (record.drop k ++ todo) small
        ready.pending ?_ ?_ ok
      · exact List.ne_nil_of_length_pos (by rw [full]; exact pos)
      · intro n planner more
        have refilled : Chunker.Ready c
            ⟨[], some (ch.currentChunk ++ record.take k), n, planner⟩ :=
          ⟨fun bytes same => Option.some.inj same ▸ full, pos⟩
        have later := ih shorter _ refilled more
        rw [Chunker.held, Option.getD_some, List.append_nil] at later
        exact later
    · rw [if_neg full] at ok ⊢
      exact ih shorter _ ⟨ready.pending, by
        show (ch.currentChunk ++ record.take k).length < c
        omega⟩ ok

variable {options : EncryptPipelineOptions} {stream : RecordStream}

theorem checkProduced_items : (checkProduced options stream).items = [] := by
  unfold checkProduced
  by_cases wrong : options.expectedPlaintextBytes > 0 ∧
      stream.bytesProduced ≠ options.expectedPlaintextBytes
  · rw [if_pos wrong]
    rfl
  · rw [if_neg wrong]
    rfl

include plans in
theorem enqueueFinalChunk_cuts (pos : 0 < c) (small : c < 2 ^ 64) :
    Cuts c options.emitFinalChunkWhenEmpty (enqueueFinalChunk writer tagSize options stream)
      [] := by
  rintro ⟨current, pending, n, planner⟩ ready ok
  have room : current.length < c := ready.current
  unfold enqueueFinalChunk at ok ⊢
  rw [List.append_nil]
  by_cases empty : current = []
  · subst empty
    cases pending with
    | none =>
      have nothing : Chunker.held ⟨[], none, n, planner⟩ = [] := rfl
      rw [nothing, CutOrEmpty, if_pos rfl]
      by_cases emit : options.emitFinalChunkWhenEmpty = true
      · simp only [List.isEmpty_nil, not_true_eq_false, if_false, emit, if_true] at ok ⊢
        have small : ([] : Bytes).length < 2 ^ 64 := Nat.two_pow_pos 64
        obtain ⟨chunk, planner', announced, flag, same, -, items⟩ :=
          enqueuePlannedChunk_items plans small ok
        refine ⟨fun silent => absurd silent (by decide), fun _ => ⟨chunk, ?_, announced,
          flag.mpr rfl, same⟩⟩
        rw [items, checkProduced_items]
      · simp only [List.isEmpty_nil, not_true_eq_false, if_false, emit] at ok ⊢
        rw [if_neg Bool.false_ne_true, checkProduced_items]
        exact ⟨fun _ => rfl, fun loud => absurd loud Bool.false_ne_true⟩
    | some bytes =>
      have length := ready.pending bytes rfl
      simp only [List.isEmpty_nil, not_true_eq_false, if_false] at ok ⊢
      obtain ⟨chunk, planner', announced, flag, same, -, items⟩ :=
        enqueuePlannedChunk_items plans (by omega) ok
      have held : (Chunker.held ⟨[], some bytes, n, planner⟩) = chunk.bytes := by
        rw [same]
        exact List.append_nil _
      have some : chunk.bytes ≠ [] := List.ne_nil_of_length_pos (by rw [same]; omega)
      rw [held, CutOrEmpty, if_neg some, items, checkProduced_items]
      exact .last announced (flag.mpr rfl) (by rw [same]; omega) (by rw [same]; omega)
  · have there : 0 < current.length := List.length_pos_iff.mpr empty
    simp only [List.isEmpty_iff, empty, not_false_eq_true, if_true] at ok ⊢
    have next : ∀ k planner, (enqueuePlannedChunk writer tagSize current true
          ⟨current, none, k, planner⟩ (fun _ => checkProduced options stream)
          fun _ => checkProduced options stream).ending = none →
        CutOrEmpty c options.emitFinalChunkWhenEmpty k (current ++ [])
          (enqueuePlannedChunk writer tagSize current true ⟨current, none, k, planner⟩
            (fun _ => checkProduced options stream)
            fun _ => checkProduced options stream).items := by
      intro k planner more
      obtain ⟨chunk, planner', announced, flag, same, -, items⟩ :=
        enqueuePlannedChunk_items plans (by omega) more
      have data : current ++ [] = chunk.bytes := by rw [same, List.append_nil]
      have some : chunk.bytes ≠ [] := by rw [same]; exact empty
      rw [data, CutOrEmpty, if_neg some, items, checkProduced_items]
      exact .last announced (flag.mpr rfl) (by rw [same]; exact there) (by rw [same]; exact room.le)
    have cuts := flushPendingAsNonFinal_cuts plans ⟨current, pending, n, planner⟩ [] small
      ready.pending empty next ok
    rwa [List.append_nil] at cuts

include plans in
theorem recordLoop_cuts (pos : 0 < c) (small : c < 2 ^ 64) (records : List Bytes) :
    Cuts c options.emitFinalChunkWhenEmpty (recordLoop writer tagSize options stream c records)
      records.flatten := by
  induction records with
  | nil =>
    intro ch ready ok
    unfold recordLoop at ok ⊢
    cases ended : stream.ending with
    | some e =>
      simp only [ended] at ok
      cases ok
    | none =>
      simp only [ended] at ok ⊢
      exact enqueueFinalChunk_cuts plans pos small ch ready ok
  | cons record records ih =>
    rw [List.flatten_cons]
    exact fun ch => appendRecordBytesToChunks_cuts plans pos small record.length le_rfl ih ch

include plans in
theorem producerMain_cuts
    (ok : (producerMain writer options tagSize stream).ending = none) :
    0 < options.chunkPlainSize.toNat ∧
      CutOrEmpty options.chunkPlainSize.toNat options.emitFinalChunkWhenEmpty 0
        stream.records.flatten (producerMain writer options tagSize stream).items := by
  unfold producerMain checkedChunkSize at ok ⊢
  by_cases zero : options.chunkPlainSize = 0
  · simp only [zero, if_true] at ok
    cases ok
  · simp only [zero, if_false] at ok ⊢
    have pos := u64_pos zero
    have fresh : Chunker.Ready options.chunkPlainSize.toNat ⟨[], none, 0, writer.planner⟩ :=
      ⟨fun _ none => absurd none (Option.some_ne_none _).symm, pos⟩
    exact ⟨pos, recordLoop_cuts plans pos options.chunkPlainSize.toNat_lt stream.records _ fresh ok⟩

end Producer

structure Assembled (c : Nat) (emit : Bool) (data : Bytes) (chunks : List PlainChunk) : Prop where
  concatenation : (chunks.map PlainChunk.bytes).flatten = data
  numbered : ∀ k (chunk : PlainChunk), chunks[k]? = some chunk → chunk.Announced k
  front : ∀ chunk ∈ chunks.dropLast, chunk.bytes.length = c ∧ ¬chunk.final
  last : ∀ chunk ∈ chunks.getLast?, chunk.final ∧
    (data ≠ [] → 1 ≤ chunk.bytes.length ∧ chunk.bytes.length ≤ c)
  empty : data = [] → chunks.map PlainChunk.bytes = if emit then [[]] else []

theorem Cut.split {c i : Nat} {data : Bytes} {chunks : List PlainChunk}
    (cut : Cut c i data chunks) : ∃ front last, chunks = front ++ [last] ∧
      (∀ chunk ∈ front, chunk.bytes.length = c ∧ ¬chunk.final) ∧ last.final ∧
      1 ≤ last.bytes.length ∧ last.bytes.length ≤ c ∧
      data.length = front.length * c + last.bytes.length := by
  induction cut with
  | @last i chunk announced flagged some short =>
    refine ⟨[], chunk, rfl, fun _ none => absurd none List.not_mem_nil, flagged, some, short, ?_⟩
    rw [List.length_nil, Nat.zero_mul, Nat.zero_add]
  | @more i chunk data chunks announced unflagged full rest ih =>
    obtain ⟨front, last, rfl, all, flagged, some, short, total⟩ := ih
    refine ⟨chunk :: front, last, rfl, ?_, flagged, some, short, ?_⟩
    · exact List.forall_mem_cons.mpr ⟨⟨full, unflagged⟩, all⟩
    · rw [List.length_append, full, total, List.length_cons, Nat.succ_mul]
      omega

theorem Cut.concatenation {c i : Nat} {data : Bytes} {chunks : List PlainChunk}
    (cut : Cut c i data chunks) : (chunks.map PlainChunk.bytes).flatten = data := by
  induction cut with
  | last => exact List.append_nil _
  | more _ _ _ _ ih => rw [List.map_cons, List.flatten_cons, ih]

theorem Cut.numbered {c i : Nat} {data : Bytes} {chunks : List PlainChunk}
    (cut : Cut c i data chunks) (k : Nat) (chunk : PlainChunk) (here : chunks[k]? = some chunk) :
    chunk.Announced (i + k) := by
  induction cut generalizing k with
  | last announced =>
    obtain ⟨inside, rfl⟩ := List.getElem?_eq_some_iff.mp here
    obtain rfl := Nat.lt_one_iff.mp inside
    exact announced
  | more announced _ _ _ ih =>
    cases k with
    | zero =>
      cases here
      exact announced
    | succ k =>
      rw [Nat.add_succ, ← Nat.succ_add]
      exact ih k here

theorem CutOrEmpty.assembled {c : Nat} {emit : Bool} {data : Bytes} {chunks : List PlainChunk}
    (cut : CutOrEmpty c emit 0 data chunks) : Assembled c emit data chunks := by
  unfold CutOrEmpty at cut
  by_cases empty : data = []
  · rw [if_pos empty] at cut
    subst empty
    cases emit with
    | false =>
      rw [cut.silent rfl]
      exact ⟨rfl, fun _ _ none => absurd none (Option.some_ne_none _).symm,
        fun _ none => absurd none List.not_mem_nil,
        fun _ none => absurd none (Option.some_ne_none _).symm, fun _ => rfl⟩
    | true =>
      obtain ⟨chunk, rfl, announced, flagged, bytes⟩ := cut.single rfl
      refine ⟨?_, fun k other here => ?_, fun _ none => absurd none List.not_mem_nil,
        fun other here => ?_, fun _ => ?_⟩
      · rw [List.map_singleton, bytes]
        rfl
      · obtain ⟨inside, rfl⟩ := List.getElem?_eq_some_iff.mp here
        obtain rfl := Nat.lt_one_iff.mp inside
        exact announced
      · cases here
        exact ⟨flagged, fun some => absurd rfl some⟩
      · rw [List.map_singleton, bytes]
        rfl
  · rw [if_neg empty] at cut
    obtain ⟨front, last, split, full, flagged, some, short, -⟩ := cut.split
    refine ⟨cut.concatenation, fun k chunk here => Nat.zero_add k ▸ cut.numbered k chunk here,
      ?_, ?_,
      fun none => absurd none empty⟩
    · rw [split, List.dropLast_concat]
      exact full
    · intro chunk here
      rw [split, List.getLast?_concat] at here
      cases here
      exact ⟨flagged, fun _ => ⟨some, short⟩⟩

/-- As many chunks as `core_encrypt` plans for this number of bytes, and as long a last one. -/
def AsPlanned (c : UInt64) (data : Bytes) (chunks : List PlainChunk) : Prop :=
  ∀ total : UInt64, total ≠ 0 → total.toNat = data.length →
    ∃ count finalLen, App.planChunkCounts total c = .ok (count, finalLen) ∧
      count.toNat = (data.length + c.toNat - 1) / c.toNat ∧ chunks.length = count.toNat ∧
      ∃ chunk ∈ chunks.getLast?, chunk.bytes.length = finalLen.toNat

theorem CutOrEmpty.asPlanned {c : UInt64} {emit : Bool} {data : Bytes} {chunks : List PlainChunk}
    (pos : 0 < c.toNat) (cut : CutOrEmpty c.toNat emit 0 data chunks) :
    AsPlanned c data chunks := by
  intro total nonzero size
  have some := u64_pos nonzero
  have empty : data ≠ [] := List.ne_nil_of_length_pos (size ▸ some)
  have chunk : c ≠ 0 := by
    rintro rfl
    exact absurd pos (Nat.lt_irrefl 0)
  rw [CutOrEmpty, if_neg empty] at cut
  obtain ⟨front, last, split, -, -, atLeast, atMost, length⟩ := cut.split
  have announced := cut.numbered front.length last (by rw [split, List.getElem?_concat_length])
  have fits : last.bytes.length < 2 ^ 32 := announced.plaintextLen ▸ UInt32.toNat_lt _
  obtain ⟨number, rest⟩ := App.counts_of_split front.length atLeast atMost
  rw [← length] at number rest
  have short : chunks.length = front.length + 1 := by
    rw [split, List.length_append, List.length_singleton]
  have whole : front.length + 1 < 2 ^ 64 := by
    have wide := Nat.le_mul_of_pos_right front.length pos
    have small := total.toNat_lt
    omega
  refine ⟨UInt64.ofNat (front.length + 1), UInt32.ofNat last.bytes.length, ?_, ?_, ?_, last, ?_, ?_⟩
  · rw [App.planChunkCounts_ok nonzero chunk, size, number, rest]
    exact ⟨UInt64.toNat_ofNat_of_lt' whole, rfl⟩
  · rw [number]
    exact UInt64.toNat_ofNat_of_lt' whole
  · rw [short]
    exact (UInt64.toNat_ofNat_of_lt' whole).symm
  · rw [split]
    exact List.getLast?_concat ..
  · exact (UInt32.toNat_ofNat_of_lt' fits).symm

/-- What the producer enqueues when it ends without an exception. -/
def AssemblesChunks {ρ ω : Type} (writer : AnyShardWriter ρ ω) : Prop :=
  ∀ options tagSize stream, (producerMain writer options tagSize stream).ending = none →
    Assembled options.chunkPlainSize.toNat options.emitFinalChunkWhenEmpty stream.records.flatten
        (producerMain writer options tagSize stream).items ∧
      AsPlanned options.chunkPlainSize stream.records.flatten
        (producerMain writer options tagSize stream).items

theorem assemblesChunks_of_plans {ρ ω : Type} {writer : AnyShardWriter ρ ω}
    (plans : PlansChunks writer) : AssemblesChunks writer := by
  intro options tagSize stream ok
  obtain ⟨pos, cut⟩ := producerMain_cuts plans ok
  exact ⟨cut.assembled, cut.asPlanned pos⟩

end Encrypt

/-- Both shard writers get the chunks of the record bytes, and in a run in which nothing fails
they are the ones that are encrypted and written. -/
theorem chunk_assembly :
    (∀ sys hmacSha256 options, Encrypt.AssemblesChunks (fileWriter sys hmacSha256 options)) ∧
    (∀ faults hmacSha256 options,
      Encrypt.AssemblesChunks (stdoutWriter faults hmacSha256 options)) ∧
    ∀ {ρ ω : Type} (p : EncryptPipeline ρ ω) (tagSize : UInt16) (workers capacity : Nat)
      (workersPos : 0 < workers) (capacityPos : 0 < capacity) (start : ω)
      (s : State (p.threads tagSize workers capacity workersPos capacityPos)),
      Reaches (init _ start) s → s.main = .returned → s.failure = none →
      (Encrypt.producerMain p.shardWriter p.options tagSize p.stream).ending = none ∧
        ∃ frames, s.calls = frames.map .consume ++ [.finish] ∧ List.Forall₂ p.Encryption
          (Encrypt.producerMain p.shardWriter p.options tagSize p.stream).items frames := by
  refine ⟨fun sys hmacSha256 options => ?_, fun faults hmacSha256 options => ?_, ?_⟩
  · exact Encrypt.assemblesChunks_of_plans
      (Encrypt.plansChunks_fileWriter sys hmacSha256 options)
  · exact Encrypt.assemblesChunks_of_plans
      (Encrypt.plansChunks_stdoutWriter faults hmacSha256 options)
  · intro ρ ω p tagSize workers capacity workersPos capacityPos start s run returned fine
    obtain ⟨frames, mid, done, -⟩ := run.completed_of_returned returned fine
    exact ⟨done.ending, frames, done.calls, EncryptPipeline.completed_encryption done⟩

def twoShardsPipeline : EncryptPipeline ShardPlanner ShardWriter where
  options :=
    { (fiveBytesPipeline 9).options with
      chunkPlainSize := 5
      perShardPublicHeaderHashes := tightOptions.perShardPublicHeaderHashes }
  backend := (fiveBytesPipeline 9).backend
  keys := (fiveBytesPipeline 9).keys
  stream := ⟨[[1, 2, 3], [4, 5, 6, 7, 8, 9]], none⟩
  shardWriter := fileWriter roomyDisk (fun _ _ => zeroMac) tightOptions
  hkdf := (fiveBytesPipeline 9).hkdf

abbrev twoShardsThreads := twoShardsPipeline.threads 16 1 2 Nat.one_pos Nat.two_pos

def twoShardsStart : ShardWriter := .fresh tightOptions noFiles

theorem chunk_assembly_twoShards :
    let chunks := (Encrypt.producerMain twoShardsPipeline.shardWriter twoShardsPipeline.options 16
      twoShardsPipeline.stream).items
    Encrypt.Assembled 5 true [1, 2, 3, 4, 5, 6, 7, 8, 9] chunks ∧
      chunks.map (fun chunk => chunk.frameHeader.shardIndex) = [0, 1] ∧
      ∃ s : State twoShardsThreads, Reaches (init _ twoShardsStart) s ∧
        ∃ frames, s.calls = frames.map .consume ++ [.finish] ∧
          List.Forall₂ twoShardsPipeline.Encryption chunks frames := by
  intro chunks
  have ok : (Encrypt.producerMain twoShardsPipeline.shardWriter twoShardsPipeline.options 16
      twoShardsPipeline.stream).ending.isNone = true := by decide +kernel
  refine ⟨(chunk_assembly.1 _ _ _ _ _ _ (Option.isNone_iff_eq_none.mp ok)).1, by decide +kernel, ?_⟩
  have ran : (runActions (init twoShardsThreads twoShardsStart)
      (List.replicate 7 .source ++ List.replicate 10 (.worker ⟨0, Nat.one_pos⟩) ++ [.joiner] ++
        List.replicate 15 .main)).any finishedWell = true := by decide +kernel
  obtain ⟨s, run, well⟩ := reaches_of_any ran
  simp only [finishedWell, Bool.and_eq_true, decide_eq_true_eq, Option.isNone_iff_eq_none] at well
  exact ⟨s, run, (chunk_assembly.2.2 twoShardsPipeline 16 1 2 Nat.one_pos Nat.two_pos twoShardsStart
    s run well.1.1 well.1.2).2⟩

end Bseal.Pipeline
