import Bseal.Io.WriterCleanup

/-! Torn writes: whatever point of its operations the writer and its destructor have reached,
the directory reads as the whole archive or not at all. -/
namespace Bseal.Io
open Effect Platform

structure FrameRequest where
  plaintextLen : UInt64
  ciphertextLen : UInt64
  tagLen : UInt16

/-- Frames planned one after the other from this index on; the last one is flagged final. -/
def planSequence (options : ShardWriterOptions) :
    List FrameRequest → Nat → ShardPlanner → Result (List ChunkFrameHeaderV1)
  | [], _, _ => .ok []
  | request :: requests, i, p => do
    let (planned, p) ← planChunkFrame options false (UInt64.ofNat i) request.plaintextLen
      request.ciphertextLen request.tagLen requests.isEmpty p
    let headers ← planSequence options requests (i + 1) p
    pure (planned.header :: headers)

section Planned

def Numbered : Nat → List ChunkFrameHeaderV1 → Prop
  | _, [] => True
  | i, h :: headers => h.globalChunkIndex = UInt64.ofNat i ∧
    (h.frameFlags &&& kChunkFrameFlagFinalChunk ≠ 0 ↔ headers = []) ∧ Numbered (i + 1) headers

theorem flag_iff (finalChunk : Bool) :
    (if finalChunk then kChunkFrameFlagFinalChunk else 0) &&& kChunkFrameFlagFinalChunk ≠ 0 ↔
      finalChunk = true := by
  have flagged : kChunkFrameFlagFinalChunk &&& kChunkFrameFlagFinalChunk ≠ 0 := by decide
  have unflagged : ¬(0 : UInt16) &&& kChunkFrameFlagFinalChunk ≠ 0 := by decide
  cases finalChunk with
  | true => exact iff_of_true flagged rfl
  | false => exact iff_of_false unflagged Bool.false_ne_true

theorem planChunkFrame_header {options : ShardWriterOptions} {finished finalChunk : Bool}
    {chunkIndex plaintextLen ciphertextLen : UInt64} {tagLen : UInt16} {p q : ShardPlanner}
    {planned : PlannedChunkFrame}
    (ok : planChunkFrame options finished chunkIndex plaintextLen ciphertextLen tagLen finalChunk
      p = .ok (planned, q)) :
    planned.header.globalChunkIndex = chunkIndex ∧
      (planned.header.frameFlags &&& kChunkFrameFlagFinalChunk ≠ 0 ↔ finalChunk = true) := by
  unfold planChunkFrame at ok
  simp only [Result.guard_eq_ok, Result.bind_eq_ok] at ok
  obtain ⟨-, -, -, -, size, -, -, bytes, -, result⟩ := ok
  cases result
  exact ⟨rfl, flag_iff finalChunk⟩

theorem planSequence_numbered {options : ShardWriterOptions} {requests : List FrameRequest}
    {i : Nat} {p : ShardPlanner} {headers : List ChunkFrameHeaderV1}
    (planned : planSequence options requests i p = .ok headers) :
    Numbered i headers ∧ (headers = [] ↔ requests = []) := by
  induction requests generalizing i p headers with
  | nil =>
    cases planned
    exact ⟨trivial, iff_of_true rfl rfl⟩
  | cons request requests ih =>
    obtain ⟨⟨first, q⟩, frame, planned⟩ := (Result.bind_eq_ok ..).mp planned
    obtain ⟨later, rest, planned⟩ := (Result.bind_eq_ok ..).mp planned
    cases planned
    obtain ⟨index, final⟩ := planChunkFrame_header frame
    obtain ⟨numbered, empty⟩ := ih rest
    refine ⟨⟨index, ?_, numbered⟩, by simp⟩
    rw [final, List.isEmpty_iff, empty]

theorem Numbered.get {i : Nat} {headers : List ChunkFrameHeaderV1} (numbered : Numbered i headers)
    (k : Nat) (inside : k < headers.length) :
    headers[k].globalChunkIndex = UInt64.ofNat (i + k) ∧
      (headers[k].frameFlags &&& kChunkFrameFlagFinalChunk ≠ 0 ↔ k + 1 = headers.length) := by
  induction headers generalizing i k with
  | nil => exact absurd inside (Nat.not_lt_zero _)
  | cons h headers ih =>
    obtain ⟨index, final, later⟩ := numbered
    cases k with
    | zero =>
      refine ⟨index, final.trans ?_⟩
      rw [List.length_cons, ← List.length_eq_zero_iff]
      omega
    | succ k =>
      rw [List.length_cons] at inside
      obtain ⟨index, final⟩ := ih later k (by omega)
      rw [List.getElem_cons_succ, List.length_cons]
      refine ⟨by rw [index, Nat.add_assoc, Nat.add_comm 1], final.trans ?_⟩
      omega

end Planned

section Parse

/-- Whole frames are read off one way only, and a cut one is no frame. -/
theorem frames_unique {shard : ShardInfo} {total index : Nat} {read written : List Frame}
    {part : Bytes} (rules : FramesFrom shard total index read) (whole : ∀ f ∈ written, f.Sized)
    (cut : part.length ≤ 40)
    (same : read.flatMap Frame.bytes = written.flatMap Frame.bytes ++ part) :
    read = written := by
  induction read generalizing index written with
  | nil =>
    cases written with
    | nil => rfl
    | cons g written =>
      have length := congrArg List.length same
      simp only [List.flatMap_nil, List.flatMap_cons, Frame.bytes, List.length_append,
        List.length_nil, encodeChunkFrameHeaderV1_length, kChunkFrameHeaderV1Size] at length
      omega
  | cons f read ih =>
    obtain ⟨frame, later⟩ := rules
    cases written with
    | nil =>
      have length := congrArg List.length same
      rw [List.flatMap_cons, List.length_append, Frame.bytes_length frame, List.flatMap_nil,
        List.nil_append] at length
      omega
    | cons g written =>
      rw [List.flatMap_cons, List.flatMap_cons, Frame.bytes, Frame.bytes] at same
      simp only [List.append_assoc] at same
      obtain ⟨header, same⟩ := List.append_inj same (by simp)
      have header := encodeChunkFrameHeaderV1_injective header
      have length : f.body.length = g.body.length := by
        rw [frame.body, whole g List.mem_cons_self, ← header, frame.header.tagLen,
          frame.header.ciphertextLen, UInt32.toNat_toUInt64]
        rfl
      obtain ⟨body, same⟩ := List.append_inj same length
      rw [ih later (fun h member => whole h (List.mem_cons_of_mem _ member)) same,
        show f = g from by cases f; cases g; cases header; cases body; rfl]

end Parse

section ReadBack
variable (blake3 : Bytes → Bytes32) (hmacSha256 : Bytes → Bytes → Bytes32)
  (validation : ShardReaderValidation) (authKey : Bytes) (files : Files) (inputDir : Bytes)
  (listing : Option (List Bytes))

/-- The directory is discovered, opened and read to its end with these records. -/
def ReadsArchive (records : List ChunkRecord) : Prop :=
  ∃ shards r, discover blake3 files inputDir listing = .ok shards ∧
    openShardReader hmacSha256 shards authKey validation = .ok r ∧ Reads files r records

/-- The directory is not read to its end: this is thrown on the way. -/
def ArchiveFails (e : Failure) : Prop :=
  discover blake3 files inputDir listing = .error e ∨
    ∃ shards, discover blake3 files inputDir listing = .ok shards ∧
      (openShardReader hmacSha256 shards authKey validation = .error e ∨
        ∃ r, openShardReader hmacSha256 shards authKey validation = .ok r ∧ Fails files r e)

theorem archiveFails_or_reads :
    (∃ e, ArchiveFails blake3 hmacSha256 validation authKey files inputDir listing e) ∨
      ∃ records, ReadsArchive blake3 hmacSha256 validation authKey files inputDir listing
        records := by
  cases found : discover blake3 files inputDir listing with
  | error e => exact .inl ⟨e, .inl found⟩
  | ok shards =>
    cases opened : openShardReader hmacSha256 shards authKey validation with
    | error e => exact .inl ⟨e, .inr ⟨shards, found, .inl opened⟩⟩
    | ok r =>
      rcases reads_or_fails r with ⟨e, fails⟩ | ⟨records, reads⟩
      · exact .inl ⟨e, .inr ⟨shards, found, .inr ⟨r, opened, fails⟩⟩⟩
      · exact .inr ⟨records, shards, r, found, opened, reads⟩

variable {blake3 hmacSha256 validation authKey files inputDir listing}

theorem ShardHolds.written {W : Frame → Prop} {total : Nat} {shard : ShardInfo}
    {group : List Frame} {content : Bytes} (holds : ShardHolds files total shard group)
    (here : files shard.path = some content) (shape : ShardShape W content)
    (whole : ∀ f, W f → f.Sized) : ∀ f ∈ group, W f := by
  have front : (serializeGlobalPublicHeader shard.globalHeader ++
      serializeShardPublicHeader shard.shardHeader).length = 272 := by
    rw [List.length_append, serializeGlobalPublicHeader_length, serializeShardPublicHeader_length]
    rfl
  have content_eq := holds.content
  rw [here, Option.some.injEq] at content_eq
  rcases shape with short | ⟨front', written, part, rfl, len, all, last⟩
  · rw [content_eq, List.length_append, front] at short
    omega
  · have cut : part.length ≤ 40 := by
      rcases last with rfl | ⟨g, -, rfl⟩
      · exact Nat.zero_le _
      · exact (encodeChunkFrameHeaderV1_length _).le
    rw [List.append_assoc] at content_eq
    obtain ⟨-, same⟩ := List.append_inj content_eq (len.trans front.symm)
    rw [frames_unique holds.rules (fun f member => whole f (all f member)) cut same.symm]
    exact all

theorem holds_complete {frames : List Frame} (few : frames.length ≤ 2 ^ 64)
    (numbered : Numbered 0 (frames.map Frame.header)) {shards : List ShardInfo} {total : Nat}
    {groups : List (List Frame)} (pos : 0 < total)
    (all : List.Forall₂ (ShardHolds files total) shards groups) (covers : Covers shards 0 total)
    (member : ∀ f ∈ groups.flatten, f ∈ frames) : groups.flatten = frames := by
  have indices := holds_indices all covers
  have count : groups.flatten.length = total := by
    rw [← List.length_map (fun f : Frame => f.header.globalChunkIndex.toNat), indices,
      List.length_range', Nat.sub_zero]
  have place : ∀ k (inside : k < groups.flatten.length), ∃ below : k < frames.length,
      groups.flatten[k] = frames[k] := by
    intro k inside
    obtain ⟨j, below, same⟩ := List.getElem_of_mem (member _ (List.getElem_mem inside))
    have index := List.getElem_of_eq indices (by rw [List.length_map]; exact inside)
    rw [List.getElem_map, List.getElem_range', ← same, Nat.one_mul, Nat.zero_add] at index
    have written := (numbered.get j (by rw [List.length_map]; exact below)).1
    rw [List.getElem_map, Nat.zero_add] at written
    rw [written, UInt64.toNat_ofNat_of_lt' (by simp only [UInt64.size]; omega)] at index
    subst index
    exact ⟨below, same.symm⟩
  have last : total = frames.length := by
    obtain ⟨below, same⟩ := place (total - 1) (by omega)
    have inside : total - 1 < groups.flatten.length := by omega
    obtain ⟨shard, -, rules⟩ := holds_mem all _ (List.getElem_mem inside)
    have index := List.getElem_of_eq indices (i := total - 1) (by rw [List.length_map]; omega)
    rw [List.getElem_map, List.getElem_range', Nat.one_mul, Nat.zero_add] at index
    have final := rules.final.mpr (by omega)
    have flagged := (numbered.get (total - 1) (by rw [List.length_map]; exact below)).2
    rw [List.getElem_map, ← same, List.length_map] at flagged
    have := flagged.mp final
    omega
  refine List.ext_getElem (by omega) fun k inside _ => ?_
  obtain ⟨_, same⟩ := place k inside
  exact same

/-- A directory that holds only shards of this shape, cut off from a numbered list of frames, is
read to its end as the whole list. -/
theorem readsArchive_complete {start : Files} {frames : List Frame} {records : List ChunkRecord}
    (few : frames.length ≤ 2 ^ 64) (numbered : Numbered 0 (frames.map Frame.header))
    (shaped : Shaped (fun f => f ∈ frames ∧ f.Sized) start files)
    (sized : ∀ path content, files path = some content → content.length < 2 ^ 64)
    (alone : ∀ paths, listing = some paths →
      ∀ path ∈ paths, hasBinExtension path = true → start path = none)
    (reads : ReadsArchive blake3 hmacSha256 validation authKey files inputDir listing records) :
    records = frames.map Frame.record := by
  obtain ⟨shards, r, found, opened, read⟩ := reads
  unfold openShardReader at opened
  rw [Result.guard_eq_ok, Result.bind_eq_ok] at opened
  obtain ⟨-, ⟨sorted, total⟩, valid, begun⟩ := opened
  cases begun
  obtain ⟨perm, g, nonempty, headers, rules, rfl, covers, shardFiles⟩ :=
    accepted_set blake3 hmacSha256 validation authKey sized found valid
  have pos := u64_pos rules.globalChunkCount
  rw [ShardReader.start_eq sorted pos, reads_iff files _ sorted 0 records covers shardFiles] at read
  obtain ⟨groups, rfl, all⟩ := read
  obtain ⟨paths, listed, bins⟩ := discover_listed blake3 files found
  have written : ∀ f ∈ groups.flatten, f ∈ frames := by
    intro f inside
    obtain ⟨group, among, inside⟩ := List.mem_flatten.mp inside
    obtain ⟨s, member, holds⟩ := forall₂_mem_right all group among
    obtain ⟨inPaths, bin⟩ := bins s (perm.mem_iff.mp member)
    have shape := shaped s.path _ (alone paths listed s.path inPaths bin) holds.content
    exact (holds.written holds.content shape (fun _ => And.right) f inside).1
  rw [holds_complete few numbered pos all covers written]

end ReadBack

section Run
variable (sys : System) (blake3 : Bytes → Bytes32) (hmacSha256 : Bytes → Bytes → Bytes32)

/-- A run writes planned frames in their order, however far it comes and whatever it throws, and
then the destructor runs: behind every prefix of the operations on the files, the directory is
rejected or read as all frames. -/
theorem torn_write {o : ShardWriterOptions} {start : Disk} {w : ShardWriter}
    (made : makeShardWriter sys o start = .ok w) {requests : List FrameRequest}
    {frames : List Frame} (few : frames.length ≤ 2 ^ 64)
    (planned : planSequence w.options requests 0 .fresh = .ok (frames.map Frame.header))
    {calls : List WriterCall} (writes : calls.filterMap WriterCall.frame <+: frames) :
    ∃ ops, ((w.after sys hmacSha256 calls).destroy sys hmacSha256).disk.log = start.log ++ ops ∧
      ∀ (k : Nat) (validation : ShardReaderValidation) (authKey inputDir : Bytes)
        (listing : Option (List Bytes)),
        (∀ path content, replayOps start.files (ops.take k) path = some content →
          content.length < 2 ^ 64) →
        (∀ paths, listing = some paths →
          ∀ path ∈ paths, hasBinExtension path = true → start.files path = none) →
        ((∃ e, ArchiveFails blake3 hmacSha256 validation authKey
            (replayOps start.files (ops.take k)) inputDir listing e) ∨
          ReadsArchive blake3 hmacSha256 validation authKey
            (replayOps start.files (ops.take k)) inputDir listing (frames.map Frame.record)) ∧
        ∀ records, ReadsArchive blake3 hmacSha256 validation authKey
            (replayOps start.files (ops.take k)) inputDir listing records →
          records = frames.map Frame.record := by
  obtain ⟨rfl, -⟩ := makeShardWriter_ok sys made
  have tracked := after_tracked sys hmacSha256 (fun f => f ∈ frames ∧ f.Sized)
    { o with filenameExtension := o.extension } start calls
    fun f inside sized => ⟨writes.subset inside, sized⟩
  have closed := ((finish_tracked sys hmacSha256 tracked).mono (fun _ _ => And.left)
    fun _ _ => id).final
  obtain ⟨ops, ran, -⟩ := closed.ran
  refine ⟨ops, ran.log, fun k validation authKey inputDir listing sized alone => ?_⟩
  have complete : ∀ records, ReadsArchive blake3 hmacSha256 validation authKey
      (replayOps start.files (ops.take k)) inputDir listing records →
        records = frames.map Frame.record := fun records =>
    readsArchive_complete few (planSequence_numbered planned).1 (ran.throughout k) sized alone
  refine ⟨?_, complete⟩
  rcases archiveFails_or_reads blake3 hmacSha256 validation authKey
    (replayOps start.files (ops.take k)) inputDir listing with fails | ⟨records, reads⟩
  · exact .inl fails
  · exact .inr (complete records reads ▸ reads)

end Run

def roomyDisk : System := ⟨fun k => [UInt8.ofNat k], fun _ => none⟩

def tightOptions : ShardWriterOptions :=
  { oneShardOptions with
    filenameExtension := ascii ".bin"
    globalHeader := { oneShardOptions.globalHeader with shardCount := 2 }
    perShardPublicHeaderHashes := List.replicate 2 (List.Vector.replicate 32 1) }

def tightFrames : List Frame :=
  [⟨⟨0, 0, 0, 4, 4, 16⟩, List.replicate 20 0⟩,
    ⟨⟨kChunkFrameFlagFinalChunk, 1, 1, 5, 5, 16⟩, List.replicate 21 0⟩]

def tightCalls : List WriterCall :=
  [.plan 0 4 4 16 false, .plan 1 5 5 16 true] ++
    tightFrames.map (fun f => .write f.header (encodeChunkFrameHeaderV1 f.header) f.body) ++
    [.finish]

/-- A crash in the middle of the second shard leaves no archive, or the whole one. -/
theorem torn_write_twoShards :
    let first := ascii "./" ++ [0] ++ ascii ".bin"
    let second := ascii "./" ++ [1] ++ ascii ".bin"
    let w := (ShardWriter.fresh tightOptions (noFiles.done (.createDirectories [46]))).after
      roomyDisk (fun _ _ => zeroMac) tightCalls
    let left := replayOps noFiles.files
      ((w.destroy roomyDisk fun _ _ => zeroMac).disk.log.take 12)
    (left first).map List.length = some 332 ∧ (left second).map List.length = some 312 ∧
      ((∃ e, ArchiveFails (fun _ => zeroMac) (fun _ _ => zeroMac) ⟨none, none, none, none⟩ [1] left
          (ascii ".") (some [second, first]) e) ∨
        ReadsArchive (fun _ => zeroMac) (fun _ _ => zeroMac) ⟨none, none, none, none⟩ [1] left
          (ascii ".") (some [second, first]) (tightFrames.map Frame.record)) := by
  intro first second w left
  have here : (left first).map List.length = some 332 := by decide +kernel
  have torn : (left second).map List.length = some 312 := by decide +kernel
  refine ⟨here, torn, ?_⟩
  have made : makeShardWriter roomyDisk { tightOptions with filenameExtension := [] } noFiles =
      .ok (.fresh tightOptions (noFiles.done (.createDirectories [46]))) := rfl
  have planned : planSequence tightOptions [⟨4, 4, 16⟩, ⟨5, 5, 16⟩] 0 .fresh =
      .ok (tightFrames.map Frame.header) := by decide +kernel
  have few : tightFrames.length ≤ 2 ^ 64 := by decide
  have writes : tightCalls.filterMap WriterCall.frame <+: tightFrames := List.prefix_refl _
  obtain ⟨ops, log, behind⟩ := torn_write roomyDisk (fun _ => zeroMac) (fun _ _ => zeroMac) made few
    planned writes
  rw [show noFiles.log ++ ops = ops from rfl] at log
  have files : replayOps noFiles.files (ops.take 12) = left := by rw [← log]
  refine (files ▸ behind 12 ⟨none, none, none, none⟩ [1] (ascii ".") (some [second, first]) ?_ ?_).1
  · intro path content there
    rw [files] at there
    have targets : ∀ op ∈ (w.destroy roomyDisk fun _ _ => zeroMac).disk.log.take 12,
        op.target = none ∨ op.target = some first ∨ op.target = some second := by decide +kernel
    by_cases own : path = first ∨ path = second
    · rcases own with rfl | rfl
      · rw [there] at here
        rw [Option.some.inj here]
        decide
      · rw [there] at torn
        rw [Option.some.inj torn]
        decide
    · rw [show left path = none from replayOps_of_ne _ fun op member same => own ?_] at there
      · cases there
      · rcases targets op member with none | named | named
        · cases none.symm.trans same
        · exact .inl (Option.some.inj (same.symm.trans named))
        · exact .inr (Option.some.inj (same.symm.trans named))
  · exact fun _ _ _ _ _ => rfl

end Bseal.Io
