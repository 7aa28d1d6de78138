import Bseal.Io.ShardStream
import Bseal.Io.ShardWriter
import Bseal.Platform.DiskTrace

/-! What the writer does to the files whatever fails: each operation works on a file it has
created and still knows, and every shard file is headers, whole frames and at most one frame
that was cut off. -/
namespace Bseal.Io
open Effect Platform

/-- The files a writer still knows: the recorded shards and the current one. -/
def ShardWriter.recorded (w : ShardWriter) : List Bytes :=
  w.finalizedShards.map FinalizedShard.path ++ if w.currentPath = [] then [] else [w.currentPath]

section Shape
variable (W : Frame → Prop)

def WholeFrames (content : Bytes) : Prop :=
  ∃ (front : Bytes) (frames : List Frame),
    content = front ++ frames.flatMap Frame.bytes ∧ front.length = 272 ∧
    ∀ f ∈ frames, W f

/-- Incomplete headers; or both headers, whole frames and possibly the header of one more. -/
def ShardShape (content : Bytes) : Prop :=
  content.length < 272 ∨ ∃ (front : Bytes) (frames : List Frame) (part : Bytes),
    content = front ++ frames.flatMap Frame.bytes ++ part ∧ front.length = 272 ∧
      (∀ f ∈ frames, W f) ∧ (part = [] ∨ ∃ f, W f ∧ part = encodeChunkFrameHeaderV1 f.header)

def Shaped (start files : Files) : Prop :=
  ∀ path content, start path = none → files path = some content → ShardShape W content

variable {W}

theorem WholeFrames.shape {content : Bytes} (whole : WholeFrames W content) :
    ShardShape W content := by
  obtain ⟨front, frames, rfl, len, all⟩ := whole
  exact .inr ⟨front, frames, [], (List.append_nil _).symm, len, all, .inl rfl⟩

theorem WholeFrames.length {content : Bytes} (whole : WholeFrames W content) :
    272 ≤ content.length := by
  obtain ⟨front, frames, rfl, len, -⟩ := whole
  rw [List.length_append]
  omega

theorem WholeFrames.header {content : Bytes} (whole : WholeFrames W content) {f : Frame}
    (member : W f) : ShardShape W (content ++ encodeChunkFrameHeaderV1 f.header) := by
  obtain ⟨front, frames, rfl, len, all⟩ := whole
  exact .inr ⟨front, frames, _, rfl, len, all, .inr ⟨f, member, rfl⟩⟩

theorem WholeFrames.frame {content : Bytes} (whole : WholeFrames W content) {f : Frame}
    (member : W f) : WholeFrames W (content ++ encodeChunkFrameHeaderV1 f.header ++ f.body) := by
  obtain ⟨front, frames, rfl, len, all⟩ := whole
  refine ⟨front, frames ++ [f], ?_, len, ?_⟩
  · rw [List.flatMap_append, List.flatMap_singleton, Frame.bytes]
    simp only [List.append_assoc]
  · intro g inside
    rcases List.mem_append.mp inside with before | last
    · exact all g before
    · rw [List.mem_singleton.mp last]
      exact member

theorem ShardShape.patch {content : Bytes} (shape : ShardShape W content) {offset : Nat}
    {bytes : Bytes} (within : offset + bytes.length ≤ 272) (long : 272 ≤ content.length) :
    ShardShape W (overwrite content offset bytes) := by
  rcases shape with short | ⟨front, frames, part, rfl, len, all, last⟩
  · omega
  · refine .inr ⟨overwrite front offset bytes, frames, part, ?_, ?_, all, last⟩
    · unfold overwrite
      have none : offset - front.length = 0 := by omega
      have none' : offset - (front ++ frames.flatMap Frame.bytes ++ part).length = 0 := by
        simp only [List.length_append]
        omega
      rw [none, none', List.replicate_zero, List.append_nil, List.append_nil,
        List.append_assoc front, List.take_append_of_le_length (by omega),
        List.drop_append_of_le_length (by omega)]
      simp only [List.append_assoc]
    · rw [overwrite_length]
      omega

end Shape

section Tracked
variable (W : Frame → Prop) (start : Disk) (w : ShardWriter)

/-- The open shard is known under a name of its own, and holds its headers once it has frames. -/
structure OpenShard : Prop where
  named : w.currentPath ≠ []
  fresh : w.currentPath ∉ w.finalizedShards.map FinalizedShard.path
  headers : w.currentChunkCount ≠ 0 →
    ∃ content, w.disk.files w.currentPath = some content ∧ 272 ≤ content.length

/-- What holds of a writer at any time, also after a throw: its operations on the files since
`start` have left exactly the files it knows. -/
structure Tracked : Prop where
  ran : ∃ ops, Ran (Shaped W start.files) start w.disk ops ∧
    ∀ path, path ∈ leftOver ops ↔ path ∈ w.recorded
  finalized : ∀ s ∈ w.finalizedShards,
    ∃ content, w.disk.files s.path = some content ∧ 272 ≤ content.length
  current : w.streamOpen = true → OpenShard w

structure Ready : Prop extends Tracked W start w where
  whole : w.streamOpen = true →
    ∃ content, w.disk.files w.currentPath = some content ∧ WholeFrames W content
  idle : w.streamOpen = false → w.currentPath = []

variable {W start w}

theorem Tracked.failed (tracked : Tracked W start w) :
    Tracked W start (w.withDisk w.disk.failed) := by
  obtain ⟨⟨ops, ran, left⟩, finalized, current⟩ := tracked
  refine ⟨⟨ops, ran.failed, left⟩, finalized, fun isOpen => ?_⟩
  obtain ⟨named, fresh, headers⟩ := current isOpen
  exact ⟨named, fresh, headers⟩

theorem Tracked.shaped (tracked : Tracked W start w) : Shaped W start.files w.disk.files := by
  obtain ⟨ops, ran, -⟩ := tracked.ran
  have last := ran.throughout ops.length
  rwa [List.take_length, ← ran.files] at last

theorem Tracked.known (tracked : Tracked W start w) {path : Bytes} (member : path ∈ w.recorded) :
    start.files path = none ∧ w.disk.files path ≠ none := by
  obtain ⟨ops, ran, left⟩ := tracked.ran
  exact ran.owned.inside path ((left path).mpr member)

theorem Tracked.edit (tracked : Tracked W start w) {op : DiskOp} (edits : op.Edits)
    (respects : op.Respects w.disk.files w.recorded)
    (shape : ∀ path content, op.target = some path → w.disk.files path = some content →
      ∀ grown, op.apply w.disk.files path = some grown → ShardShape W grown) :
    Tracked W start (w.withDisk (w.disk.done op)) := by
  have shaped := tracked.shaped
  obtain ⟨⟨ops, ran, left⟩, finalized, current⟩ := tracked
  refine ⟨⟨ops ++ [op], ran.done op ?_ ?_, ?_⟩, ?_, fun isOpen => ?_⟩
  · intro path grown absent here
    by_cases same : op.target = some path
    · cases before : w.disk.files path with
      | none =>
        exfalso
        cases op with
        | create p => exact absurd (congrArg List.length (edits [])) (by simp [DiskOp.leaves])
        | append p b => cases same; simp [DiskOp.apply, before] at here
        | patch p o b => cases same; simp [DiskOp.apply, before] at here
        | remove p => exact absurd (edits [p]) (by simp [DiskOp.leaves])
        | createDirectories _ => cases same
        | reopen _ => cases same
        | openReadonly _ => cases same
        | fsync _ => cases same
      | some content => exact shape path content same before grown here
    · rw [DiskOp.apply_of_ne _ same] at here
      exact shaped path grown absent here
  · exact respects.congr fun path member => (left path).mpr member
  · intro path
    rw [leftOver_concat, edits]
    exact left path
  · intro s member
    obtain ⟨content, here, long⟩ := finalized s member
    obtain ⟨grown, there, longer⟩ := op.grows edits here
    exact ⟨grown, there, long.trans longer⟩
  · obtain ⟨named, fresh, headers⟩ := current isOpen
    refine ⟨named, fresh, fun chunks => ?_⟩
    obtain ⟨content, here, long⟩ := headers chunks
    obtain ⟨grown, there, longer⟩ := op.grows edits here
    exact ⟨grown, there, long.trans longer⟩

theorem Tracked.congr (tracked : Tracked W start w) {t : ShardWriter} (disk : t.disk = w.disk)
    (recorded : t.recorded = w.recorded)
    (finalized : ∀ s ∈ t.finalizedShards,
      ∃ content, t.disk.files s.path = some content ∧ 272 ≤ content.length)
    (current : t.streamOpen = true → OpenShard t) : Tracked W start t := by
  obtain ⟨ops, ran, left⟩ := tracked.ran
  exact ⟨⟨ops, by rw [disk]; exact ran, by rw [recorded]; exact left⟩, finalized, current⟩

theorem Tracked.withoutStream (tracked : Tracked W start w) :
    Tracked W start { w with streamOpen := false } :=
  tracked.congr rfl rfl tracked.finalized fun isOpen => by cases isOpen

theorem Tracked.withGood (tracked : Tracked W start w) (good : Bool) :
    Tracked W start { w with streamGood := good } :=
  tracked.congr rfl rfl tracked.finalized fun isOpen =>
    let ⟨named, fresh, headers⟩ := tracked.current isOpen
    ⟨named, fresh, headers⟩

theorem mem_recorded_current (named : w.currentPath ≠ []) : w.currentPath ∈ w.recorded := by
  rw [ShardWriter.recorded, if_neg named]
  exact List.mem_append_right _ List.mem_cons_self

theorem mem_recorded_finalized {s : FinalizedShard} (member : s ∈ w.finalizedShards) :
    s.path ∈ w.recorded :=
  List.mem_append_left _ (List.mem_map_of_mem member)

theorem Tracked.append (tracked : Tracked W start w) (isOpen : w.streamOpen = true)
    {content : Bytes} (here : w.disk.files w.currentPath = some content) (bytes : Bytes)
    (shape : ShardShape W (content ++ bytes)) :
    Tracked W start (w.withDisk (w.disk.done (.append w.currentPath bytes))) := by
  refine tracked.edit (fun _ => rfl) (mem_recorded_current (tracked.current isOpen).named) ?_
  intro path old same there grown after
  cases same
  rw [here] at there
  cases there
  rw [DiskOp.apply, Function.update_self, here] at after
  cases after
  exact shape

theorem Tracked.patch (tracked : Tracked W start w) {path content : Bytes}
    (member : path ∈ w.recorded) (here : w.disk.files path = some content)
    (long : 272 ≤ content.length) (offset : Nat) (bytes : Bytes)
    (within : offset + bytes.length ≤ 272) :
    Tracked W start (w.withDisk (w.disk.done (.patch path offset bytes))) := by
  have shape := tracked.shaped path content (tracked.known member).1 here
  refine tracked.edit (fun _ => rfl) member ?_
  intro other old same there grown after
  cases same
  rw [here] at there
  cases there
  rw [DiskOp.apply, Function.update_self, here] at after
  cases after
  exact shape.patch within long

theorem Tracked.look (tracked : Tracked W start w) (op : DiskOp) (edits : op.Edits)
    (respects : op.Respects w.disk.files w.recorded) (none : op.target = none) :
    Tracked W start (w.withDisk (w.disk.done op)) :=
  tracked.edit edits respects fun path content same => by
    rw [none] at same
    cases same

end Tracked

section Steps
variable (sys : System) (hmacSha256 : Bytes → Bytes → Bytes32) {W : Frame → Prop} {start : Disk}
  {w : ShardWriter} {α : Type} {post : α → ShardWriter → Prop} {fail : Failure → ShardWriter → Prop}

theorem ends_fileOp {op : DiskOp} {f : Option String → Effect Failure ShardWriter α}
    (failed : ∀ message, Ends (f (some message)) (w.withDisk w.disk.failed) post fail)
    (done : Ends (f none) (w.withDisk (w.disk.done op)) post fail) :
    Ends (fileOp sys op >>= f) w post fail := by
  unfold fileOp
  rw [ends_bind, ends_get_bind]
  rcases w.disk.fault sys op with _ | message
  · exact done
  · exact failed message

theorem ends_must {op : DiskOp} {e : Failure} {f : Unit → Effect Failure ShardWriter α}
    (failed : fail e (w.withDisk w.disk.failed))
    (done : Ends (f ()) (w.withDisk (w.disk.done op)) post fail) :
    Ends (must sys op e >>= f) w post fail := by
  unfold must
  rw [bind_assoc]
  apply ends_fileOp sys
  · intro message
    rw [ends_throwIf_bind, if_pos (by rfl)]
    exact failed
  · rw [ends_throwIf_bind, if_neg (by simp)]
    exact done

def StillTracked (W : Frame → Prop) (start : Disk) (w t : ShardWriter) : Prop :=
  ∃ disk, t = w.withDisk disk ∧ Tracked W start t

theorem flush_tracked (tracked : Tracked W start w) (path : Bytes) :
    Ends (flush sys path) w (fun _ t => StillTracked W start w t)
      (fun _ t => Tracked W start t) := by
  unfold flush
  rw [ends_get_bind]
  by_cases skipped : w.options.durabilityHooks = .noop ∨ w.options.durabilityMode = .off
  · rw [if_pos skipped, ends_pure]
    exact ⟨w.disk, rfl, tracked⟩
  · rw [if_neg skipped]
    have opened := tracked.look (.openReadonly path) (fun _ => rfl) trivial rfl
    apply ends_fileOp sys
    · intro message
      simp only
      rw [ends_throwIf]
      split
      · exact tracked.failed
      · exact ⟨_, rfl, tracked.failed⟩
    · apply ends_fileOp sys
      · intro message
        simp only
        rw [ends_throwIf]
        split
        · exact opened.failed
        · exact ⟨_, rfl, opened.failed⟩
      · exact ⟨_, rfl, opened.look (.fsync path) (fun _ => rfl) trivial rfl⟩

theorem writeRaw_tracked (tracked : Tracked W start w) (bytes : Bytes)
    {f : Unit → Effect Failure ShardWriter α} (thrown : ∀ e t, Tracked W start t → fail e t)
    (done : w.streamGood = true →
      Ends (f ()) (w.withDisk (w.disk.done (.append w.currentPath bytes))) post fail) :
    Ends (writeRaw sys bytes >>= f) w post fail := by
  unfold writeRaw
  simp only [bind_assoc]
  rw [ends_get_bind, ends_throwIf_bind]
  by_cases bad : ¬w.streamGood = true
  · rw [if_pos bad]
    exact thrown _ _ tracked
  · rw [if_neg bad]
    apply ends_fileOp sys
    · intro message
      rw [ends_modify_bind, ends_throwIf_bind, if_pos (by rfl)]
      exact thrown _ _ (tracked.failed.withGood false)
    · rw [ends_modify_bind, ends_throwIf_bind, if_neg (by simp)]
      have good := not_not.mp bad
      have same (v : ShardWriter) (ready : v.streamGood = true) :
          { v with streamGood := (none : Option String).isNone } = v := by
        rw [Option.isNone_none, ← ready]
      rw [same]
      · exact done good
      · exact good

theorem joinPath_ne_nil (dir name : Bytes) : joinPath dir name ≠ [] := by
  unfold joinPath
  split
  · rename_i last
    intro none
    rw [(List.append_eq_nil_iff.mp none).1] at last
    cases last
  · simp

theorem Tracked.create (tracked : Tracked W start w) (unnamed : w.currentPath = [])
    {candidate : Bytes} (named : candidate ≠ []) (free : w.disk.files candidate = none)
    (firstChunkIndex : UInt64) (good : Bool) :
    Tracked W start ({ w.withDisk (w.disk.done (.create candidate)) with
      streamGood := good }.opened candidate firstChunkIndex) := by
  have shaped := tracked.shaped
  obtain ⟨⟨ops, ran, left⟩, finalized, -⟩ := tracked
  have others : ∀ s ∈ w.finalizedShards, s.path ≠ candidate := by
    intro s member same
    obtain ⟨content, here, -⟩ := finalized s member
    rw [same, free] at here
    cases here
  refine ⟨⟨_, ran.done (.create candidate) ?_ free, ?_⟩, ?_,
    fun _ => ⟨named, ?_, ?_⟩⟩
  · intro path content absent here
    by_cases same : path = candidate
    · rw [same, DiskOp.apply, Function.update_self] at here
      cases here
      exact .inl (by simp)
    · rw [DiskOp.apply, Function.update_of_ne same] at here
      exact shaped path content absent here
  · intro path
    have before := left path
    rw [ShardWriter.recorded, if_pos unnamed, List.append_nil] at before
    rw [leftOver_concat, DiskOp.leaves, List.mem_cons, before]
    show _ ↔ path ∈ w.finalizedShards.map FinalizedShard.path ++
      if candidate = [] then [] else [candidate]
    rw [if_neg named, List.mem_append, List.mem_singleton]
    exact or_comm
  · intro s member
    obtain ⟨content, here, long⟩ := finalized s member
    exact ⟨content, (Function.update_of_ne (others s member) _ _).trans here, long⟩
  · intro member
    obtain ⟨s, there, same⟩ := List.mem_map.mp member
    exact others s there same
  · exact fun chunks => absurd rfl chunks

theorem writeHeaders_tracked (tracked : Tracked W start w) (isOpen : w.streamOpen = true)
    (empty : w.disk.files w.currentPath = some []) (g : GlobalPublicHeaderV1)
    (s : ShardPublicHeaderV1) :
    Ends (do
      writeRaw sys (serializeGlobalPublicHeader g)
      writeRaw sys (serializeShardPublicHeader s)) w
      (fun _ t => Ready W start t ∧ t.streamOpen = true) (fun _ t => Tracked W start t) := by
  have global := tracked.append isOpen empty (serializeGlobalPublicHeader g) (.inl (by
    rw [List.nil_append, serializeGlobalPublicHeader_length]
    decide))
  have content := w.disk.files_append w.currentPath (serializeGlobalPublicHeader g) [] empty
  rw [List.nil_append] at content
  have here : (w.disk.done (.append w.currentPath (serializeGlobalPublicHeader g))).files
      w.currentPath = some (serializeGlobalPublicHeader g) := by
    rw [content, Function.update_self]
  have whole : WholeFrames W (serializeGlobalPublicHeader g ++ serializeShardPublicHeader s) := by
    refine ⟨_, [], (List.append_nil _).symm, ?_, fun _ inside => by cases inside⟩
    rw [List.length_append, serializeGlobalPublicHeader_length, serializeShardPublicHeader_length]
    rfl
  have last := global.append isOpen here (serializeShardPublicHeader s) whole.shape
  refine writeRaw_tracked sys tracked _ (fun _ _ => id) fun _ => ?_
  rw [← bind_pure (writeRaw sys _)]
  refine writeRaw_tracked sys global _ (fun _ _ => id) fun _ => ?_
  rw [ends_pure]
  have there := Disk.files_append _ w.currentPath (serializeShardPublicHeader s) _ here
  refine ⟨⟨last, fun _ => ⟨_, ?_, whole⟩, fun isClosed => ?_⟩, isOpen⟩
  · exact (congrFun there w.currentPath).trans (Function.update_self ..)
  · exact absurd (isClosed.symm.trans isOpen) Bool.false_ne_true

theorem openCandidate_tracked (tracked : Tracked W start w) (unnamed : w.currentPath = [])
    (isClosed : w.streamOpen = false) {candidate : Bytes} (named : candidate ≠ [])
    (free : w.disk.files candidate = none) (firstChunkIndex : UInt64) :
    Ends (openCandidate sys candidate firstChunkIndex) w
      (fun _ t => Ready W start t ∧ t.streamOpen = true) (fun _ t => Tracked W start t) := by
  unfold openCandidate
  apply ends_fileOp sys
  · intro message
    rw [ends_modify_bind, ends_throwIf_bind, if_pos (by rfl)]
    refine tracked.failed.congr rfl rfl tracked.finalized fun isOpen => ?_
    exact absurd (isClosed.symm.trans isOpen) Bool.false_ne_true
  · rw [ends_modify_bind, ends_throwIf_bind, if_neg (by simp), ends_modify_bind, ends_get_bind]
    exact writeHeaders_tracked sys (tracked.create unnamed named free firstChunkIndex _) rfl
      (Function.update_self ..) _ _

theorem tryNames_tracked (attempts : Nat) (firstChunkIndex : UInt64)
    (tracked : Tracked W start w) (unnamed : w.currentPath = []) (isClosed : w.streamOpen = false) :
    Ends (tryNames sys attempts firstChunkIndex) w
      (fun _ t => Ready W start t ∧ t.streamOpen = true) (fun _ t => Tracked W start t) := by
  induction attempts generalizing w with
  | zero =>
    unfold tryNames
    rw [ends_throw]
    exact tracked
  | succ attempts ih =>
    have drawn : Tracked W start (w.withDisk w.disk.draw) := by
      obtain ⟨⟨ops, ran, left⟩, finalized, -⟩ := tracked
      refine ⟨⟨ops, ran.draw, left⟩, finalized, fun isOpen => ?_⟩
      exact absurd (isClosed.symm.trans isOpen) Bool.false_ne_true
    unfold tryNames
    rw [ends_get_bind, ends_bind, ends_set]
    by_cases used : (w.disk.files (w.candidate sys w.disk.drawn)).isSome
    · rw [if_pos used]
      exact ih drawn unnamed isClosed
    · rw [if_neg used]
      exact openCandidate_tracked sys drawn unnamed isClosed (joinPath_ne_nil _ _)
        (Option.not_isSome_iff_eq_none.mp used) firstChunkIndex

theorem openNextShard_tracked (tracked : Tracked W start w) (unnamed : w.currentPath = [])
    (isClosed : w.streamOpen = false) (firstChunkIndex : UInt64) :
    Ends (openNextShard sys firstChunkIndex) w
      (fun _ t => Ready W start t ∧ t.streamOpen = true) (fun _ t => Tracked W start t) := by
  unfold openNextShard
  rw [ends_get_bind, ends_throwIf_bind, if_neg (by rw [isClosed]; simp)]
  exact tryNames_tracked sys 128 firstChunkIndex tracked unnamed isClosed

theorem rewriteShardHeader_tracked (tracked : Tracked W start w) {path content : Bytes}
    (member : path ∈ w.recorded) (here : w.disk.files path = some content)
    (long : 272 ≤ content.length) (g : GlobalPublicHeaderV1) (shardIndex : UInt32)
    (firstChunkIndex chunkCount payloadLen : UInt64) :
    Ends (rewriteShardHeader sys hmacSha256 path g shardIndex firstChunkIndex chunkCount
      payloadLen) w (fun _ t => ∃ bytes, t = w.withDisk (w.disk.done (.patch path 192 bytes)) ∧
        Tracked W start t) (fun _ t => Tracked W start t) := by
  unfold rewriteShardHeader
  rw [ends_get_bind]
  rw [ends_lift_bind]
  refine ⟨fun mac _ => ?_, fun e _ => tracked⟩
  rw [← bind_pure (must sys _ _)]
  apply ends_must sys
  · exact tracked.failed
  · rw [ends_pure]
    exact ⟨_, rfl, tracked.patch member here long _ _ (by
      rw [serializeShardPublicHeader_length]
      decide)⟩

theorem Tracked.remove (tracked : Tracked W start w) (isOpen : w.streamOpen = true) :
    Tracked W start { (w.withDisk (w.disk.done (.remove w.currentPath))) with
      streamOpen := false
      currentPath := [] } := by
  obtain ⟨named, fresh, -⟩ := tracked.current isOpen
  have shaped := tracked.shaped
  obtain ⟨⟨ops, ran, left⟩, finalized, -⟩ := tracked
  have member := (left _).mpr (mem_recorded_current named)
  refine ⟨⟨_, ran.done (.remove w.currentPath) ?_ member, ?_⟩, ?_, fun isOpen => by cases isOpen⟩
  · intro path content absent here
    by_cases same : path = w.currentPath
    · rw [same, DiskOp.apply, Function.update_self] at here
      cases here
    · rw [DiskOp.apply, Function.update_of_ne same] at here
      exact shaped path content absent here
  · intro path
    have before := left path
    rw [ShardWriter.recorded, if_neg named, List.mem_append, List.mem_singleton] at before
    rw [leftOver_concat, DiskOp.leaves, List.mem_filter, before, decide_eq_true_eq]
    show _ ↔ path ∈ w.finalizedShards.map FinalizedShard.path ++ []
    rw [List.append_nil]
    constructor
    · rintro ⟨member | same, differs⟩
      · exact member
      · exact absurd same differs
    · intro member
      exact ⟨.inl member, fun same => fresh (same ▸ member)⟩
  · intro s member
    obtain ⟨content, here, long⟩ := finalized s member
    refine ⟨content, (Function.update_of_ne ?_ _ _).trans here, long⟩
    intro same
    exact fresh (same ▸ List.mem_map_of_mem member)

theorem closeCurrentShard_tracked (tracked : Tracked W start w) :
    Ends (closeCurrentShard sys hmacSha256) w
      (fun _ t => Tracked W start t ∧ t.streamOpen = false ∧
        (w.streamOpen = true ∨ w.currentPath = [] → t.currentPath = []))
      (fun _ t => Tracked W start t) := by
  unfold closeCurrentShard
  rw [ends_get_bind]
  by_cases isClosed : ¬w.streamOpen = true
  · rw [if_pos isClosed, ends_pure]
    refine ⟨tracked, by simpa using isClosed, ?_⟩
    rintro (isOpen | unnamed)
    · exact absurd isOpen isClosed
    · exact unnamed
  have isOpen := not_not.mp isClosed
  obtain ⟨named, fresh, headers⟩ := tracked.current isOpen
  have stopped := tracked.withoutStream
  rw [if_neg isClosed, ends_bind, ends_set]
  by_cases empty : w.currentChunkCount = 0
  · rw [if_pos empty]
    unfold removeEmptyShard
    apply ends_fileOp sys
    · intro message
      exact stopped.failed
    · rw [ends_modify]
      exact ⟨tracked.remove isOpen, rfl, fun _ => rfl⟩
  · rw [if_neg empty]
    obtain ⟨content, here, long⟩ := headers empty
    have member := mem_recorded_current named
    apply ends_must sys
    · exact stopped.failed
    have opened := stopped.look (.reopen w.currentPath) (fun _ => rfl) member rfl
    apply Ends.bind (rewriteShardHeader_tracked sys hmacSha256 opened
      member here long _ _ _ _ _)
    rintro _ _ ⟨bytes, rfl, patched⟩
    rw [ends_modify]
    refine ⟨patched.congr rfl ?_ ?_ fun isOpen => (by cases isOpen), rfl, fun _ => rfl⟩
    · show (w.finalizedShards ++ [w.currentShard]).map FinalizedShard.path ++ [] =
        w.finalizedShards.map FinalizedShard.path ++
          if w.currentPath = [] then [] else [w.currentPath]
      rw [if_neg named, List.append_nil, List.map_append]
      rfl
    · intro s inside
      rcases List.mem_append.mp inside with before | last
      · exact patched.finalized s before
      · rw [List.mem_singleton.mp last]
        obtain ⟨grown, there, longer⟩ := DiskOp.grows
          (.patch w.currentPath 192 bytes) (fun _ => rfl) here
        exact ⟨grown, there, long.trans longer⟩

theorem openShardFor_tracked (ready : Ready W start w) (header : ChunkFrameHeaderV1)
    (frameSize : UInt64) :
    Ends (openShardFor sys hmacSha256 header frameSize) w
      (fun _ t => Ready W start t ∧ t.streamOpen = true) (fun _ t => Tracked W start t) := by
  unfold openShardFor
  rw [ends_get_bind]
  by_cases isClosed : ¬w.streamOpen = true
  · rw [if_pos isClosed]
    have closed : w.streamOpen = false := by simpa using isClosed
    exact openNextShard_tracked sys ready.toTracked (ready.idle closed) closed _
  rw [if_neg isClosed]
  have isOpen := not_not.mp isClosed
  by_cases full : w.currentPayloadOffset > w.options.maxShardPayloadLen - frameSize
  · rw [if_pos full]
    apply Ends.bind (closeCurrentShard_tracked sys hmacSha256 ready.toTracked)
    rintro _ t ⟨tracked, closed, unnamed⟩
    exact openNextShard_tracked sys tracked (unnamed (.inl isOpen)) closed _
  · rw [if_neg full, ends_pure]
    exact ⟨ready, isOpen⟩

theorem closeCurrentShard_ready (ready : Ready W start w) :
    Ends (closeCurrentShard sys hmacSha256) w (fun _ t => Ready W start t)
      (fun _ t => Tracked W start t) := by
  apply (closeCurrentShard_tracked sys hmacSha256 ready.toTracked).mono
  · rintro _ t ⟨tracked, closed, unnamed⟩
    refine ⟨tracked, fun isOpen => ?_, fun _ => unnamed ?_⟩
    · exact absurd (closed.symm.trans isOpen) Bool.false_ne_true
    · cases isOpen : w.streamOpen with
      | true => exact .inl rfl
      | false => exact .inr (ready.idle isOpen)
  · exact fun _ _ => id

theorem closeWhenFull_tracked (ready : Ready W start w) :
    Ends (closeWhenFull sys hmacSha256) w (fun _ t => Ready W start t)
      (fun _ t => Tracked W start t) := by
  unfold closeWhenFull
  rw [ends_get_bind]
  split
  · exact closeCurrentShard_ready sys hmacSha256 ready
  · rw [ends_pure]
    exact ready

theorem appendFrame_tracked (ready : Ready W start w) (isOpen : w.streamOpen = true)
    {header : ChunkFrameHeaderV1} {body : Bytes} (member : W ⟨header, body⟩)
    (frameSize : UInt64) :
    Ends (appendFrame sys hmacSha256 header (encodeChunkFrameHeaderV1 header) body frameSize) w
      (fun _ t => Ready W start t) (fun _ t => Tracked W start t) := by
  obtain ⟨content, here, whole⟩ := ready.whole isOpen
  have half := ready.toTracked.append isOpen here _ (whole.header member)
  have half_files := w.disk.files_append w.currentPath (encodeChunkFrameHeaderV1 header) _ here
  have half_here : (w.disk.done (.append w.currentPath (encodeChunkFrameHeaderV1 header))).files
      w.currentPath = some (content ++ encodeChunkFrameHeaderV1 header) := by
    rw [half_files, Function.update_self]
  have grown := whole.frame member
  have full := half.append isOpen half_here _ grown.shape
  have full_files := Disk.files_append _ w.currentPath body _ half_here
  unfold appendFrame
  rw [ends_get_bind, ends_throwIf_bind]
  by_cases other : header.shardIndex ≠ w.currentShardIndex
  · rw [if_pos other]
    exact ready.toTracked
  rw [if_neg other]
  refine writeRaw_tracked sys ready.toTracked _ (fun _ _ => id) fun _ => ?_
  refine writeRaw_tracked sys half _ (fun _ _ => id) fun _ => ?_
  rw [ends_modify_bind]
  have there : ((w.disk.done (.append w.currentPath (encodeChunkFrameHeaderV1 header))).done
      (.append w.currentPath body)).files w.currentPath =
      some (content ++ encodeChunkFrameHeaderV1 header ++ body) :=
    (congrFun full_files w.currentPath).trans (Function.update_self ..)
  obtain ⟨named, fresh, -⟩ := full.current isOpen
  refine Ends.bind (closeWhenFull_tracked sys hmacSha256 ⟨full.congr rfl rfl full.finalized
    fun _ => ⟨named, fresh, fun _ => ⟨_, there, grown.length⟩⟩, fun _ => ⟨_, there, grown⟩, ?_⟩) ?_
  · exact fun isClosed => absurd (isClosed.symm.trans isOpen) Bool.false_ne_true
  · intro _ t done
    rw [ends_pure]
    exact done

theorem body_length {header : ChunkFrameHeaderV1} {frameSize : UInt64} {body : Bytes}
    (sized : chunkFrameV1EncodedSize header = .ok frameSize)
    (len : body.length = (frameSize - 40).toNat) :
    body.length = header.ciphertextLen.toNat + header.tagLen.toNat := by
  unfold chunkFrameV1EncodedSize at sized
  obtain ⟨_, -, sized⟩ := (Result.bind_eq_ok ..).mp sized
  have total := (chunkFrameV1EncodedSizeFromParams_ok ..).mp sized
  rw [len, UInt64.toNat_sub_of_le _ _ (UInt64.le_iff_toNat_le.mpr
    (by rw [total, show (40 : UInt64).toNat = 40 from rfl]; omega)), total,
    show (40 : UInt64).toNat = 40 from rfl]
  omega

theorem serializeChunkFrameHeaderV1_eq {header : ChunkFrameHeaderV1} {bytes : Bytes}
    (serialized : serializeChunkFrameHeaderV1 header = .ok bytes) :
    encodeChunkFrameHeaderV1 header = bytes := by
  unfold serializeChunkFrameHeaderV1 at serialized
  obtain ⟨_, -, same⟩ := (Result.bind_eq_ok ..).mp serialized
  exact Except.ok.inj same

theorem writeChunkFrame_tracked (ready : Ready W start w) (header : ChunkFrameHeaderV1)
    (headerBytes body : Bytes)
    (member : body.length = header.ciphertextLen.toNat + header.tagLen.toNat → W ⟨header, body⟩) :
    Ends (writeChunkFrame sys hmacSha256 header headerBytes body) w
      (fun _ t => Ready W start t) (fun _ t => Tracked W start t) := by
  have tracked := ready.toTracked
  unfold writeChunkFrame
  rw [ends_get_bind, ends_throwIf_bind]
  by_cases finished : w.finished = true
  · rw [if_pos finished]
    exact tracked
  rw [if_neg finished, ends_throwIf_bind]
  by_cases index : header.globalChunkIndex ≠ w.nextExpectedChunkIndex
  · rw [if_pos index]
    exact tracked
  rw [if_neg index, ends_throwIf_bind]
  by_cases large : header.plaintextLen > w.options.globalHeader.chunkPlainSize
  · rw [if_pos large]
    exact tracked
  rw [if_neg large, ends_lift_bind]
  refine ⟨fun expected serialized => ?_, fun _ _ => tracked⟩
  rw [ends_throwIf_bind]
  by_cases wrong : headerBytes ≠ expected
  · rw [if_pos wrong]
    exact tracked
  rw [if_neg wrong, ends_lift_bind]
  refine ⟨fun frameSize sized => ?_, fun _ _ => tracked⟩
  rw [ends_throwIf_bind]
  by_cases length : body.length ≠ (frameSize - 40).toNat
  · rw [if_pos length]
    exact tracked
  rw [if_neg length, ends_throwIf_bind]
  by_cases exceeds : frameSize > w.options.maxShardPayloadLen
  · rw [if_pos exceeds]
    exact tracked
  rw [if_neg exceeds, not_not.mp wrong, ← serializeChunkFrameHeaderV1_eq serialized]
  apply Ends.bind (openShardFor_tracked sys hmacSha256 ready header frameSize)
  rintro _ t ⟨opened, isOpen⟩
  exact appendFrame_tracked sys hmacSha256 opened isOpen
    (member (body_length sized (not_not.mp length))) frameSize

theorem finishShard_tracked (tracked : Tracked W start w) (g : GlobalPublicHeaderV1)
    {s : FinalizedShard} (member : s ∈ w.finalizedShards) :
    Ends (finishShard sys hmacSha256 g s) w (fun _ t => StillTracked W start w t)
      (fun _ t => Tracked W start t) := by
  have known := mem_recorded_finalized member
  obtain ⟨content, here, long⟩ := tracked.finalized s member
  have opened := tracked.look (.reopen s.path) (fun _ => rfl) known rfl
  have patched := opened.patch known here long 0 (serializeGlobalPublicHeader g) (by
      rw [serializeGlobalPublicHeader_length]
      decide)
  obtain ⟨grown, there, longer⟩ := DiskOp.grows
    (.patch s.path 0 (serializeGlobalPublicHeader g)) (fun _ => rfl) here
  unfold finishShard
  apply ends_must sys
  · exact tracked.failed
  apply ends_must sys
  · exact opened.failed
  apply Ends.bind (rewriteShardHeader_tracked sys hmacSha256 patched known there
    (long.trans longer) _ _ _ _ _)
  rintro _ _ ⟨bytes, rfl, rewritten⟩
  apply (flush_tracked sys rewritten s.path).mono
  · rintro _ _ ⟨disk, rfl, flushed⟩
    exact ⟨disk, rfl, flushed⟩
  · exact fun _ _ => id

theorem finishShards_tracked (tracked : Tracked W start w) (g : GlobalPublicHeaderV1)
    (shards : List FinalizedShard) (known : ∀ s ∈ shards, s ∈ w.finalizedShards) :
    Ends (finishShards sys hmacSha256 g shards) w (fun _ t => StillTracked W start w t)
      (fun _ t => Tracked W start t) := by
  induction shards generalizing w with
  | nil =>
    unfold finishShards
    rw [ends_pure]
    exact ⟨w.disk, rfl, tracked⟩
  | cons s shards ih =>
    unfold finishShards
    apply Ends.bind (finishShard_tracked sys hmacSha256 tracked g (known s List.mem_cons_self))
    rintro _ _ ⟨disk, rfl, patched⟩
    apply (ih patched fun r member => known r (List.mem_cons_of_mem _ member)).mono
    · rintro _ _ ⟨disk', rfl, done⟩
      exact ⟨disk', rfl, done⟩
    · exact fun _ _ => id

/-- `finish` keeps track of the files, also when it is called after a failure. -/
theorem finish_tracked (tracked : Tracked W start w) :
    Ends (finish sys hmacSha256) w
      (fun _ t => Tracked W start t ∧ (Ready W start w → Ready W start t))
      (fun _ t => Tracked W start t) := by
  unfold finish
  rw [ends_get_bind]
  by_cases finished : w.finished = true
  · rw [if_pos finished, ends_pure]
    exact ⟨tracked, id⟩
  rw [if_neg finished]
  apply Ends.bind (closeCurrentShard_tracked sys hmacSha256 tracked)
  rintro _ v ⟨closed, isClosed, unnamed⟩
  rw [ends_get_bind, ends_lift_bind]
  refine ⟨fun finalGlobal _ => ?_, fun _ _ => closed⟩
  apply Ends.bind (finishShards_tracked sys hmacSha256 closed finalGlobal v.finalizedShards
    fun _ => id)
  rintro _ _ ⟨disk, rfl, patched⟩
  apply Ends.bind (flush_tracked sys patched v.options.outputDir)
  rintro _ _ ⟨disk', rfl, flushed⟩
  have last : Tracked W start { v.withDisk disk' with finished := true } :=
    flushed.congr rfl rfl flushed.finalized fun isOpen =>
      absurd (isClosed.symm.trans isOpen) Bool.false_ne_true
  rw [ends_modify]
  refine ⟨last, fun ready => ⟨last, fun isOpen => ?_, fun _ => unnamed ?_⟩⟩
  · exact absurd (isClosed.symm.trans isOpen) Bool.false_ne_true
  · cases isOpen : w.streamOpen with
    | true => exact .inl rfl
    | false => exact .inr (ready.idle isOpen)

end Steps
end Bseal.Io
