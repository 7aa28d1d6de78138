import Bseal.Io.ShardWriter

/-! Every shard has a name that was drawn, and `finish` leaves no stream open. -/
namespace Bseal.Io
open Effect Platform

section Keeps
variable (sys : System) (hmacSha256 : Bytes → Bytes → Bytes32) {P : ShardWriter → Prop}
  {w : ShardWriter}

structure Unmoved (P : ShardWriter → Prop) : Prop where
  disk : ∀ w disk, P w → P (w.withDisk disk)
  good : ∀ w good, P w → P { w with streamGood := good }

theorem keeps_fileOp (unmoved : Unmoved P) (op : DiskOp) (here : P w) :
    Keeps P (fileOp sys op) w := by
  unfold fileOp
  refine Keeps.get_bind ?_
  split
  · exact Keeps.set_bind w (.of_pure _ (unmoved.disk w _ here))
  · exact Keeps.set_bind w (.of_pure _ (unmoved.disk w _ here))

theorem keeps_must (unmoved : Unmoved P) (op : DiskOp) (e : Failure) (here : P w) :
    Keeps P (must sys op e) w :=
  (keeps_fileOp sys unmoved op here).bind fun _ _ there => .of_throwIf there

theorem keeps_writeRaw (unmoved : Unmoved P) (bytes : Bytes) (here : P w) :
    Keeps P (writeRaw sys bytes) w := by
  unfold writeRaw
  refine Keeps.get_bind (Keeps.throwIf_bind here fun _ => ?_)
  refine (keeps_fileOp sys unmoved _ here).bind fun fault t there => ?_
  exact Keeps.modify_bind (.of_throwIf (unmoved.good t _ there))

theorem keeps_rewriteShardHeader (unmoved : Unmoved P) (path : Bytes) (g : GlobalPublicHeaderV1)
    (shardIndex : UInt32) (firstChunkIndex chunkCount payloadLen : UInt64) (here : P w) :
    Keeps P (rewriteShardHeader sys hmacSha256 path g shardIndex firstChunkIndex chunkCount
      payloadLen) w := by
  unfold rewriteShardHeader
  exact Keeps.get_bind (Keeps.lift_bind here fun _ _ => keeps_must sys unmoved _ _ here)

theorem keeps_flush (unmoved : Unmoved P) (path : Bytes) (here : P w) :
    Keeps P (flush sys path) w := by
  unfold flush
  refine Keeps.get_bind ?_
  split
  · exact .of_pure _ here
  · refine (keeps_fileOp sys unmoved _ here).bind fun opening t there => ?_
    cases opening with
    | some message => exact .of_throwIf there
    | none =>
      refine (keeps_fileOp sys unmoved _ there).bind fun syncing u there => ?_
      cases syncing with
      | some message => exact .of_throwIf there
      | none => exact .of_pure _ there

theorem keeps_finishShards (unmoved : Unmoved P) (g : GlobalPublicHeaderV1)
    (shards : List FinalizedShard) (here : P w) :
    Keeps P (finishShards sys hmacSha256 g shards) w := by
  induction shards generalizing w with
  | nil => exact .of_pure _ here
  | cons s shards ih =>
    unfold finishShards finishShard
    refine Keeps.bind ?_ fun _ _ there => ih there
    refine (keeps_must sys unmoved _ _ here).bind fun _ _ there => ?_
    refine (keeps_must sys unmoved _ _ there).bind fun _ _ there => ?_
    refine (keeps_rewriteShardHeader sys hmacSha256 unmoved _ _ _ _ _ _ there).bind
      fun _ _ there => ?_
    exact keeps_flush sys unmoved _ there

end Keeps

section Names
variable (sys : System) (hmacSha256 : Bytes → Bytes → Bytes32) {o : ShardWriterOptions}
  {Drawn : Bytes → Prop} {w : ShardWriter}

structure Named (o : ShardWriterOptions) (Drawn : Bytes → Prop) (w : ShardWriter) : Prop where
  options : w.options = o
  finalized : ∀ s ∈ w.finalizedShards, Drawn s.path
  current : w.streamOpen = true → Drawn w.currentPath

theorem named_unmoved : Unmoved (Named o Drawn) :=
  ⟨fun _ _ named => ⟨named.options, named.finalized, named.current⟩,
    fun _ _ named => ⟨named.options, named.finalized, named.current⟩⟩

theorem named_closed_unmoved : Unmoved fun w => Named o Drawn w ∧ w.streamOpen = false :=
  ⟨fun w disk here => ⟨named_unmoved.disk w disk here.1, here.2⟩,
    fun w good here => ⟨named_unmoved.good w good here.1, here.2⟩⟩

theorem Named.closeCurrentShard (named : Named o Drawn w) :
    Ends (Io.closeCurrentShard sys hmacSha256) w
      (fun _ t => Named o Drawn t ∧ t.streamOpen = false) (fun _ t => Named o Drawn t) := by
  unfold Io.closeCurrentShard
  rw [ends_get_bind]
  by_cases isClosed : ¬w.streamOpen = true
  · rw [if_pos isClosed]
    exact ⟨named, Bool.not_eq_true _ ▸ isClosed⟩
  have isOpen := not_not.mp isClosed
  have stopped : Named o Drawn { w with streamOpen := false } ∧ false = false :=
    ⟨⟨named.options, named.finalized, fun isOpen => by cases isOpen⟩, rfl⟩
  rw [if_neg isClosed, ends_set_bind]
  have unmoved := @named_closed_unmoved o Drawn
  split
  · unfold removeEmptyShard
    refine Ends.bind (Ends.mono (keeps_fileOp sys unmoved _ stopped) (fun _ _ => id)
      fun _ _ => And.left) fun fault t there => ?_
    cases fault with
    | some message => exact there.1
    | none =>
      exact ⟨⟨there.1.options, there.1.finalized, fun isOpen =>
        absurd (there.2.symm.trans isOpen) Bool.false_ne_true⟩, there.2⟩
  · refine Ends.bind (Ends.mono (keeps_must sys unmoved _ _ stopped) (fun _ _ => id)
      fun _ _ => And.left) fun _ t there => ?_
    refine Ends.bind (Ends.mono (keeps_rewriteShardHeader sys hmacSha256 unmoved _ _ _ _ _ _ there)
      (fun _ _ => id) fun _ _ => And.left) fun _ u there => ?_
    rw [ends_modify]
    refine ⟨⟨there.1.options, fun s member => ?_, fun isOpen => ?_⟩, there.2⟩
    · rcases List.mem_append.mp member with before | last
      · exact there.1.finalized s before
      · rw [List.mem_singleton.mp last]
        exact named.current isOpen
    · exact absurd (there.2.symm.trans isOpen) Bool.false_ne_true

variable (drawn : ∀ k, Drawn (joinPath o.outputDir (sys.names k ++ o.filenameExtension)))
include drawn

theorem Named.tryNames (attempts : Nat) (firstChunkIndex : UInt64) (named : Named o Drawn w) :
    Keeps (Named o Drawn) (Io.tryNames sys attempts firstChunkIndex) w := by
  induction attempts generalizing w with
  | zero => exact .of_throw _ named
  | succ attempts ih =>
    unfold Io.tryNames
    refine Keeps.get_bind (Keeps.set_bind w ?_)
    have there := named_unmoved.disk w w.disk.draw named
    split
    · exact ih there
    · unfold openCandidate
      refine (keeps_fileOp sys named_unmoved _ there).bind fun fault t there => ?_
      refine Keeps.modify_bind (Keeps.throwIf_bind (named_unmoved.good t _ there) fun _ => ?_)
      refine Keeps.modify_bind (Keeps.get_bind ?_)
      have opened : Named o Drawn (({ t with streamGood := fault.isNone } : ShardWriter).opened
          (w.candidate sys w.disk.drawn) firstChunkIndex) := by
        refine ⟨there.options, there.finalized, fun _ => ?_⟩
        change Drawn (w.candidate sys w.disk.drawn)
        rw [ShardWriter.candidate, named.options]
        exact drawn _
      exact (keeps_writeRaw sys named_unmoved _ opened).bind fun _ _ there =>
        keeps_writeRaw sys named_unmoved _ there

theorem Named.openNextShard (firstChunkIndex : UInt64) (named : Named o Drawn w) :
    Keeps (Named o Drawn) (Io.openNextShard sys firstChunkIndex) w := by
  unfold Io.openNextShard
  exact Keeps.get_bind (Keeps.throwIf_bind named fun _ =>
    named.tryNames sys drawn 128 firstChunkIndex)

theorem Named.writeChunkFrame (header : ChunkFrameHeaderV1) (headerBytes body : Bytes)
    (named : Named o Drawn w) :
    Keeps (Named o Drawn) (Io.writeChunkFrame sys hmacSha256 header headerBytes body) w := by
  have close : ∀ {t : ShardWriter}, Named o Drawn t →
      Keeps (Named o Drawn) (Io.closeCurrentShard sys hmacSha256) t := fun there =>
    (there.closeCurrentShard sys hmacSha256).mono (fun _ _ => And.left) fun _ _ => id
  unfold Io.writeChunkFrame
  refine Keeps.get_bind (Keeps.throwIf_bind named fun _ => Keeps.throwIf_bind named fun _ =>
    Keeps.throwIf_bind named fun _ => Keeps.lift_bind named fun _ _ =>
    Keeps.throwIf_bind named fun _ => Keeps.lift_bind named fun frameSize _ =>
    Keeps.throwIf_bind named fun _ => Keeps.throwIf_bind named fun _ => ?_)
  refine Keeps.bind (?_ : Keeps (Named o Drawn) (openShardFor sys hmacSha256 header frameSize) w)
    fun _ t there => ?_
  · unfold openShardFor
    refine Keeps.get_bind ?_
    split
    · exact named.openNextShard sys drawn _
    · split
      · exact (close named).bind fun _ _ there => there.openNextShard sys drawn _
      · exact .of_pure _ named
  · unfold appendFrame
    refine Keeps.get_bind (Keeps.throwIf_bind there fun _ => ?_)
    refine (keeps_writeRaw sys named_unmoved _ there).bind fun _ _ there => ?_
    refine (keeps_writeRaw sys named_unmoved _ there).bind fun _ u there => ?_
    refine Keeps.modify_bind ?_
    have written : Named o Drawn (u.frameWritten header frameSize) :=
      ⟨there.options, there.finalized, there.current⟩
    refine Keeps.bind (?_ : Keeps (Named o Drawn) (closeWhenFull sys hmacSha256) _)
      fun _ _ there => .of_pure _ there
    unfold closeWhenFull
    refine Keeps.get_bind ?_
    split
    · exact close written
    · exact .of_pure _ written

omit drawn in
theorem Named.finish (named : Named o Drawn w) (running : w.finished = false) :
    Ends (Io.finish sys hmacSha256) w (fun _ t => Named o Drawn t ∧ t.streamOpen = false)
      (fun _ t => Named o Drawn t) := by
  have unmoved := @named_closed_unmoved o Drawn
  unfold Io.finish
  rw [ends_get_bind, if_neg (by rw [running]; exact Bool.false_ne_true)]
  refine Ends.bind (named.closeCurrentShard sys hmacSha256) fun _ t there => ?_
  rw [ends_get_bind, ends_lift_bind]
  refine ⟨fun g _ => ?_, fun _ _ => there.1⟩
  refine Ends.bind (Ends.mono (keeps_finishShards sys hmacSha256 unmoved g _ there) (fun _ _ => id)
    fun _ _ => And.left) fun _ u there => ?_
  refine Ends.bind (Ends.mono (keeps_flush sys unmoved _ there) (fun _ _ => id)
    fun _ _ => And.left) fun _ v there => ?_
  rw [ends_modify]
  exact ⟨⟨there.1.options, there.1.finalized, there.1.current⟩, there.2⟩

end Names
end Bseal.Io
