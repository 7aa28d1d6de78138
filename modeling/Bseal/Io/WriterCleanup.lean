import Bseal.Io.HeaderCounts
import Bseal.Io.WriterTrace

/-! `abort_and_remove_created_shards_noexcept` after any calls of the writer: the files it has
created are those it knows, so removing those restores the directory. -/
namespace Bseal.Io
open Effect Platform

/-- A public call of the writer; rolling over to a new shard is part of `write_chunk_frame`. -/
inductive WriterCall where
  | plan (chunkIndex plaintextLen ciphertextLen : UInt64) (tagLen : UInt16) (finalChunk : Bool)
  | write (header : ChunkFrameHeaderV1) (headerBytes ciphertextAndTag : Bytes)
  | finish

section Calls
variable (sys : System) (hmacSha256 : Bytes → Bytes → Bytes32)

def WriterCall.run : WriterCall → Effect Failure (ShardWriter × ShardPlanner) Unit
  | .plan chunkIndex plaintextLen ciphertextLen tagLen finalChunk => do
    let (w, planner) ← get
    let (_, planned) ← lift (planChunkFrame w.options w.finished chunkIndex plaintextLen
      ciphertextLen tagLen finalChunk planner)
    set (w, planned)
  | .write header headerBytes ciphertextAndTag =>
    zoom Prod.fst (fun w s => (w, s.2)) id do
      let _ ← writeChunkFrame sys hmacSha256 header headerBytes ciphertextAndTag
  | .finish => zoom Prod.fst (fun w s => (w, s.2)) id (Io.finish sys hmacSha256)

def runCalls : List WriterCall → Effect Failure (ShardWriter × ShardPlanner) Unit
  | [] => pure ()
  | call :: calls => do
    call.run sys hmacSha256
    runCalls calls

/-- The writer when the calls are over, or when one has thrown. -/
def ShardWriter.after (w : ShardWriter) (calls : List WriterCall) : ShardWriter :=
  (exec (runCalls sys hmacSha256 calls) (w, .fresh)).2.1

variable {W : Frame → Prop} {start : Disk} {w : ShardWriter}

theorem ends_zoom_fst {x : Effect Failure ShardWriter Unit} {s : ShardWriter × ShardPlanner}
    {good : ShardWriter → Prop} {bad : ShardWriter → Prop}
    (ends : Ends x s.1 (fun _ t => good t) (fun _ t => bad t)) :
    Ends (zoom Prod.fst (fun w s => (w, s.2)) id x) s
      (fun _ (t : ShardWriter × ShardPlanner) => good t.1) (fun _ t => bad t.1) := by
  unfold Ends at ends ⊢
  rw [exec_zoom]
  rcases ran : exec x s.1 with ⟨e | u, t⟩
  · rw [ran] at ends
    exact ends
  · rw [ran] at ends
    exact ends

def WriterCall.frame : WriterCall → Option Frame
  | .plan _ _ _ _ _ => none
  | .write header _ ciphertextAndTag => some ⟨header, ciphertextAndTag⟩
  | .finish => none

def Frame.Sized (f : Frame) : Prop :=
  f.body.length = f.header.ciphertextLen.toNat + f.header.tagLen.toNat

theorem WriterCall.run_tracked (call : WriterCall) {s : ShardWriter × ShardPlanner}
    (member : ∀ f ∈ call.frame, f.Sized → W f) (ready : Ready W start s.1) :
    Ends (call.run sys hmacSha256) s (fun _ t => Ready W start t.1)
      (fun _ t => Tracked W start t.1) := by
  cases call with
  | plan chunkIndex plaintextLen ciphertextLen tagLen finalChunk =>
    unfold WriterCall.run
    rw [ends_get_bind]
    simp only
    rw [ends_lift_bind]
    exact ⟨fun planned _ => ready, fun _ _ => ready.toTracked⟩
  | write header headerBytes ciphertextAndTag =>
    refine ends_zoom_fst ?_
    apply Ends.bind (writeChunkFrame_tracked sys hmacSha256 ready header headerBytes
      ciphertextAndTag (member _ rfl))
    exact fun _ _ => id
  | finish =>
    refine ends_zoom_fst ?_
    apply (finish_tracked sys hmacSha256 ready.toTracked).mono
    · exact fun _ _ done => done.2 ready
    · exact fun _ _ => id

theorem runCalls_tracked (calls : List WriterCall) {s : ShardWriter × ShardPlanner}
    (member : ∀ f ∈ calls.filterMap WriterCall.frame, f.Sized → W f) (ready : Ready W start s.1) :
    Ends (runCalls sys hmacSha256 calls) s (fun _ t => Ready W start t.1)
      (fun _ t => Tracked W start t.1) := by
  induction calls generalizing s with
  | nil =>
    unfold runCalls
    rw [ends_pure]
    exact ready
  | cons call calls ih =>
    have first : ∀ f ∈ call.frame, f.Sized → W f := fun f here =>
      member f (List.mem_filterMap.mpr ⟨call, List.mem_cons_self, here⟩)
    have later : ∀ f ∈ calls.filterMap WriterCall.frame, f.Sized → W f := fun f inside =>
      let ⟨other, among, here⟩ := List.mem_filterMap.mp inside
      member f (List.mem_filterMap.mpr ⟨other, List.mem_cons_of_mem _ among, here⟩)
    unfold runCalls
    exact Ends.bind (call.run_tracked sys hmacSha256 first ready) fun _ _ next => ih later next

theorem fresh_ready (W : Frame → Prop) (o : ShardWriterOptions) (start : Disk) :
    Ready W start (.fresh o (start.done (.createDirectories o.outputDir))) := by
  have shaped : Shaped W start.files start.files := by
    intro path content absent here
    rw [absent] at here
    cases here
  have ran := (ran_refl (P := Shaped W start.files) shaped).done
    (.createDirectories o.outputDir) shaped trivial
  refine ⟨⟨⟨_, ran, fun path => Iff.rfl⟩, fun _ member => ?_, fun isOpen => ?_⟩, fun isOpen => ?_,
    fun _ => rfl⟩
  · cases member
  · cases isOpen
  · cases isOpen

theorem after_tracked (W : Frame → Prop) (o : ShardWriterOptions) (start : Disk)
    (calls : List WriterCall) (member : ∀ f ∈ calls.filterMap WriterCall.frame, f.Sized → W f) :
    Tracked W start ((ShardWriter.fresh o
      (start.done (.createDirectories o.outputDir))).after sys hmacSha256 calls) := by
  have ends := runCalls_tracked sys hmacSha256 calls (s := (_, .fresh)) member
    (fresh_ready W o start)
  exact (ends.mono (fun _ _ => Ready.toTracked) fun _ _ => id).final

variable {sys}

theorem exec_removeQuietly (path : Bytes) (calm : sys.faults w.disk.attempts = none) :
    exec (removeQuietly sys path) w = (.ok (), w.withDisk (w.disk.done (.remove path))) := by
  have fault : w.disk.fault sys (.remove path) = none := calm
  unfold removeQuietly fileOp
  rw [bind_assoc, exec_get_bind, fault]
  rfl

def Without (files : Files) (gone : List Bytes) : Files := fun path =>
  if path ∈ gone then none else files path

theorem without_cons (files : Files) (path : Bytes) (gone : List Bytes) :
    Without (Function.update files path none) gone = Without files (path :: gone) := by
  funext other
  unfold Without
  by_cases same : other = path
  · rw [same, Function.update_self, if_pos List.mem_cons_self, ite_self]
  · simp only [Function.update_of_ne same, List.mem_cons, same, false_or]

theorem exec_removeShards (shards : List FinalizedShard)
    (calm : ∀ k, w.disk.attempts ≤ k → k < w.disk.attempts + shards.length → sys.faults k = none) :
    ∃ disk, exec (removeShards sys shards) w = (.ok (), w.withDisk disk) ∧
      disk.files = Without w.disk.files (shards.map FinalizedShard.path) := by
  induction shards generalizing w with
  | nil => exact ⟨w.disk, rfl, rfl⟩
  | cons s shards ih =>
    have first := exec_removeQuietly (w := w) s.path
      (calm _ le_rfl (by rw [List.length_cons]; omega))
    obtain ⟨disk, ran, files⟩ := ih (w := w.withDisk (w.disk.done (.remove s.path)))
      fun k after before => calm k (Nat.le_of_succ_le after) (by
        rw [List.length_cons]
        exact before.trans_eq (Nat.succ_add_eq_add_succ _ _))
    refine ⟨disk, ?_, ?_⟩
    · rw [removeShards, exec_bind_of_ok first, ran]
      rfl
    · rw [files, List.map_cons, ← without_cons]
      rfl

theorem exec_removeCurrent (calm : w.currentPath ≠ [] → sys.faults w.disk.attempts = none) :
    ∃ disk, exec (removeCurrent sys) w = (.ok (), { w with currentPath := [], disk := disk }) ∧
      disk.files = Without w.disk.files (if w.currentPath = [] then [] else [w.currentPath]) ∧
      disk.attempts = w.disk.attempts + if w.currentPath = [] then 0 else 1 := by
  unfold removeCurrent
  rw [exec_get_bind]
  by_cases unnamed : w.currentPath = []
  · rw [if_pos unnamed, if_pos unnamed, if_pos unnamed, exec_pure]
    refine ⟨w.disk, ?_, rfl, rfl⟩
    rw [← unnamed]
  · rw [if_neg unnamed, if_neg unnamed, if_neg unnamed,
      exec_bind_of_ok (exec_removeQuietly w.currentPath (calm unnamed))]
    exact ⟨_, rfl, without_cons w.disk.files w.currentPath [], rfl⟩

/-- The abort never throws; when its removals succeed, the known files are gone. -/
theorem exec_abort (calm : ∀ k, w.disk.attempts ≤ k →
      k < w.disk.attempts + w.recorded.length → sys.faults k = none) :
    ∃ disk, exec (abortAndRemoveCreatedShardsNoexcept sys) w = (.ok (), { w with
        streamOpen := false
        currentPath := []
        finalizedShards := []
        disk := disk }) ∧
      ∀ path, disk.files path = if path ∈ w.recorded then none else w.disk.files path := by
  have length : w.recorded.length =
      w.finalizedShards.length + if w.currentPath = [] then 0 else 1 := by
    rw [ShardWriter.recorded, List.length_append, List.length_map]
    split
    · rfl
    · rfl
  obtain ⟨disk, first, gone, attempts⟩ := exec_removeCurrent
    (w := { w with streamOpen := false })
    fun named => calm _ le_rfl (by
      rw [length, if_neg named]
      exact Nat.lt_add_of_pos_right (Nat.succ_pos _))
  obtain ⟨disk', rest, gone'⟩ := exec_removeShards
    (w := { w with streamOpen := false, currentPath := [], disk := disk }) w.finalizedShards
    fun k after before => calm k ((Nat.le_add_right _ _).trans (attempts ▸ after)) (by
      rw [length, Nat.add_comm w.finalizedShards.length, ← Nat.add_assoc]
      exact attempts ▸ before)
  refine ⟨disk', ?_, fun path => ?_⟩
  · unfold abortAndRemoveCreatedShardsNoexcept
    rw [exec_bind_of_ok (exec_modify _ w), exec_bind_of_ok first, exec_get_bind,
      exec_bind_of_ok rest]
    rfl
  · rw [gone', ShardWriter.recorded, Without]
    simp only [gone, Without, List.mem_append]
    by_cases shard : path ∈ w.finalizedShards.map FinalizedShard.path
    · rw [if_pos shard, if_pos (.inl shard)]
    · rw [if_neg shard]
      simp only [shard, false_or]

theorem flush_files (path : Bytes) :
    Ends (flush sys path) w (fun _ t => t.disk.files = w.disk.files)
      (fun _ t => t.disk.files = w.disk.files) := by
  unfold flush
  rw [ends_get_bind]
  split
  · exact rfl
  apply ends_fileOp sys
  · intro message
    simp only
    rw [ends_throwIf]
    split <;> rfl
  · apply ends_fileOp sys
    · intro message
      simp only
      rw [ends_throwIf]
      split <;> rfl
    · exact rfl

/-- With nothing open and nothing recorded, the destructor leaves the files alone. -/
theorem destroy_files (isClosed : w.streamOpen = false) (nothing : w.finalizedShards = []) :
    (w.destroy sys hmacSha256).disk.files = w.disk.files := by
  suffices closed : Ends (finish sys hmacSha256) w (fun _ t => t.disk.files = w.disk.files)
      (fun _ t => t.disk.files = w.disk.files) from closed.final
  unfold finish
  rw [ends_get_bind]
  split
  · exact rfl
  rw [ends_bind, Ends, closeCurrentShard_idle sys hmacSha256 isClosed]
  simp only
  rw [ends_get_bind, ends_lift_bind]
  refine ⟨fun g _ => ?_, fun _ _ => rfl⟩
  rw [nothing, finishShards, ends_bind, ends_pure]
  apply Ends.bind (flush_files w.options.outputDir)
  intro _ t same
  rw [ends_modify]
  exact same

variable (sys)

/-- After any calls up to the first that throws, the files the writer has created and not removed
are the recorded shards and the current one, and it has touched no other; once they are
removed, the destructor leaves the files as they were before the writer was there. -/
theorem abort_cleans_up {o : ShardWriterOptions} {start : Disk} {w : ShardWriter}
    (made : makeShardWriter sys o start = .ok w) (calls : List WriterCall) :
    (∃ ops, (w.after sys hmacSha256 calls).disk.log = start.log ++ ops ∧
        Respect start.files [] ops ∧
        ∀ path, path ∈ leftOver ops ↔ path ∈ (w.after sys hmacSha256 calls).recorded) ∧
      ((∀ k, (w.after sys hmacSha256 calls).disk.attempts ≤ k →
          k < (w.after sys hmacSha256 calls).disk.attempts +
            (w.after sys hmacSha256 calls).recorded.length → sys.faults k = none) →
        ((exec (abortAndRemoveCreatedShardsNoexcept sys)
          (w.after sys hmacSha256 calls)).2.destroy sys hmacSha256).disk.files = start.files) := by
  obtain ⟨rfl, -⟩ := makeShardWriter_ok sys made
  obtain ⟨⟨ops, ran, left⟩, -, -⟩ :=
    after_tracked sys hmacSha256 (fun _ => True) { o with filenameExtension := o.extension } start
      calls fun _ _ _ => trivial
  refine ⟨⟨ops, ran.log, ran.respect, left⟩, fun calm => ?_⟩
  obtain ⟨disk, aborted, gone⟩ := exec_abort calm
  rw [aborted, destroy_files]
  · funext path
    rw [gone]
    split
    · rename_i known
      exact (ran.owned.inside path ((left path).mpr known)).1.symm
    · rename_i unknown
      exact ran.owned.outside path fun member => unknown ((left path).mp member)
  · rfl
  · rfl

end Calls

def oneShardOptions : ShardWriterOptions where
  outputDir := [46]
  maxShardPayloadLen := 100
  filenameExtension := []
  globalHeader := fiveByteHeader 5
  headerAuthenticationKey := [1]
  perShardPublicHeaderHashes := [List.Vector.replicate 32 1]
  durabilityMode := .off
  durabilityHooks := .noop

def fullDisk : System :=
  ⟨fun k => [UInt8.ofNat k], fun k => if k = 4 then some "No space left on device" else none⟩

def noFiles : Disk := ⟨fun _ => none, [], 0, 0⟩

def oneFrame : List WriterCall :=
  let header : ChunkFrameHeaderV1 := ⟨kChunkFrameFlagFinalChunk, 0, 0, 5, 5, 16⟩
  [.plan 0 5 5 16 true, .write header (encodeChunkFrameHeaderV1 header) (List.replicate 21 0),
    .finish]

/-- The shard of a writer that ran out of space is removed again. -/
theorem abort_cleans_up_fullDisk :
    let w := (ShardWriter.fresh { oneShardOptions with filenameExtension := ascii ".bin" }
      (noFiles.done (.createDirectories [46]))).after fullDisk (fun _ _ => zeroMac) oneFrame
    w.recorded ≠ [] ∧ ((exec (abortAndRemoveCreatedShardsNoexcept fullDisk) w).2.destroy fullDisk
      fun _ _ => zeroMac).disk.files = noFiles.files := by
  intro w
  have stopped : w.disk.attempts = 5 := by decide +kernel
  refine ⟨by decide +kernel, ?_⟩
  have made : makeShardWriter fullDisk oneShardOptions noFiles = .ok (.fresh
      { oneShardOptions with filenameExtension := ascii ".bin" }
      (noFiles.done (.createDirectories [46]))) := rfl
  refine (abort_cleans_up fullDisk (fun _ _ => zeroMac) made oneFrame).2 fun k after _ => ?_
  have later : 5 ≤ k := stopped ▸ after
  exact if_neg (by omega)

end Bseal.Io
