import Bseal.Archive.CommitPreserves
import Bseal.Archive.DeferredMetadata
import Bseal.Archive.EntryPaths
import Bseal.Archive.Fragmentation

/-! Extraction of a whole stream where no call fails: behind each entry, the temporary directory
holds what the stream has carried so far. -/
namespace Bseal.Archive
open Effect FileTree

/-- What restoring the metadata of an entry makes of its attributes. -/
def restoredTo (options : ArchiveReaderOptions) (m : EntryMetadata) (a : Attributes) : Attributes :=
  let a := if options.restorePermissions ∧ m.posixMode ≠ 0 then
    { a with mode := some (bitsToPermissions m.posixMode) } else a
  if options.restoreTimestamps ∧ m.times.modifiedNsSinceUnixEpoch ≠ 0 ∧ m.kind ≠ .symlink then
    { a with modified := some m.times.modifiedNsSinceUnixEpoch } else a

section Calls
variable {w : FileSystem} {d : List FileName} {n : FileName}

theorem lookup_plain {κ α : Type} {t : Tree FileName κ α Bytes} (dir : t.IsDir d)
    {x : Node κ α Bytes} (here : t.node (d ++ [n]) = some x) (plain : x.isLink = false)
    (follow : Bool) :
    lookup t follow (below (d ++ [n]) []) = .found (d ++ [n]) := by
  rw [lookup_entry dir, here]
  cases x with
  | dir => rfl
  | file => rfl
  | link => cases plain

theorem setAttributes_isLink (f : Attributes → Attributes) (x : DiskNode) :
    (setAttributes f x).isLink = x.isLink := by
  cases x <;> rfl

theorem setAttributes_comp (f g : Attributes → Attributes) :
    setAttributes g ∘ setAttributes f = setAttributes (g ∘ f) := by
  funext x
  cases x <;> rfl

theorem setAttributes_same (x : DiskNode) : setAttributes (fun a => a) x = x := by
  cases x <;> rfl

theorem modify_same (t : DiskTree) (p : List FileName) :
    t.modify p (setAttributes fun a => a) (setAttributes_isDir _) = t := by
  refine Tree.ext_node fun q => ?_
  have same : (t.node p).map (setAttributes fun a => a) = t.node p := by
    rw [funext setAttributes_same, Option.map_id']
  rw [Tree.modify_node, same, Function.update_eq_self]

theorem changeAttributes_quiet {path : OutPath} {p : List FileName}
    (found : lookup w.tree true path = .found p) (f : Attributes → Attributes) :
    Ends (FileSystem.changeAttributes quietHost path f) w
      (fun _ w' => w'.tree = w.tree.modify p (setAttributes f) (setAttributes_isDir f))
      fun _ _ => False := by
  unfold FileSystem.changeAttributes FileSystem.call
  rw [ends_get_bind, ends_set_bind]
  change Ends (get >>= _) w.tick _ _
  rw [ends_get_bind, show w.tick.tree = w.tree from rfl, found]
  exact rfl

theorem openFile_quiet (dir : w.tree.IsDir d) (absent : w.tree.node (d ++ [n]) = none) :
    Ends (FileSystem.openFile quietHost (below (d ++ [n]) [])) w
      (fun _ w' => w'.tree = w.tree.put d n (.file .fresh []) ∧ w'.stream = some (d ++ [n]) ∧
        w'.streamGood = true) fun _ _ => False := by
  have missing : lookup w.tree true (below (d ++ [n]) []) = .missing d n := by
    rw [lookup_entry dir, absent]
  unfold FileSystem.openFile FileSystem.call
  rw [ends_get_bind, ends_set_bind]
  change Ends (get >>= _) w.tick _ _
  rw [ends_get_bind, show w.tick.tree = w.tree from rfl, missing]
  exact ⟨rfl, rfl, rfl⟩

structure Writing (t : DiskTree) (d : List FileName) (n : FileName) (content : Bytes)
    (w : FileSystem) : Prop where
  tree : w.tree = t.put d n (.file .fresh content)
  stream : w.stream = some (d ++ [n])
  good : w.streamGood = true

variable {t : DiskTree} {content : Bytes}

theorem Writing.write (writing : Writing t d n content w) (dir : t.IsDir d)
    (absent : t.node (d ++ [n]) = none) (bytes : Bytes) :
    Ends (FileSystem.writeFile quietHost bytes) w (fun _ => Writing t d n (content ++ bytes))
      fun _ _ => False := by
  unfold FileSystem.writeFile
  rw [ends_get_bind, writing.stream, writing.good]
  refine ⟨?_, writing.stream, writing.good⟩
  change w.tree.modify (d ++ [n]) (setContent (· ++ bytes)) (setContent_isDir _) = _
  rw [writing.tree, t.put_modify _ dir absent]
  rfl

theorem Writing.close (writing : Writing t d n content w) :
    Ends (FileSystem.closeFile quietHost) w
      (fun _ w' => w'.tree = t.put d n (.file .fresh content)) fun _ _ => False := by
  unfold FileSystem.closeFile
  rw [ends_get_bind, ends_set_bind, ends_throwIf, if_neg ?_]
  · exact writing.tree
  · rw [writing.stream, writing.good]
    rintro (none | bad | fault)
    · cases none
    · cases bad
    · cases fault

end Calls

section Metadata
variable {options : ArchiveReaderOptions} {e : Extraction FileSystem} {d : List FileName}
  {n : FileName} {x : DiskNode}

theorem fileOp_quiet {op : Effect String FileSystem Unit} {post : FileSystem → Prop}
    (ran : Ends op e.world (fun _ => post) fun _ _ => False) (context : String) :
    Ends (fileOp context op) e (fun _ e' => post e'.world ∧ e' = { e with world := e'.world })
      fun _ _ => False :=
  (ends_zoom _ _ _ _ _).mpr (ran.mono (fun _ _ done => ⟨done, rfl⟩) fun _ _ => id)

theorem streamOp_quiet {op : Effect Unit FileSystem Unit} {post : FileSystem → Prop}
    (ran : Ends op e.world (fun _ => post) fun _ _ => False) (message : String) :
    Ends (streamOp message op) e (fun _ e' => post e'.world ∧ e' = { e with world := e'.world })
      fun _ _ => False :=
  (ends_zoom _ _ _ _ _).mpr (ran.mono (fun _ _ done => ⟨done, rfl⟩) fun _ _ => id)

theorem restore_quiet {path : OutPath} {p : List FileName}
    (found : lookup e.world.tree true path = .found p) (c : Prop) [Decidable c] (context : String)
    (f : Attributes → Attributes) :
    Ends (if c then fileOp context (FileSystem.changeAttributes quietHost path f) else pure ()) e
      (fun _ e' => e'.world.tree = e.world.tree.modify p
          (setAttributes fun a => if c then f a else a)
        (setAttributes_isDir _) ∧ e' = { e with world := e'.world }) fun _ _ => False := by
  by_cases act : c
  · simp only [if_pos act]
    exact fileOp_quiet (changeAttributes_quiet found f) context
  · simp only [if_neg act]
    exact ⟨(modify_same _ p).symm, rfl⟩

theorem applyMetadataToPath_quiet (dir : e.world.tree.IsDir d)
    (here : e.world.tree.node (d ++ [n]) = some x) (plain : x.isLink = false) (m : EntryMetadata) :
    Ends (applyMetadataToPath (diskOps quietHost) options (below (d ++ [n]) []) m) e
      (fun _ e' => e'.world.tree =
          e.world.tree.modify (d ++ [n]) (setAttributes (restoredTo options m))
            (setAttributes_isDir _) ∧ e' = { e with world := e'.world }) fun _ _ => False := by
  unfold applyMetadataToPath
  refine Ends.bind_returns (restore_quiet (lookup_plain dir here plain true) _ _ _) ?_
  rintro - e₁ ⟨changed, same⟩
  have dir₁ : e₁.world.tree.IsDir d := by
    rw [changed]
    exact (Tree.isDir_modify _ _ _ d).mpr dir
  obtain ⟨y, here₁, plain₁⟩ : ∃ y, e₁.world.tree.node (d ++ [n]) = some y ∧ y.isLink = false := by
    rw [changed, Tree.modify_node, Function.update_self, here]
    exact ⟨_, rfl, (setAttributes_isLink _ x).trans plain⟩
  refine (restore_quiet (lookup_plain dir₁ here₁ plain₁ true) _ _ _).mono ?_ fun _ _ => id
  rintro - e₂ ⟨changed₂, same₂⟩
  refine ⟨?_, ?_⟩
  · rw [changed₂, changed, Tree.modify_modify]
    congr 1
    exact setAttributes_comp _ _
  · rw [same₂, same]

end Metadata

section Paths
variable {q : List FileName}

theorem archiveNames_ownPath (filled : q ≠ []) : archiveNames (ownPath q) = below q [] := by
  have clean : ∀ c ∈ q.map Subtype.val, c ≠ dot := by
    intro c member
    obtain ⟨n, -, rfl⟩ := List.mem_map.mp member
    exact n.2.2.1
  have last : (q.map Subtype.val).getLast? ≠ some dot := fun same =>
    clean dot (List.mem_of_getLast? same) rfl
  rw [archiveNames, ownPath, pathComponents_relativeText
    (fun none => filled (List.map_eq_nil_iff.mp none)) (segments_of_names q), normalNames,
    if_neg last, List.append_nil, List.filter_eq_self.mpr fun c member => by
      simpa using clean c member]
  exact (List.append_nil _).symm

theorem makeSafeOutputPath_ownPath (T : List FileName) (filled : q ≠ [])
    (safe : isSafeRelativePath (ownPath q) = true) :
    makeSafeOutputPath (below T []) (ownPath q) = .ok (below (T ++ q) []) := by
  refine (makeSafeOutputPath_ok _ _ _).mpr ⟨safe, ?_⟩
  rw [← below_append]
  exact congrArg (below T [] ++ ·) (archiveNames_ownPath filled)

end Paths

structure BetweenEntries (metas : List EntryMetadata) (e : Extraction FileSystem) : Prop where
  begun : e.archiveBeginSeen = true
  running : e.archiveEndSeen = false
  closed : e.currentFileOpen = false
  deferred : e.deferredDirectoryMetadata = metas

structure WithinFile (metas : List EntryMetadata) (m : EntryMetadata) (sent : Nat)
    (e : Extraction FileSystem) : Prop where
  begun : e.archiveBeginSeen = true
  running : e.archiveEndSeen = false
  opened : e.currentFileOpen = true
  path : e.currentFileArchivePath = m.relativePath
  metadata : e.currentFileMetadata = m
  written : e.currentFileWritten.toNat = sent
  deferred : e.deferredDirectoryMetadata = metas

section Records
variable {options : ArchiveReaderOptions} {T f : List FileName} {n : FileName} {t : DiskTree}
  {metas : List EntryMetadata} {m : EntryMetadata} {payload : Bytes} {e : Extraction FileSystem}

theorem ends_processRecord {σ : Type} {ops : ExtractOps σ} {tempRoot : OutPath}
    {e : Extraction σ} {post : Unit → Extraction σ → Prop} {fail : Failure → Extraction σ → Prop}
    (running : e.archiveEndSeen = false) (r : ArchiveRecord) :
    Ends (processRecord ops options tempRoot r) e post fail ↔
      Ends (handleRecord ops options tempRoot false r) e post fail := by
  unfold Ends
  rw [exec_processRecord_running ops options tempRoot r running]

theorem directory_extracted (between : BetweenEntries metas e)
    (parsed : parseEntryMetadata payload = .ok m)
    (kind : m.kind = .directory) (own : m.relativePath = ownPath (f ++ [n]))
    (dir : e.world.tree.IsDir (T ++ f)) (absent : e.world.tree.node (T ++ f ++ [n]) = none) :
    Ends (processRecord (diskOps quietHost) options (below T []) ⟨.directoryEntry, payload⟩) e
      (fun _ e' => BetweenEntries (metas ++ [m]) e' ∧
        e'.world.tree = e.world.tree.put (T ++ f) n (.dir .fresh)) fun _ _ => False := by
  have safe : isSafeRelativePath (ownPath (f ++ [n])) = true :=
    own ▸ ((parseEntryMetadata_ok _ _).mp parsed).1.path.2
  rw [ends_processRecord between.running]
  change Ends (lift (parseEntryMetadata payload) >>= _) e _ _
  rw [ends_lift_bind_of_ok _ _ parsed]
  unfold createDirectory
  rw [ends_get_bind, ends_throwIf_bind, if_neg (not_not.mpr between.begun), ends_throwIf_bind,
    if_neg (not_not.mpr kind), own,
    ends_lift_bind_of_ok _ _ (makeSafeOutputPath_ownPath T (by simp) safe), ← List.append_assoc]
  refine Ends.bind_returns (fileOp_quiet (createDirectories_last dir (.inl absent)) _) ?_
  rintro - e' ⟨made, same⟩
  rw [withDirectory, if_pos absent] at made
  rw [ends_modify, same]
  exact ⟨⟨between.begun, between.running, between.closed, congrArg (· ++ [m]) between.deferred⟩,
    made⟩

theorem file_opened (between : BetweenEntries metas e) (parsed : parseEntryMetadata payload = .ok m)
    (kind : m.kind = .regularFile) (own : m.relativePath = ownPath (f ++ [n]))
    (dir : e.world.tree.IsDir (T ++ f)) (absent : e.world.tree.node (T ++ f ++ [n]) = none) :
    Ends (processRecord (diskOps quietHost) options (below T []) ⟨.fileEntry, payload⟩) e
      (fun _ e' => WithinFile metas m 0 e' ∧ Writing e.world.tree (T ++ f) n [] e'.world)
      fun _ _ => False := by
  have safe : isSafeRelativePath (ownPath (f ++ [n])) = true :=
    own ▸ ((parseEntryMetadata_ok _ _).mp parsed).1.path.2
  rw [ends_processRecord between.running]
  change Ends (lift (parseEntryMetadata payload) >>= _) e _ _
  rw [ends_lift_bind_of_ok _ _ parsed]
  unfold beginFile
  rw [ends_get_bind, ends_throwIf_bind, if_neg (not_not.mpr between.begun), ends_throwIf_bind,
    if_neg (by rw [between.closed]; exact Bool.false_ne_true), ends_throwIf_bind,
    if_neg (not_not.mpr kind), own,
    ends_lift_bind_of_ok _ _ (makeSafeOutputPath_ownPath T (by simp) safe), ← List.append_assoc,
    parent_names]
  refine Ends.bind_returns (fileOp_quiet (createDirectories_there dir) _) ?_
  rintro - e₁ ⟨same₁, rest₁⟩
  rw [← same₁] at dir absent
  refine Ends.bind_returns (streamOp_quiet ((ends_zoom _ _ _ _ _).mpr
    (openFile_quiet dir absent)) _) ?_
  rintro - e₂ ⟨⟨made, stream, good⟩, rest₂⟩
  rw [ends_modify, rest₂, rest₁]
  refine ⟨⟨between.begun, between.running, rfl, own.symm, rfl, rfl, between.deferred⟩, ?_⟩
  exact ⟨same₁ ▸ made, stream, good⟩

theorem file_block {sent : Nat} {content : Bytes} (within : WithinFile metas m sent e)
    (writing : Writing t (T ++ f) n content e.world) (dir : t.IsDir (T ++ f))
    (absent : t.node (T ++ f ++ [n]) = none) (bytes : Bytes)
    (room : sent + bytes.length ≤ m.originalSize.toNat) :
    Ends (processRecord (diskOps quietHost) options (below T []) ⟨.fileBytes, bytes⟩) e
      (fun _ e' => WithinFile metas m (sent + bytes.length) e' ∧
        Writing t (T ++ f) n (content ++ bytes) e'.world) fun _ _ => False := by
  have size := m.originalSize.toNat_lt
  have fits : bytes.length ≤ (e.currentFileMetadata.originalSize - e.currentFileWritten).toNat := by
    rw [within.metadata, UInt64.toNat_sub_of_le _ _ (by
      rw [UInt64.le_iff_toNat_le, within.written]
      omega), within.written]
    omega
  rw [ends_processRecord within.running]
  change Ends (writeFileBytes (diskOps quietHost) bytes) e _ _
  unfold writeFileBytes
  rw [ends_get_bind, ends_throwIf_bind, if_neg (not_not.mpr within.opened), ends_throwIf_bind,
    if_neg (by omega)]
  refine Ends.bind_returns (streamOp_quiet (writing.write dir absent bytes) _) ?_
  rintro - e₁ ⟨written, rest⟩
  rw [ends_modify, rest]
  refine ⟨⟨within.begun, within.running, within.opened, within.path, within.metadata, ?_,
    within.deferred⟩, written⟩
  rw [UInt64.toNat_add, UInt64.toNat_ofNat', within.written]
  omega

theorem file_closed {content : Bytes} (within : WithinFile metas m m.originalSize.toNat e)
    (writing : Writing t (T ++ f) n content e.world) (dir : t.IsDir (T ++ f))
    (absent : t.node (T ++ f ++ [n]) = none) (own : m.relativePath = ownPath (f ++ [n]))
    (safe : isSafeRelativePath (ownPath (f ++ [n])) = true) :
    Ends (processRecord (diskOps quietHost) options (below T []) ⟨.fileEnd, []⟩) e
      (fun _ e' => BetweenEntries metas e' ∧
        e'.world.tree = t.put (T ++ f) n (.file (restoredTo options m .fresh) content))
      fun _ _ => False := by
  rw [ends_processRecord within.running]
  change Ends (endFile (diskOps quietHost) options (below T [])) e _ _
  unfold endFile
  rw [ends_get_bind, ends_throwIf_bind, if_neg (not_not.mpr within.opened), ends_throwIf_bind,
    if_neg (not_not.mpr (UInt64.toNat_inj.mp (by rw [within.metadata]; exact within.written)))]
  refine Ends.bind_returns (streamOp_quiet writing.close _) ?_
  rintro - e₁ ⟨closed, rest₁⟩
  rw [within.path, within.metadata, own,
    ends_lift_bind_of_ok _ _ (makeSafeOutputPath_ownPath T (by simp) safe), ← List.append_assoc]
  have dir₁ : e₁.world.tree.IsDir (T ++ f) := closed ▸ dir.put _ _ _
  have here₁ : e₁.world.tree.node (T ++ f ++ [n]) = some (.file .fresh content) := by
    rw [closed, t.put_node _ dir absent, Function.update_self]
  refine Ends.bind_returns (applyMetadataToPath_quiet dir₁ here₁ rfl m) ?_
  rintro - e₂ ⟨restored, rest₂⟩
  rw [ends_modify, rest₂, rest₁]
  refine ⟨⟨within.begun, within.running, rfl, within.deferred⟩, ?_⟩
  change e₂.world.tree = _
  rw [restored, closed, t.put_modify _ dir absent]
  rfl

theorem ends_processRecords_append {σ : Type} {ops : ExtractOps σ} {tempRoot : OutPath}
    {e : Extraction σ} {post : Unit → Extraction σ → Prop} {fail : Failure → Extraction σ → Prop}
    (front back : List ArchiveRecord) :
    Ends (processRecords ops options tempRoot (front ++ back)) e post fail ↔
      Ends (processRecords ops options tempRoot front) e
        (fun _ e' => Ends (processRecords ops options tempRoot back) e' post fail) fail := by
  induction front generalizing e with
  | nil => exact Iff.rfl
  | cons r front ih =>
    rw [List.cons_append, processRecords, processRecords, ends_bind, ends_bind]
    constructor
    · exact fun ends => ends.mono (fun _ _ => ih.mp) fun _ _ => id
    · exact fun ends => ends.mono (fun _ _ => ih.mpr) fun _ _ => id

theorem file_blocks {sent : Nat} {content : Bytes} (dir : t.IsDir (T ++ f))
    (absent : t.node (T ++ f ++ [n]) = none) (body : List Bytes)
    (within : WithinFile metas m sent e) (writing : Writing t (T ++ f) n content e.world)
    (room : sent + (body.map List.length).sum ≤ m.originalSize.toNat) :
    Ends (processRecords (diskOps quietHost) options (below T []) (body.map (⟨.fileBytes, ·⟩))) e
      (fun _ e' => WithinFile metas m (sent + (body.map List.length).sum) e' ∧
        Writing t (T ++ f) n (content ++ body.flatten) e'.world) fun _ _ => False := by
  induction body generalizing e sent content with
  | nil => exact ⟨within, by rwa [List.flatten_nil, List.append_nil]⟩
  | cons bytes body ih =>
    have sum : sent + ((bytes :: body).map List.length).sum =
        sent + bytes.length + (body.map List.length).sum := by
      rw [List.map_cons, List.sum_cons, Nat.add_assoc]
    rw [sum] at room ⊢
    rw [List.flatten_cons, ← List.append_assoc, List.map_cons, processRecords]
    refine Ends.bind (file_block within writing dir absent bytes (by omega)) ?_
    rintro - e₁ ⟨within₁, writing₁⟩
    exact ih within₁ writing₁ room

theorem file_extracted {body : List Bytes} (between : BetweenEntries metas e)
    (parsed : parseEntryMetadata payload = .ok m) (kind : m.kind = .regularFile)
    (own : m.relativePath = ownPath (f ++ [n])) (dir : e.world.tree.IsDir (T ++ f))
    (absent : e.world.tree.node (T ++ f ++ [n]) = none)
    (total : (body.map List.length).sum = m.originalSize.toNat) :
    Ends (processRecords (diskOps quietHost) options (below T []) (fileRecords payload body)) e
      (fun _ e' => BetweenEntries metas e' ∧ e'.world.tree =
        e.world.tree.put (T ++ f) n (.file (restoredTo options m .fresh) body.flatten))
      fun _ _ => False := by
  have safe : isSafeRelativePath (ownPath (f ++ [n])) = true :=
    own ▸ ((parseEntryMetadata_ok _ _).mp parsed).1.path.2
  rw [fileRecords, processRecords]
  refine Ends.bind (file_opened between parsed kind own dir absent) ?_
  rintro - e₁ ⟨within, writing⟩
  refine (ends_processRecords_append _ _).mpr ((file_blocks dir absent body within writing ?_).mono
    ?_ fun _ _ => id)
  · omega
  · rintro - e₂ ⟨within₂, writing₂⟩
    rw [Nat.zero_add, total] at within₂
    rw [List.nil_append] at writing₂
    refine Ends.bind (file_closed within₂ writing₂ dir absent own safe) ?_
    exact fun _ _ closed => closed

end Records

section Entries
variable (source : SourceTree) (w : ArchiveWriter) (options : ArchiveReaderOptions)
  (T : List FileName) (base : DiskTree)

inductive Extracts (q : List FileName) : SourceNode → DiskNode → Prop where
  | dir (stat : Stat) : Extracts q (.dir stat) (.dir .fresh)
  | file {stat : Stat} {content : FileContent} {m : EntryMetadata}
    (made : nodeMetadata w.options (ownPath q) (.file stat (.regular content)) = .ok m) :
    Extracts q (.file stat (.regular content)) (.file (restoredTo options m .fresh) content.1)

/-- The temporary directory holds these entries, and nothing else has changed. -/
structure Extracted (done : List (List FileName)) (u : DiskTree) : Prop where
  root : u.IsDir T
  inside : ∀ q ∈ done, ∃ x y, source.tree.node (w.root ++ q) = some x ∧
    Extracts w options q x y ∧ u.node (T ++ q) = some y
  free : ∀ q, q ≠ [] → q ∉ done → u.node (T ++ q) = none
  outside : Tree.SameOutside T base u

structure Awaiting (done : List (List FileName)) (metas : List EntryMetadata) : Prop where
  all : ∀ q ∈ done, ∀ stat, source.tree.node (w.root ++ q) = some (.dir stat) →
    ∃ m ∈ metas, nodeMetadata w.options (ownPath q) (.dir stat) = .ok m
  only : ∀ m ∈ metas, ∃ q ∈ done, q ≠ [] ∧ isSafeRelativePath (ownPath q) = true ∧ ∃ stat,
    source.tree.node (w.root ++ q) = some (.dir stat) ∧
    nodeMetadata w.options (ownPath q) (.dir stat) = .ok m

structure Reached (done : List (List FileName)) (e : Extraction FileSystem) : Prop where
  between : BetweenEntries e.deferredDirectoryMetadata e
  extracted : Extracted source w options T base done e.world.tree
  awaiting : Awaiting source w done e.deferredDirectoryMetadata

variable {source w options T base} {done : List (List FileName)} {f : List FileName} {n : FileName}
  {u : DiskTree}

theorem Extracted.put (extracted : Extracted source w options T base done u)
    (dir : u.IsDir (T ++ f)) (new : f ++ [n] ∉ done) {x : SourceNode} {y : DiskNode}
    (here : source.tree.node (w.root ++ (f ++ [n])) = some x)
    (extracts : Extracts w options (f ++ [n]) x y) :
    Extracted source w options T base (done ++ [f ++ [n]]) (u.put (T ++ f) n y) := by
  have absent : u.node (T ++ f ++ [n]) = none := by
    rw [List.append_assoc]
    exact extracted.free _ (by simp) new
  have node := u.put_node y dir absent
  refine ⟨extracted.root.put _ _ _, ?_, ?_, ?_⟩
  · intro q member
    rcases List.mem_append.mp member with old | last
    · obtain ⟨x', y', there, extracts', at_⟩ := extracted.inside q old
      refine ⟨x', y', there, extracts', ?_⟩
      rw [node, Function.update_of_ne ?_, at_]
      rw [List.append_assoc]
      exact fun same => new (List.append_cancel_left same ▸ old)
    · obtain rfl := List.mem_singleton.mp last
      refine ⟨x, y, here, extracts, ?_⟩
      rw [node, ← List.append_assoc, Function.update_self]
  · intro q filled other
    rw [List.mem_append, List.mem_singleton, not_or] at other
    rw [node, Function.update_of_ne ?_]
    · exact extracted.free q filled other.1
    · rw [List.append_assoc]
      exact fun same => other.2 (List.append_cancel_left same)
  · exact extracted.outside.trans (u.sameOutside_put n y (List.prefix_append T f))

theorem Awaiting.directory {metas : List EntryMetadata} (awaiting : Awaiting source w done metas)
    {q : List FileName} (filled : q ≠ []) (safe : isSafeRelativePath (ownPath q) = true)
    {stat : Stat} {m : EntryMetadata} (here : source.tree.node (w.root ++ q) = some (.dir stat))
    (made : nodeMetadata w.options (ownPath q) (.dir stat) = .ok m) :
    Awaiting source w (done ++ [q]) (metas ++ [m]) where
  all q' member stat' there := by
    rcases List.mem_append.mp member with old | last
    · obtain ⟨m', inside, made'⟩ := awaiting.all q' old stat' there
      exact ⟨m', List.mem_append_left _ inside, made'⟩
    · obtain rfl := List.mem_singleton.mp last
      obtain rfl : stat = stat' := Node.dir.inj (Option.some.inj (here.symm.trans there))
      exact ⟨m, List.mem_append_right _ List.mem_cons_self, made⟩
  only m' member := by
    rcases List.mem_append.mp member with old | last
    · obtain ⟨q', inside, rest⟩ := awaiting.only m' old
      exact ⟨q', List.mem_append_left _ inside, rest⟩
    · obtain rfl := List.mem_singleton.mp last
      exact ⟨q, List.mem_append_right _ List.mem_cons_self, filled, safe, stat, here, made⟩

theorem Awaiting.leaf {metas : List EntryMetadata} (awaiting : Awaiting source w done metas)
    {q : List FileName} (leaf : ¬source.tree.IsDir (w.root ++ q)) :
    Awaiting source w (done ++ [q]) metas where
  all q' member stat there := by
    rcases List.mem_append.mp member with old | last
    · exact awaiting.all q' old stat there
    · obtain rfl := List.mem_singleton.mp last
      exact absurd ⟨stat, there⟩ leaf
  only m member := by
    obtain ⟨q', inside, rest⟩ := awaiting.only m member
    exact ⟨q', List.mem_append_left _ inside, rest⟩

def LinksLeftOut (source : SourceTree) (options : ArchiveWriterOptions) (root : List FileName) :
    Prop :=
  options.includeSymlinks = true →
    ∀ names target, source.tree.node (root ++ names) ≠ some (.link target)

theorem not_link_of_walked {writerOptions : ArchiveWriterOptions} {entry : DirectoryEntry}
    (links : LinksLeftOut source writerOptions w.root)
    (walked : entry ∈ walkedEntries source writerOptions w.root) : entry.type ≠ .symlink := by
  intro kind
  obtain ⟨⟨names, -, path⟩, ⟨x, here, same⟩, included⟩ := of_mem_walkedEntries source walked
  obtain ⟨target, rfl⟩ := isLink_of_type (x := x) (by rw [← same, kind]; rfl)
  exact links (included kind) names target (path ▸ here)

theorem metadataFor_plain {writerOptions : ArchiveWriterOptions} {entry : DirectoryEntry}
    (top : source.tree.IsDir w.root) (walked : entry ∈ walkedEntries source writerOptions w.root)
    (plain : entry.type ≠ .symlink) {m : EntryMetadata} {payload : Bytes}
    (found : w.metadataFor source entry = .ok m) (coded : serializeEntryMetadata m = .ok payload)
    {q : List FileName} (path : entry.path = w.root ++ q) :
    m.relativePath = ownPath q ∧ parseEntryMetadata payload = .ok m ∧ ∃ x,
      source.tree.node (w.root ++ q) = some x ∧ entry.type = SourceNode.type x ∧
      nodeMetadata w.options (ownPath q) x = .ok m := by
  obtain ⟨q', -, own, parsed, leads⟩ := metadataFor_entry top walked found coded
  have same : entry.path = w.root ++ q' := by
    rw [leads_of_not_link walked plain] at leads
    exact leads.elim Outcome.found.inj And.right
  obtain rfl := List.append_cancel_left (same.symm.trans path)
  obtain ⟨names, x, -, -, status, made⟩ := (w.metadataFor_ok source entry m).mp found
  obtain ⟨d, n, last, dir⟩ := parent_of_walked walked
  obtain ⟨-, ⟨y, here, kind⟩, -⟩ := of_mem_walkedEntries source walked
  have seen : lookup source.tree false (below entry.path []) = .found entry.path := by
    rw [last] at here ⊢
    rw [lookup_entry dir, here]
    cases y <;> rfl
  rw [nodeAt, seen] at status
  obtain rfl : y = x := Option.some.inj (here.symm.trans status)
  rw [← nodeMetadata_path made, own] at made
  exact ⟨own, parsed, y, same ▸ here, kind, made⟩

theorem Extracted.isDir (extracted : Extracted source w options T base done u)
    (above : f = [] ∨ f ∈ done) {x : SourceNode}
    (here : source.tree.node (w.root ++ (f ++ [n])) = some x) : u.IsDir (T ++ f) := by
  rcases above with rfl | member
  · rw [List.append_nil]
    exact extracted.root
  · obtain ⟨z, y, there, extracts, at_⟩ := extracted.inside f member
    rw [← List.append_assoc] at here
    obtain ⟨stat, dir⟩ := source.tree.closed _ _ (by rw [here]; exact Option.some_ne_none x)
    obtain rfl := Option.some.inj (there.symm.trans dir)
    cases extracts
    exact ⟨.fresh, at_⟩

theorem Reached.entry {e : Extraction FileSystem} {P : Moment → Prop}
    (reached : Reached source w options T base done e) (at_ : ∀ now, P now → now.tree = source)
    {writerOptions : ArchiveWriterOptions} {entry : DirectoryEntry}
    (top : source.tree.IsDir w.root) (walked : entry ∈ walkedEntries source writerOptions w.root)
    (plain : entry.type ≠ .symlink) (path : entry.path = w.root ++ (f ++ [n]))
    (gives : ¬w.Skips entry) {records : List ArchiveRecord} (emits : Emits P w entry records)
    (above : f = [] ∨ f ∈ done) (new : f ++ [n] ∉ done) :
    Ends (processRecords (diskOps quietHost) options (below T []) records) e
      (fun _ e' => Reached source w options T base (done ++ [f ++ [n]]) e') fun _ _ => False := by
  have absent : e.world.tree.node (T ++ f ++ [n]) = none := by
    rw [List.append_assoc]
    exact reached.extracted.free _ (by simp) new
  cases emits with
  | skipped skips => exact absurd skips gives
  | @single now m payload _ leaf met found coded =>
    rw [at_ now met] at found
    obtain ⟨own, parsed, x, here, kind, made⟩ := metadataFor_plain top walked plain found coded path
    have dir := reached.extracted.isDir above here
    rcases x with stat | ⟨stat, _ | _⟩ | target
    · have directory : m.kind = .directory := by
        cases made
        rfl
      have safe : isSafeRelativePath (ownPath (f ++ [n])) = true :=
        own ▸ ((parseEntryMetadata_ok _ _).mp parsed).1.path.2
      rw [kind]
      refine Ends.bind (directory_extracted reached.between parsed directory own dir absent) ?_
      rintro - e' ⟨between, grown⟩
      refine ⟨between.deferred.symm ▸ between, ?_, ?_⟩
      · rw [grown]
        exact reached.extracted.put dir new here (.dir stat)
      · rw [between.deferred]
        exact reached.awaiting.directory (by simp) safe here made
    · exact absurd kind leaf
    · exact absurd (.inl kind) gives
    · exact absurd kind plain
  | @file now m payload body isFile met found coded blocks total content =>
    rw [at_ now met] at found
    obtain ⟨own, parsed, x, here, kind, made⟩ := metadataFor_plain top walked plain found coded path
    have dir := reached.extracted.isDir above here
    rcases x with stat | ⟨stat, regular | _⟩ | target
    · exact absurd (kind.symm.trans isFile) EntryType.noConfusion
    · have file : m.kind = .regularFile := by
        cases made
        rfl
      have whole : body.flatten = regular.1 := by
        refine content _ fun now met => ?_
        rw [Moment.content, at_ now met, path, here]
      refine (file_extracted reached.between parsed file own dir absent total).mono ?_
        fun _ _ => id
      rintro - e' ⟨between, grown⟩
      refine ⟨between.deferred.symm ▸ between, ?_, ?_⟩
      · rw [grown, whole]
        exact reached.extracted.put dir new here (.file made)
      · rw [between.deferred]
        refine reached.awaiting.leaf ?_
        rintro ⟨stat', directory⟩
        cases here.symm.trans directory
    · exact absurd (.inl kind) gives
    · exact absurd kind plain

def givenPaths (w : ArchiveWriter) (entries : List DirectoryEntry) : List (List FileName) :=
  (entries.filter fun e => !decide (w.Skips e)).map fun e => e.path.drop w.root.length

theorem mem_givenPaths {entries : List DirectoryEntry} {q : List FileName} :
    q ∈ givenPaths w entries ↔ ∃ e ∈ entries, ¬w.Skips e ∧ e.path.drop w.root.length = q := by
  simp only [givenPaths, List.mem_map, List.mem_filter, Bool.not_eq_true', decide_eq_false_iff_not,
    and_assoc]

theorem givenPaths_skipped {entry : DirectoryEntry} (skips : w.Skips entry)
    (entries : List DirectoryEntry) : givenPaths w (entries ++ [entry]) = givenPaths w entries := by
  rw [givenPaths, List.filter_append, List.filter_singleton, decide_eq_true skips]
  exact congrArg (List.map _) (List.append_nil _)

theorem givenPaths_given {entry : DirectoryEntry} (gives : ¬w.Skips entry) {q : List FileName}
    (path : entry.path = w.root ++ q) (entries : List DirectoryEntry) :
    givenPaths w (entries ++ [entry]) = givenPaths w entries ++ [q] := by
  rw [givenPaths, List.filter_append, List.filter_singleton, decide_eq_false gives, Bool.not_false,
    cond_true, List.map_append, List.map_singleton, path, List.drop_left]
  rfl

section Run
variable {writerOptions : ArchiveWriterOptions} (h : WritesTree source writerOptions w)
  (listed : ListsAll source writerOptions w.root)
  (links : LinksLeftOut source writerOptions w.root) {P : Moment → Prop}
  (at_ : ∀ now, P now → now.tree = source)
include h

theorem not_given_before {front back : List DirectoryEntry} {entry : DirectoryEntry}
    (split : w.entries = front ++ entry :: back) {q : List FileName}
    (path : entry.path = w.root ++ q) : q ∉ givenPaths w front := by
  intro member
  obtain ⟨other, before, -, same⟩ := mem_givenPaths.mp member
  have nodup : (w.entries.map DirectoryEntry.path).Nodup :=
    (h.perm.map _).nodup_iff.mpr (walkedEntries_paths_nodup source)
  have inside : other ∈ w.entries := by
    rw [split]
    exact List.mem_append_left _ before
  obtain ⟨⟨names, -, at_⟩, -⟩ := of_mem_walkedEntries source (h.walked inside)
  rw [at_, List.drop_left] at same
  rw [split, List.map_append, List.map_cons, List.nodup_append] at nodup
  refine nodup.2.2 _ (List.mem_map_of_mem before) entry.path List.mem_cons_self ?_
  rw [at_, path, same]

include listed links

theorem parent_given (made : ∀ e ∈ w.entries, ¬w.Skips e → ∃ m payload,
      w.metadataFor source e = .ok m ∧ serializeEntryMetadata m = .ok payload)
    {front back : List DirectoryEntry} {entry : DirectoryEntry}
    (split : w.entries = front ++ entry :: back) (gives : ¬w.Skips entry)
    (path : entry.path = w.root ++ (f ++ [n])) : f = [] ∨ f ∈ givenPaths w front := by
  by_cases top : f = []
  · exact .inl top
  · right
    have inside : entry ∈ w.entries := by
      rw [split]
      exact List.mem_append_right _ List.mem_cons_self
    obtain ⟨-, ⟨x, here, -⟩, -⟩ := of_mem_walkedEntries source (h.walked inside)
    rw [path, ← List.append_assoc] at here
    obtain ⟨stat, dir⟩ := source.tree.closed _ _ (by rw [here]; exact Option.some_ne_none x)
    have belongs : Included writerOptions (.dir stat) :=
      ⟨fun same => EntryType.noConfusion same, fun same => EntryType.noConfusion same⟩
    have member := h.mem_of_included listed top dir belongs
    have givesAbove := (h.gives_iff member dir).mpr belongs
    have dangle : LinksDangle source writerOptions w.root := fun included names target link =>
      absurd link (links included names target)
    have first := above_first h made dangle (split ▸ List.Sublist.refl _) gives givesAbove path rfl
      (List.prefix_append f [n]) (by simp) (split ▸ member)
    exact mem_givenPaths.mpr ⟨_, first, givesAbove, List.drop_left⟩

include at_

theorem Reached.entries (made : ∀ e ∈ w.entries, ¬w.Skips e → ∃ m payload,
      w.metadataFor source e = .ok m ∧ serializeEntryMetadata m = .ok payload)
    {front back : List DirectoryEntry} {contents : List (List ArchiveRecord)}
    (all : List.Forall₂ (Emits P w) back contents) (split : w.entries = front ++ back)
    {e : Extraction FileSystem}
    (reached : Reached source w options T base (givenPaths w front) e) :
    Ends (processRecords (diskOps quietHost) options (below T []) contents.flatten) e
      (fun _ e' => Reached source w options T base (givenPaths w w.entries) e')
      fun _ _ => False := by
  induction all generalizing front e with
  | nil =>
    rw [split, List.append_nil]
    exact reached
  | @cons entry records back contents emits _ ih =>
    have further : w.entries = (front ++ [entry]) ++ back := by
      rw [split, List.append_assoc]
      rfl
    have walked : entry ∈ walkedEntries source writerOptions w.root := h.walked (by
      rw [split]
      exact List.mem_append_right _ List.mem_cons_self)
    rw [List.flatten_cons, ends_processRecords_append]
    by_cases skips : w.Skips entry
    · have none : records = [] := by
        cases emits with
        | skipped => rfl
        | single gives => exact absurd skips gives
        | file isFile =>
          rcases skips with special | ⟨link, -⟩
          · exact absurd (isFile.symm.trans special) EntryType.noConfusion
          · exact absurd (isFile.symm.trans link) EntryType.noConfusion
      subst none
      exact ih further (givenPaths_skipped skips front ▸ reached)
    · obtain ⟨⟨names, filled, path⟩, -⟩ := of_mem_walkedEntries source walked
      obtain ⟨f, n, rfl⟩ := (List.eq_nil_or_concat' names).resolve_left filled
      refine (reached.entry at_ h.top walked (not_link_of_walked links walked) path skips emits
        (parent_given h listed links made split skips path) (not_given_before h split path)).mono
        (fun _ e' next => ih further ?_) fun _ _ => id
      rw [givenPaths_given skips path]
      exact next

end Run

structure Unpacked (source : SourceTree) (w : ArchiveWriter) (options : ArchiveReaderOptions)
    (T : List FileName) (base : DiskTree) (e : Extraction FileSystem) : Prop where
  begun : e.archiveBeginSeen = true
  ended : e.archiveEndSeen = true
  closed : e.currentFileOpen = false
  extracted : Extracted source w options T base (givenPaths w w.entries) e.world.tree
  awaiting : Awaiting source w (givenPaths w w.entries) e.deferredDirectoryMetadata

theorem Unpacked.padding {e : Extraction FileSystem} (unpacked : Unpacked source w options T base e)
    (padding : List ArchiveRecord) (pads : ∀ r ∈ padding, r.type = .randomPadding) :
    Ends (processRecords (diskOps quietHost) options (below T []) padding) e
      (fun _ e' => Unpacked source w options T base e') fun _ _ => False := by
  induction padding with
  | nil => exact unpacked
  | cons r padding ih =>
    obtain ⟨type, payload⟩ := r
    obtain rfl : type = .randomPadding := pads _ List.mem_cons_self
    have passed : Ends (processRecord (diskOps quietHost) options (below T [])
        ⟨.randomPadding, payload⟩) e (fun _ e' => e' = e) fun _ _ => False := by
      unfold processRecord
      rw [ends_get_bind, ends_throwIf_bind, if_neg fun stray => stray.2 rfl]
      change Ends (throwIf _ _) e _ _
      rw [ends_throwIf, if_neg (not_not.mpr unpacked.ended)]
    rw [processRecords]
    refine Ends.bind passed ?_
    rintro - e' rfl
    exact ih fun r member => pads r (List.mem_cons_of_mem _ member)

/-- A whole stream puts every entry below an empty temporary root. -/
theorem wholeStream_extracted {writerOptions : ArchiveWriterOptions}
    (h : WritesTree source writerOptions w) (listed : ListsAll source writerOptions w.root)
    (links : LinksLeftOut source writerOptions w.root) {P : Moment → Prop}
    (at_ : ∀ now, P now → now.tree = source)
    {records : List ArchiveRecord} (whole : WholeStream P w records) (world : FileSystem)
    (dir : world.tree.IsDir T)
    (empty : ∀ q, q ≠ [] → world.tree.node (T ++ q) = none) (padding : List ArchiveRecord)
    (pads : ∀ r ∈ padding, r.type = .randomPadding) :
    Ends (processRecords (diskOps quietHost) options (below T []) (records ++ padding))
      (.initial world) (fun _ e' => Unpacked source w options T world.tree e')
      fun _ _ => False := by
  have made := (entryKeys_of_wholeStream at_ h.top (fun e => h.walked) whole).2
  obtain ⟨contents, all, rfl⟩ := whole
  have begins : Reached source w options T world.tree (givenPaths w [])
      { Extraction.initial world with archiveBeginSeen := true } :=
    { between := ⟨rfl, rfl, rfl, rfl⟩
      extracted := ⟨dir, fun q member => absurd member List.not_mem_nil, fun q filled _ =>
        empty q filled, fun _ _ => rfl⟩
      awaiting := ⟨fun q member => absurd member List.not_mem_nil, fun m member =>
        absurd member List.not_mem_nil⟩ }
  have first : Ends (processRecord (diskOps quietHost) options (below T [])
      ⟨.archiveBegin, ByteCodec.toLE 4 kArchiveFormatVersion.toNat⟩) (.initial world)
      (fun _ e' => Reached source w options T world.tree (givenPaths w []) e') fun _ _ => False :=
    (ends_processRecord rfl _).mpr
      (Ends.of_ran ((beginArchive_ok _ _ _).mpr ⟨rfl, rfl, rfl⟩) begins)
  rw [List.cons_append, List.append_assoc, processRecords]
  refine Ends.bind first fun _ e₁ reached => ?_
  have split : w.entries = [] ++ w.entries := rfl
  refine (ends_processRecords_append _ _).mpr
    ((reached.entries h listed links at_ made all split).mono
    (fun _ e₂ reached₂ => ?_) fun _ _ => id)
  have ends : Unpacked source w options T world.tree { e₂ with archiveEndSeen := true } :=
    ⟨reached₂.between.begun, rfl, reached₂.between.closed, reached₂.extracted, reached₂.awaiting⟩
  have last : Ends (processRecord (diskOps quietHost) options (below T []) ⟨.archiveEnd, []⟩) e₂
      (fun _ e' => Unpacked source w options T world.tree e') fun _ _ => False :=
    (ends_processRecord reached₂.between.running _).mpr (Ends.of_ran
      ((endArchive_ok _ _).mpr ⟨reached₂.between.begun, reached₂.between.closed, rfl⟩) ends)
  rw [List.singleton_append, processRecords]
  exact Ends.bind last fun _ e₃ unpacked => unpacked.padding padding pads

end Entries
end Bseal.Archive
