import Bseal.Archive.LexicalPaths
import Bseal.Archive.ReaderLifetime
import Mathlib.Data.List.Sort

/-! Directory metadata at the end of an extraction, and which directories it reaches. -/
namespace Bseal.Archive
open Effect FileTree Platform

section Deferred
variable {σ : Type} (ops : ExtractOps σ) (options : ArchiveReaderOptions)

def Deeper (a b : EntryMetadata) : Prop :=
  (pathComponents b.relativePath).length ≤ (pathComponents a.relativePath).length

instance : DecidableRel Deeper := fun _ _ => inferInstanceAs (Decidable (_ ≤ _))

def applyEach : List EntryMetadata → Handler σ Unit
  | [] => pure ()
  | m :: rest => do
    let path ← lift (makeSafeOutputPath options.outputRoot m.relativePath)
    applyMetadataToPath ops options path m
    applyEach rest

/-- Deepest first. -/
def applyDeferredDirectoryMetadata : Handler σ Unit := do
  let r ← get
  let sorted := r.deferredDirectoryMetadata.insertionSort Deeper
  set { r with deferredDirectoryMetadata := sorted }
  applyEach ops options sorted

def AcceptedDirectory (m : EntryMetadata) : Prop :=
  ∃ payload, parseEntryMetadata payload = .ok m ∧ m.kind = .directory

theorem AcceptedDirectory.safe {m : EntryMetadata} (accepted : AcceptedDirectory m) :
    isSafeRelativePath m.relativePath = true := by
  obtain ⟨payload, parsed, -⟩ := accepted
  exact ((parseEntryMetadata_ok _ _).mp parsed).1.path.2

variable (tempRoot : OutPath) {e e' : Extraction σ}

theorem processRecord_deferred (r : ArchiveRecord)
    (accepted : ∀ m ∈ e.deferredDirectoryMetadata, AcceptedDirectory m)
    (done : exec (processRecord ops options tempRoot r) e = (.ok (), e')) :
    ∀ m ∈ e'.deferredDirectoryMetadata, AcceptedDirectory m := by
  unfold processRecord handleRecord at done
  rw [exec_get_bind, exec_throwIf_bind_ok] at done
  obtain ⟨-, done⟩ := done
  cases type : r.type <;> rw [type] at done <;> simp only at done
  case archiveBegin =>
    obtain ⟨-, -, rfl⟩ := (beginArchive_ok _ _ _).mp done
    exact accepted
  case directoryEntry =>
    obtain ⟨m, parsed, made⟩ := (exec_lift_bind_ok _ _ _ _ _).mp done
    obtain ⟨-, kind, path, -, w, -, rfl⟩ := (createDirectory_ok _ _ _ _ m).mp made
    intro other member
    rcases List.mem_append.mp member with member | member
    · exact accepted other member
    · obtain rfl := List.mem_singleton.mp member
      exact ⟨r.payload, parsed, kind⟩
  case fileEntry =>
    obtain ⟨m, -, opening⟩ := (exec_lift_bind_ok _ _ _ _ _).mp done
    obtain ⟨-, -, -, path, -, w, -, w', -, rfl⟩ := (beginFile_ok _ _ _ _ m).mp opening
    exact accepted
  case fileBytes =>
    obtain ⟨-, -, w, -, rfl⟩ := (writeFileBytes_ok _ _ _ _).mp done
    exact accepted
  case fileEnd =>
    obtain ⟨-, -, w, -, path, -, w', -, rfl⟩ := (endFile_ok _ _ _ _ _).mp done
    exact accepted
  case symlinkEntry =>
    obtain ⟨m, -, made⟩ := (exec_lift_bind_ok _ _ _ _ _).mp done
    obtain ⟨-, -, -, -, path, -, w, -, w', -, rfl⟩ := (createSymlink_ok _ _ _ _ _ m).mp made
    exact accepted
  case archiveEnd =>
    obtain ⟨-, -, rfl⟩ := (endArchive_ok _ _).mp done
    exact accepted
  case randomPadding =>
    obtain ⟨-, rfl⟩ := (exec_throwIf_ok _ _ _ _ _).mp done
    exact accepted

/-- What the records of a run leave for the end are accepted directory entries. -/
theorem processRecords_deferred (records : List ArchiveRecord)
    (accepted : ∀ m ∈ e.deferredDirectoryMetadata, AcceptedDirectory m)
    (done : exec (processRecords ops options tempRoot records) e = (.ok (), e')) :
    ∀ m ∈ e'.deferredDirectoryMetadata, AcceptedDirectory m := by
  induction records generalizing e with
  | nil =>
    obtain ⟨-, rfl⟩ := (exec_pure_ok _ _ _ _).mp done
    exact accepted
  | cons r records ih =>
    obtain ⟨_, middle, step, rest⟩ := (exec_bind_ok _ _ _ _ _).mp done
    exact ih (processRecord_deferred ops options tempRoot r accepted step) rest

end Deferred

def NoLinks (root : List FileName) (t : DiskTree) : Prop :=
  ∀ p target, root <+: p → t.node p ≠ some (.link target)

def Restores (options : ArchiveReaderOptions) (m : EntryMetadata) : Prop :=
  (options.restorePermissions = true ∧ m.posixMode ≠ 0) ∨
    (options.restoreTimestamps = true ∧ m.times.modifiedNsSinceUnixEpoch ≠ 0 ∧ m.kind ≠ .symlink)

section Reach
variable {root : List FileName} {base : DiskTree}

structure KeepsAbove (root : List FileName) (base : DiskTree) (w : FileSystem) : Prop where
  dir : w.tree.IsDir root
  links : NoLinks root w.tree
  same : ∀ p, ¬StrictlyBelow root p → w.tree.node p = base.node p

theorem lookup_lexical {t : DiskTree} (dir : t.IsDir root) (links : NoLinks root t) {rel : Bytes}
    (safe : isSafeRelativePath rel = true) {p : List FileName}
    (found : lookup t true (below root (archiveNames rel)) = .found p) :
    p = osPath (below root (archiveNames rel)) := by
  rw [osPath_archiveNames]
  refine (lookup_leads t dir true (archiveNames rel)).lexical ?_ found
  intro front n rest split target
  obtain ⟨q, -, place⟩ := name_on_way safe split
  rw [place root, List.append_assoc]
  exact links _ target (List.prefix_append _ _)

variable (host : Host) (options : ArchiveReaderOptions)

theorem KeepsAbove.changeAttributes {w : FileSystem} (k : KeepsAbove root base w) {rel : Bytes}
    (safe : isSafeRelativePath rel = true) (descends : Descends rel)
    (f : Attributes → Attributes) :
    Keeps (KeepsAbove root base)
      (FileSystem.changeAttributes host (below root (archiveNames rel)) f) w := by
  have ticked : KeepsAbove root base w.tick := ⟨k.dir, k.links, k.same⟩
  refine keeps_call host ticked (.get_bind ?_)
  split
  · next p found =>
    have place := lookup_lexical ticked.dir ticked.links safe found
    have strict := (strictlyBelow_osPath root safe).mpr descends
    rw [← place] at strict
    have dir := (w.tree.isDir_modify (p := p) _ (setAttributes_isDir f) root).mpr k.dir
    refine .of_set _ ⟨dir, fun q target under link => ?_, fun q out => ?_⟩
    · refine k.links q target under ?_
      change Function.update w.tree.node p _ q = _ at link
      by_cases same : q = p
      · rw [same, Function.update_self, Option.map_eq_some_iff] at link
        obtain ⟨x, here, now⟩ := link
        rw [same]
        exact here.trans (congrArg some (setAttributes_link f x target now))
      · rwa [Function.update_of_ne same] at link
    · have other : q ≠ p := by
        rintro rfl
        exact out strict
      exact (Function.update_of_ne other _ _).trans (k.same q out)
  · exact .of_throw _ ticked
  · exact .of_throw _ ticked
  · exact .of_throw _ ticked

variable {e : Extraction FileSystem}

theorem KeepsAbove.applyMetadataToPath (k : KeepsAbove root base e.world) (m : EntryMetadata)
    (safe : isSafeRelativePath m.relativePath = true)
    (descends : Restores options m → Descends m.relativePath) :
    Keeps (fun e => KeepsAbove root base e.world)
      (applyMetadataToPath (diskOps host) options (below root (archiveNames m.relativePath)) m)
        e := by
  have permissions : Keeps (fun e => KeepsAbove root base e.world)
      (restorePermissions (diskOps host) options (below root (archiveNames m.relativePath)) m)
        e := by
    unfold restorePermissions
    split
    · next restores => exact .of_zoom (k.changeAttributes host safe (descends (.inl restores)) _)
    · exact .of_pure _ k
  refine permissions.bind fun _ e' k' => ?_
  unfold restoreTimestamps
  split
  · next restores => exact .of_zoom (k'.changeAttributes host safe (descends (.inr restores)) _)
  · exact .of_pure _ k'

theorem KeepsAbove.applyEach (outputRoot : options.outputRoot = below root [])
    (k : KeepsAbove root base e.world) (entries : List EntryMetadata)
    (accepted : ∀ m ∈ entries, AcceptedDirectory m)
    (descend : ∀ m ∈ entries, Restores options m → Descends m.relativePath) :
    Keeps (fun e => KeepsAbove root base e.world) (applyEach (diskOps host) options entries) e := by
  induction entries generalizing e with
  | nil => exact .of_pure _ k
  | cons m rest ih =>
    obtain ⟨front, accepted⟩ := List.forall_mem_cons.mp accepted
    obtain ⟨here, descend⟩ := List.forall_mem_cons.mp descend
    refine .lift_bind k fun path made => ?_
    rw [outputRoot] at made
    obtain ⟨safe, rfl⟩ := makeSafeOutputPath_below made
    exact (k.applyMetadataToPath host options m safe here).bind fun _ e' k' =>
      ih k' accepted descend

theorem KeepsAbove.applyDeferred (outputRoot : options.outputRoot = below root [])
    (k : KeepsAbove root base e.world)
    (accepted : ∀ m ∈ e.deferredDirectoryMetadata, AcceptedDirectory m)
    (descend : ∀ m ∈ e.deferredDirectoryMetadata, Restores options m → Descends m.relativePath) :
    Keeps (fun e => KeepsAbove root base e.world)
      (applyDeferredDirectoryMetadata (diskOps host) options) e := by
  have perm := List.perm_insertionSort Deeper e.deferredDirectoryMetadata
  refine .get_bind <| .set_bind _ ?_
  refine KeepsAbove.applyEach host options outputRoot ?_ _
    (fun m member => accepted m (perm.mem_iff.mp member))
    fun m member => descend m (perm.mem_iff.mp member)
  exact k

end Reach

/-! The other direction: an entry that does not descend, on a disk with all the directories that
the entries name. -/
section Marks
variable {root : List FileName} {D : DiskTree} {S : List FileName → Prop}

structure Marks (D : DiskTree) (S : List FileName → Prop) (w : FileSystem) : Prop where
  dirs : ∀ p, D.IsDir p → w.tree.IsDir p
  changed : ∀ p, S p → ∃ a, w.tree.node p = some (.dir a) ∧ a ≠ .fresh

def OnWay (D : DiskTree) (root : List FileName) (rel : Bytes) : Prop :=
  ∀ p, p <+: root ++ namesIn (splitSlash (cutNul rel)) → D.IsDir p

theorem OnWay.lookup {rel : Bytes} (way : OnWay D root rel) (safe : isSafeRelativePath rel = true)
    {t : DiskTree} (dirs : ∀ p, D.IsDir p → t.IsDir p) :
    lookup t true (below root (archiveNames rel)) =
      .found (osPath (below root (archiveNames rel))) := by
  rw [osPath_archiveNames, lookup_below t (dirs root (way root (List.prefix_append _ _)))]
  refine resolve_lexical readTarget t true _ root _ fun front n rest split => ?_
  obtain ⟨p, under, place⟩ := name_on_way safe split
  rw [place root, List.append_assoc]
  exact dirs _ (way _ ((List.prefix_append_right_inj root).mpr under))

theorem OnWay.isDir {rel : Bytes} (way : OnWay D root rel) (safe : isSafeRelativePath rel = true) :
    D.IsDir (osPath (below root (archiveNames rel))) := by
  refine way _ ?_
  rw [osPath_archiveNames, ← lexical_moves, moves_archiveNames safe, lexical_append,
    lexical_names]
  split
  · exact List.dropLast_prefix _
  · exact List.prefix_refl _

theorem Marks.changeAttributes {w : FileSystem} (marks : Marks D S w) {rel : Bytes}
    (way : OnWay D root rel) (safe : isSafeRelativePath rel = true)
    (f : Attributes → Attributes) (sets : ∀ a, f a ≠ .fresh) :
    Ends (FileSystem.changeAttributes quietHost (below root (archiveNames rel)) f) w
      (fun _ w' => Marks D (fun p => S p ∨ p = osPath (below root (archiveNames rel))) w')
      (fun _ _ => False) := by
  have found := way.lookup safe marks.dirs
  unfold FileSystem.changeAttributes FileSystem.call
  rw [ends_get_bind, ends_set_bind]
  change Ends (get >>= _) w.tick _ _
  rw [ends_get_bind, show w.tick.tree = w.tree from rfl, found]
  obtain ⟨a, there⟩ := marks.dirs _ (way.isDir safe)
  generalize osPath (below root (archiveNames rel)) = q at there
  refine ⟨fun p dir => (w.tree.isDir_modify _ (setAttributes_isDir f) p).mpr (marks.dirs p dir),
    fun p marked => ?_⟩
  by_cases same : p = q
  · subst same
    refine ⟨f a, (Function.update_self ..).trans ?_, sets a⟩
    change Option.map _ (w.tree.node p) = _
    rw [there]
    rfl
  · obtain ⟨b, here, set⟩ := marks.changed p (marked.resolve_right same)
    exact ⟨b, (Function.update_of_ne same _ _).trans here, set⟩

theorem Marks.mono {w : FileSystem} (marks : Marks D S w) {S' : List FileName → Prop}
    (fewer : ∀ p, S' p → S p) : Marks D S' w :=
  ⟨marks.dirs, fun p member => marks.changed p (fewer p member)⟩

variable (options : ArchiveReaderOptions) {e : Extraction FileSystem}

theorem Marks.applyMetadataToPath (marks : Marks D S e.world) {m : EntryMetadata}
    (way : OnWay D root m.relativePath) (safe : isSafeRelativePath m.relativePath = true) :
    Ends (applyMetadataToPath (diskOps quietHost) options
        (below root (archiveNames m.relativePath)) m) e
      (fun _ e' => Marks D (fun p => S p ∨ Restores options m ∧
        p = osPath (below root (archiveNames m.relativePath))) e'.world)
      (fun _ _ => False) := by
  have permissions : Ends (restorePermissions (diskOps quietHost) options
        (below root (archiveNames m.relativePath)) m) e
      (fun _ e' => Marks D (fun p => S p ∨ (options.restorePermissions = true ∧ m.posixMode ≠ 0) ∧
        p = osPath (below root (archiveNames m.relativePath))) e'.world)
      (fun _ _ => False) := by
    unfold restorePermissions
    split
    · next restores =>
      refine (ends_zoom _ _ _ _ _).mpr ?_
      refine (marks.changeAttributes way safe _ fun a fresh => ?_).mono ?_ fun _ _ => id
      · cases congrArg Attributes.mode fresh
      · exact fun _ _ done => done.mono fun p => Or.imp_right And.right
    · next none => exact marks.mono fun p => Or.rec id fun act => absurd act.1 none
  refine permissions.bind fun _ e' marks' => ?_
  unfold restoreTimestamps
  split
  · next restores =>
    refine (ends_zoom _ _ _ _ _).mpr ?_
    refine (marks'.changeAttributes way safe _ fun a fresh => ?_).mono ?_ fun _ _ => id
    · cases congrArg Attributes.modified fresh
    · exact fun _ _ done => done.mono fun p =>
        Or.rec (fun old => .inl (.inl old)) fun ⟨_, place⟩ => .inr place
  · next none =>
    refine marks'.mono fun p => ?_
    rintro (old | ⟨act | act, place⟩)
    · exact .inl old
    · exact .inr ⟨act, place⟩
    · exact absurd act none

theorem Marks.applyEach (outputRoot : options.outputRoot = below root [])
    (marks : Marks D S e.world) (entries : List EntryMetadata)
    (accepted : ∀ m ∈ entries, AcceptedDirectory m)
    (way : ∀ m ∈ entries, OnWay D root m.relativePath) :
    Ends (applyEach (diskOps quietHost) options entries) e
      (fun _ e' => Marks D (fun p => S p ∨ ∃ m ∈ entries, Restores options m ∧
        p = osPath (below root (archiveNames m.relativePath))) e'.world)
      (fun _ _ => False) := by
  induction entries generalizing e S with
  | nil => exact marks.mono fun p => Or.rec id fun ⟨m, member, _⟩ => absurd member List.not_mem_nil
  | cons m rest ih =>
    obtain ⟨front, accepted⟩ := List.forall_mem_cons.mp accepted
    obtain ⟨here, way⟩ := List.forall_mem_cons.mp way
    have made : makeSafeOutputPath options.outputRoot m.relativePath =
        .ok (below root (archiveNames m.relativePath)) := by
      rw [outputRoot]
      refine (makeSafeOutputPath_ok _ _ _).mpr ⟨front.safe, ?_⟩
      rw [below, below, List.append_nil]
      rfl
    rw [Archive.applyEach, ends_lift_bind_of_ok _ _ made]
    refine (marks.applyMetadataToPath options here front.safe).bind fun _ e' marks' => ?_
    refine (ih marks' accepted way).mono (fun _ _ done => done.mono fun p => ?_) fun _ _ => id
    rintro (old | ⟨n, member, act⟩)
    · exact .inl (.inl old)
    · rcases List.mem_cons.mp member with rfl | member
      · exact .inl (.inr act)
      · exact .inr ⟨n, member, act⟩

theorem Marks.applyDeferred (outputRoot : options.outputRoot = below root [])
    (marks : Marks D S e.world)
    (accepted : ∀ m ∈ e.deferredDirectoryMetadata, AcceptedDirectory m)
    (way : ∀ m ∈ e.deferredDirectoryMetadata, OnWay D root m.relativePath) :
    Ends (applyDeferredDirectoryMetadata (diskOps quietHost) options) e
      (fun _ e' => Marks D (fun p => S p ∨ ∃ m ∈ e.deferredDirectoryMetadata, Restores options m ∧
        p = osPath (below root (archiveNames m.relativePath))) e'.world)
      (fun _ _ => False) := by
  have perm := List.perm_insertionSort Deeper e.deferredDirectoryMetadata
  unfold applyDeferredDirectoryMetadata
  rw [ends_get_bind]
  simp only
  rw [ends_set_bind]
  have sorted : Marks D S
      { e with
        deferredDirectoryMetadata := e.deferredDirectoryMetadata.insertionSort Deeper }.world :=
    marks
  refine (sorted.applyEach options outputRoot _
    (fun m member => accepted m (perm.mem_iff.mp member))
    fun m member => way m (perm.mem_iff.mp member)).mono
    (fun _ _ done => done.mono fun p => Or.imp_right ?_) fun _ _ => id
  exact fun ⟨m, member, act⟩ => ⟨m, perm.mem_iff.mpr member, act⟩

end Marks

/-- A sanitized path leads strictly below the root exactly when it descends, and the deferred
metadata of a run leaves the root and everything not strictly below it alone, on every disk
without links there, exactly when the entries that it restores descend. -/
theorem strict_descent_iff {σ : Type} (ops : ExtractOps σ) (options : ArchiveReaderOptions)
    (root : List FileName) (outputRoot : options.outputRoot = below root []) (tempRoot : OutPath)
    (world : σ) (records : List ArchiveRecord) (e : Extraction σ)
    (ran : exec (processRecords ops options tempRoot records) (.initial world) = (.ok (), e)) :
    (∀ payload m, parseEntryMetadata payload = .ok m →
      ∃ path, makeSafeOutputPath (below root []) m.relativePath = .ok path ∧
        (StrictlyBelow root (osPath path) ↔ Descends m.relativePath)) ∧
    ((∀ host w, w.tree.IsDir root → NoLinks root w.tree → ∀ p, ¬StrictlyBelow root p →
        (exec (applyDeferredDirectoryMetadata (diskOps host) options)
          (e.withWorld w)).2.world.tree.node p = w.tree.node p) ↔
      ∀ m ∈ e.deferredDirectoryMetadata, Restores options m → Descends m.relativePath) := by
  have accepted : ∀ m ∈ e.deferredDirectoryMetadata, AcceptedDirectory m :=
    processRecords_deferred ops options tempRoot records
      (fun m member => absurd member List.not_mem_nil) ran
  refine ⟨fun payload m parsed => ?_, fun unchanged m member restores => ?_,
    fun descend host w dir links p out => ?_⟩
  · have safe := ((parseEntryMetadata_ok _ _).mp parsed).1.path.2
    refine ⟨_, (makeSafeOutputPath_ok _ _ _).mpr ⟨safe, rfl⟩, ?_⟩
    rw [show below root [] ++ normalNames (pathComponents m.relativePath) =
      below root (archiveNames m.relativePath) by rw [below, below, List.append_nil]; rfl]
    exact strictlyBelow_osPath root safe
  · by_contra stays
    -- a disk with the directories that the entries name: the calls reach what they name
    let paths := e.deferredDirectoryMetadata.map fun m =>
      root ++ namesIn (splitSlash (cutNul m.relativePath))
    let D : DiskTree := .directories Attributes.fresh paths
    have way : ∀ m ∈ e.deferredDirectoryMetadata, OnWay D root m.relativePath :=
      fun m member p under =>
        ⟨_, Tree.directories_node Attributes.fresh (List.mem_map_of_mem member) under⟩
    have links : NoLinks root D := by
      intro p target _ here
      cases Tree.directories_only Attributes.fresh paths here
    have safe := (accepted m member).safe
    have start : Marks D (fun _ => False) (e.withWorld (FileSystem.start D)).world :=
      ⟨fun _ dir => dir, fun _ => False.elim⟩
    obtain ⟨-, marks⟩ := (start.applyDeferred options outputRoot accepted way).returns
    obtain ⟨a, changed, set⟩ := marks.changed _ (.inr ⟨m, member, restores, rfl⟩)
    obtain ⟨b, there⟩ := (way m member).isDir safe
    have same := unchanged quietHost (.start D) (way m member root (List.prefix_append _ _)) links
      _ fun strict => stays ((strictlyBelow_osPath root safe).mp strict)
    rw [same] at changed
    exact set (Node.dir.inj (Tree.directories_only Attributes.fresh paths changed))
  · have k : KeepsAbove root w.tree (e.withWorld w).world := ⟨dir, links, fun _ _ => rfl⟩
    exact (k.applyDeferred host options outputRoot accepted descend).final.same p out

def directoryAt (path : Bytes) : ArchiveRecord :=
  ⟨.directoryEntry, encodeEntryMetadata ⟨.directory, path, 0, 0o700, ⟨0, none, none⟩, []⟩⟩

def directoriesAt (paths : List Bytes) : List ArchiveRecord :=
  beginRecord :: paths.map directoryAt ++ [⟨.archiveEnd, []⟩]

def afterDirectories (paths : List Bytes) : Except Failure Unit × Extraction FileSystem :=
  exec (processRecords (diskOps quietHost) linksOptions (below [outName, tmpName] [])
    (directoriesAt paths)) (.initial (.start outTree))

theorem strict_descent_iff_ordinary : ∃ e, afterDirectories [ascii "d", ascii "d/a"] = (.ok (), e) ∧
    ∀ host w, w.tree.IsDir [outName] → NoLinks [outName] w.tree → ∀ p, ¬StrictlyBelow [outName] p →
      (exec (applyDeferredDirectoryMetadata (diskOps host) linksOptions)
        (e.withWorld w)).2.world.tree.node p = w.tree.node p := by
  have accepted : (afterDirectories [ascii "d", ascii "d/a"]).1.isOk = true := by decide +kernel
  have descend : ∀ m ∈ (afterDirectories [ascii "d", ascii "d/a"]).2.deferredDirectoryMetadata,
      Descends m.relativePath := by
    decide +kernel
  rcases ran : afterDirectories [ascii "d", ascii "d/a"] with ⟨x | u, e⟩
  · rw [ran] at accepted
    cases accepted
  · rw [ran] at descend
    exact ⟨e, rfl, (strict_descent_iff (diskOps quietHost) linksOptions [outName] rfl _ _ _ e
      ran).2.mpr fun m member _ => descend m member⟩

/-- Two entries that the decoder takes: the output root itself, and the directory above it. -/
theorem root_and_parent_changed :
    (∃ path, makeSafeOutputPath (below [outName] []) (ascii "./.") = .ok path ∧
      osPath path = [outName]) ∧
    (∃ path, makeSafeOutputPath (below [outName] []) (dotDot ++ [0]) = .ok path ∧
      osPath path = []) ∧
    ∃ e, afterDirectories [ascii "./.", dotDot ++ [0]] = (.ok (), e) ∧
      outTree.node [outName] = some (.dir .fresh) ∧ outTree.node [] = some (.dir .fresh) ∧
      ∀ p ∈ [[outName], []],
        (exec (applyDeferredDirectoryMetadata (diskOps quietHost) linksOptions) e).2.world.tree.node
          p = some (.dir ⟨some 0o700, none⟩) := by
  refine ⟨⟨_, (makeSafeOutputPath_ok _ _ _).mpr ⟨by decide, rfl⟩, by decide⟩,
    ⟨_, (makeSafeOutputPath_ok _ _ _).mpr ⟨by decide, rfl⟩, by decide⟩, ?_⟩
  have accepted : (afterDirectories [ascii "./.", dotDot ++ [0]]).1.isOk = true := by
    decide +kernel
  have changed : ∀ p ∈ [[outName], []],
      (exec (applyDeferredDirectoryMetadata (diskOps quietHost) linksOptions)
        (afterDirectories [ascii "./.", dotDot ++ [0]]).2).2.world.tree.node p =
          some (.dir ⟨some 0o700, none⟩) := by
    decide +kernel
  rcases ran : afterDirectories [ascii "./.", dotDot ++ [0]] with ⟨x | u, e⟩
  · rw [ran] at accepted
    cases accepted
  · rw [ran] at changed
    exact ⟨e, rfl, by decide, by decide, changed⟩

end Bseal.Archive
