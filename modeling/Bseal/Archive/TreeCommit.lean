import Bseal.Archive.TreeExtraction

/-! `finish` of `archive/ArchiveReader` once a whole stream has been extracted: the temporary
directory is promoted, the metadata of the directories restored, and nothing else has changed. -/
namespace Bseal.Archive
open Effect FileTree

/-- Nothing is in the way of the entries: nothing stands where one goes, or a directory where a
directory goes, and none has the name of the temporary directory. -/
structure Fits (source : SourceTree) (writerOptions : ArchiveWriterOptions) (src : List FileName)
    (t : DiskTree) (root : List FileName) (name : FileName) : Prop where
  other : ∀ q x, q ≠ [] → source.tree.node (src ++ q) = some x → Included writerOptions x →
    q.head? ≠ some name
  free : ∀ q x, q ≠ [] → source.tree.node (src ++ q) = some x → Included writerOptions x →
    t.node (root ++ q) = none ∨ SourceNode.type x = .directory ∧ t.IsDir (root ++ q)

section Staged
variable {source : SourceTree} {w : ArchiveWriter} {options : ArchiveReaderOptions}
  {root T : List FileName} {name : FileName} {base u : DiskTree} {done : List (List FileName)}

theorem Extracts.included {q : List FileName} {x : SourceNode} {y : DiskNode}
    (extracts : Extracts w options q x y) (writerOptions : ArchiveWriterOptions) :
    Included writerOptions x := by
  cases extracts <;> exact ⟨EntryType.noConfusion, fun link => EntryType.noConfusion link⟩

theorem Extracted.not_link (extracted : Extracted source w options T base done u)
    (q : List FileName) (target : Bytes) : u.node (T ++ q) ≠ some (.link target) := by
  intro link
  by_cases top : q = []
  · obtain ⟨a, dir⟩ := extracted.root
    rw [top, List.append_nil, dir] at link
    cases link
  · by_cases member : q ∈ done
    · obtain ⟨x, y, -, extracts, here⟩ := extracted.inside q member
      rw [here] at link
      cases extracts <;> cases link
    · rw [extracted.free q top member] at link
      cases link

theorem Extracted.linksDangleInTurn
    (extracted : Extracted source w options (root ++ [name]) base done u) :
    LinksDangleInTurn u root name := fun _ names _ target _ link =>
  absurd link (extracted.not_link names target)

theorem Extracted.beside (extracted : Extracted source w options (root ++ [name]) base done u)
    {q : List FileName} (other : q.head? ≠ some name) :
    u.node (root ++ q) = (base.erase (root ++ [name])).node (root ++ q) := by
  have out : ¬root ++ [name] <+: root ++ q := fun under => other
    ( head_of_prefix' (by rwa [List.append_nil]))
  rw [Tree.erase_node _ (by simp), if_neg out]
  exact (extracted.outside _ out).symm

theorem Extracted.noConflict {writerOptions : ArchiveWriterOptions}
    (extracted : Extracted source w options (root ++ [name]) base done u)
    (fits : Fits source writerOptions w.root (base.erase (root ++ [name])) root name) :
    NoConflict u root name := by
  have given : ∀ q, q ≠ [] → u.node (root ++ [name] ++ q) ≠ none → ∃ x y,
      source.tree.node (w.root ++ q) = some x ∧ Extracts w options q x y ∧
      u.node (root ++ [name] ++ q) = some y := by
    intro q filled stands
    by_cases member : q ∈ done
    · exact extracted.inside q member
    · exact absurd (extracted.free q filled member) stands
  constructor
  · intro q filled stands
    obtain ⟨x, y, there, extracts, -⟩ := given q filled stands
    exact fits.other q x filled there (extracts.included _)
  · intro q filled stands
    obtain ⟨x, y, there, extracts, here⟩ := given q filled stands
    have other := fits.other q x filled there (extracts.included _)
    unfold Tree.IsDir
    rw [extracted.beside other]
    refine (fits.free q x filled there (extracts.included _)).imp_right fun ⟨kind, dir⟩ => ⟨?_, dir⟩
    cases extracts with
    | dir => exact ⟨_, here⟩
    | file => exact absurd kind EntryType.noConfusion

theorem Extracted.exists_listing (extracted : Extracted source w options T base done u)
    (once : done.Nodup) (filled : ∀ q ∈ done, q ≠ []) : ∃ paths, Listing u T paths := by
  let shallow (a b : List FileName) : Bool := decide (a.length ≤ b.length)
  have perm := List.mergeSort_perm (done.map (T ++ ·)) shallow
  refine ⟨(done.map (T ++ ·)).mergeSort shallow, ?_, fun p => ?_, ?_⟩
  · exact perm.nodup_iff.mpr (once.map fun _ _ => List.append_cancel_left)
  · rw [perm.mem_iff, List.mem_map]
    constructor
    · rintro ⟨q, member, rfl⟩
      obtain ⟨x, y, -, -, here⟩ := extracted.inside q member
      exact ⟨q, filled q member, rfl, by rw [here]; exact Option.some_ne_none y⟩
    · rintro ⟨q, some, rfl, stands⟩
      by_cases member : q ∈ done
      · exact ⟨q, member, rfl⟩
      · exact absurd (extracted.free q some member) stands
  · refine (List.pairwise_mergeSort ?_ ?_ _).imp fun le => of_decide_eq_true le
    · intro a b c first second
      exact decide_eq_true ((of_decide_eq_true first).trans (of_decide_eq_true second))
    · intro a b
      rw [Bool.or_eq_true]
      exact (Nat.le_total a.length b.length).imp decide_eq_true decide_eq_true

end Staged

section Directories
variable {options : ArchiveReaderOptions} {root : List FileName} {t u : DiskTree}
  {metas : List EntryMetadata} {m : EntryMetadata} {e : Extraction FileSystem}

structure Pending (root : List FileName) (t : DiskTree) (metas : List EntryMetadata) : Prop where
  directory : ∀ m ∈ metas, ∃ q, q ≠ [] ∧ m.relativePath = ownPath q ∧
    isSafeRelativePath (ownPath q) = true ∧ t.IsDir (root ++ q)
  unique : ∀ m ∈ metas, ∀ m' ∈ metas, m.relativePath = m'.relativePath → m = m'

structure MetadataRestored (options : ArchiveReaderOptions) (root : List FileName) (t : DiskTree)
    (metas : List EntryMetadata) (u : DiskTree) : Prop where
  dirs : ∀ p, t.IsDir p → u.IsDir p
  each : ∀ m ∈ metas, ∀ q, q ≠ [] → m.relativePath = ownPath q →
    ∃ a, u.node (root ++ q) = some (.dir (restoredTo options m a))
  others : ∀ p, (∀ m ∈ metas, ∀ q, q ≠ [] → m.relativePath = ownPath q → p ≠ root ++ q) →
    u.node p = t.node p

theorem MetadataRestored.directory {q : List FileName}
    (restored : MetadataRestored options root t metas u) (filled : q ≠ [])
    (own : m.relativePath = ownPath q) (there : t.IsDir (root ++ q))
    (unique : ∀ m' ∈ metas, m'.relativePath = m.relativePath → m' = m) :
    MetadataRestored options root t (metas ++ [m])
      (u.modify (root ++ q) (setAttributes (restoredTo options m)) (setAttributes_isDir _)) where
  dirs p dir := (Tree.isDir_modify _ _ _ p).mpr (restored.dirs p dir)
  each m' member q' filled' own' := by
    obtain ⟨a, here⟩ := restored.dirs _ there
    rw [Tree.modify_node]
    by_cases same : q' = q
    · subst same
      have again : m' = m := by
        rcases List.mem_append.mp member with old | last
        · exact unique m' old (own'.trans own.symm)
        · exact List.mem_singleton.mp last
      rw [Function.update_self, here, again]
      exact ⟨a, rfl⟩
    · rw [Function.update_of_ne fun place => same (List.append_cancel_left place)]
      rcases List.mem_append.mp member with old | last
      · exact restored.each m' old q' filled' own'
      · obtain rfl := List.mem_singleton.mp last
        exact absurd (ownPath_injective filled' filled (own'.symm.trans own)) same
  others p none := by
    rw [Tree.modify_node, Function.update_of_ne (none m (by simp) q filled own)]
    exact restored.others p fun m' member => none m' (List.mem_append_left _ member)

theorem applyEach_restores (outputRoot : options.outputRoot = below root [])
    {done rest : List EntryMetadata} (pending : Pending root t (done ++ rest))
    (restored : MetadataRestored options root t done e.world.tree) :
    Ends (applyEach (diskOps quietHost) options rest) e
      (fun _ e' => MetadataRestored options root t (done ++ rest) e'.world.tree)
      fun _ _ => False := by
  induction rest generalizing e done with
  | nil => rwa [List.append_nil]
  | cons m rest ih =>
    obtain ⟨q, filled, own, safe, dir⟩ := pending.directory m (by simp)
    obtain ⟨f, n, rfl⟩ := (List.eq_nil_or_concat' q).resolve_left filled
    have further : done ++ m :: rest = (done ++ [m]) ++ rest := by rw [List.append_assoc]; rfl
    obtain ⟨a, here⟩ := restored.dirs _ dir
    rw [← List.append_assoc] at here
    have upper : e.world.tree.IsDir (root ++ f) :=
      e.world.tree.closed _ n (by rw [here]; exact Option.some_ne_none _)
    rw [applyEach, own, outputRoot,
      ends_lift_bind_of_ok _ _ (makeSafeOutputPath_ownPath root filled safe), ← List.append_assoc]
    refine Ends.bind (applyMetadataToPath_quiet upper here rfl m) ?_
    rintro - e₁ ⟨changed, -⟩
    rw [further]
    refine ih (further ▸ pending) ?_
    rw [changed, List.append_assoc]
    refine restored.directory filled own dir fun m' member same => ?_
    exact pending.unique m' (List.mem_append_left _ member) m (by simp) same

theorem applyDeferred_restores (outputRoot : options.outputRoot = below root [])
    (pending : Pending root e.world.tree e.deferredDirectoryMetadata) :
    Ends (applyDeferredDirectoryMetadata (diskOps quietHost) options) e
      (fun _ e' => MetadataRestored options root e.world.tree e.deferredDirectoryMetadata
        e'.world.tree) fun _ _ => False := by
  have perm := List.perm_insertionSort Deeper e.deferredDirectoryMetadata
  unfold applyDeferredDirectoryMetadata
  rw [ends_get_bind]
  simp only
  rw [ends_set_bind]
  have sorted : Pending root e.world.tree
      ([] ++ e.deferredDirectoryMetadata.insertionSort Deeper) :=
    ⟨fun m member => pending.directory m (perm.mem_iff.mp member), fun m member m' member' =>
      pending.unique m (perm.mem_iff.mp member) m' (perm.mem_iff.mp member')⟩
  have start : MetadataRestored options root e.world.tree []
      { e with deferredDirectoryMetadata :=
        e.deferredDirectoryMetadata.insertionSort Deeper }.world.tree :=
    ⟨fun _ => id, fun m member => absurd member List.not_mem_nil, fun _ _ => rfl⟩
  refine (applyEach_restores outputRoot sorted start).mono ?_ fun _ _ => id
  rintro - e' ⟨dirs, each, others⟩
  refine ⟨dirs, fun m member => each m (perm.mem_iff.mpr member), fun p none => others p ?_⟩
  exact fun m member => none m (perm.mem_iff.mp member)

end Directories

section Finish
variable (host : Host) (hooks : DurabilityHooks) (options : ArchiveReaderOptions)
  (tempRoot : OutPath) (listing : DiskTree → List (List FileName))

def cleanupTempTree : Handler FileSystem Unit :=
  modify fun e => { e with
    currentFileOpen := false
    world := { e.world with
      stream := if e.currentFileOpen then none else e.world.stream }.removeAll tempRoot }

/-- `listing` is what `recursive_directory_iterator` finds below the temporary root, sorted. -/
def finish : Effect Failure (ArchiveReader FileSystem) Unit := do
  let r ← get
  if r.finished then pure ()
  else do
    lift (finishChecks r)
    onExtraction (zoom Extraction.world (fun w e => { e with world := w }) id
      (commitTempTree host hooks options tempRoot (listing r.extraction.world.tree)))
    onExtraction (applyDeferredDirectoryMetadata (diskOps host) options)
    onExtraction (cleanupTempTree tempRoot)
    modify fun r => { r with finished := true }

end Finish

/-- What is below `src` in the source is below `root` of `u`; the rest of `u` is that of `base`. -/
structure Reproduced (source : SourceTree) (writerOptions : ArchiveWriterOptions)
    (src : List FileName) (options : ArchiveReaderOptions) (base : DiskTree) (root : List FileName)
    (u : DiskTree) : Prop where
  directories : ∀ q stat, q ≠ [] → source.tree.node (src ++ q) = some (.dir stat) →
    ∃ m a, nodeMetadata writerOptions (ownPath q) (.dir stat) = .ok m ∧
      u.node (root ++ q) = some (.dir (restoredTo options m a))
  files : ∀ q stat content, q ≠ [] →
    source.tree.node (src ++ q) = some (.file stat (.regular content)) →
    ∃ m, nodeMetadata writerOptions (ownPath q) (.file stat (.regular content)) = .ok m ∧
      u.node (root ++ q) = some (.file (restoredTo options m .fresh) content.1)
  others : ∀ p, p ≠ root → (∀ q x, q ≠ [] → source.tree.node (src ++ q) = some x →
    Included writerOptions x → p ≠ root ++ q) → u.node p = base.node p

theorem included_dir {writerOptions : ArchiveWriterOptions} (stat : Stat) :
    Included writerOptions (.dir stat) :=
  ⟨EntryType.noConfusion, fun link => EntryType.noConfusion link⟩

theorem included_file {writerOptions : ArchiveWriterOptions} (stat : Stat) (content : FileContent) :
    Included writerOptions (.file stat (.regular content)) :=
  ⟨EntryType.noConfusion, fun link => EntryType.noConfusion link⟩

section Committing
variable {source : SourceTree} {w : ArchiveWriter} {writerOptions : ArchiveWriterOptions}
  {options : ArchiveReaderOptions} {root : List FileName} {name : FileName} {base u v : DiskTree}
  {e : Extraction FileSystem}

theorem WritesTree.given_of_included (h : WritesTree source writerOptions w)
    (all : ListsAll source writerOptions w.root) {q : List FileName} (filled : q ≠ [])
    {x : SourceNode} (here : source.tree.node (w.root ++ q) = some x)
    (included : Included writerOptions x) : q ∈ givenPaths w w.entries := by
  have member := h.mem_of_included all filled here included
  exact mem_givenPaths.mpr ⟨_, member, (h.gives_iff member here).mpr included, List.drop_left⟩

theorem WritesTree.given_filled (h : WritesTree source writerOptions w) {q : List FileName}
    (given : q ∈ givenPaths w w.entries) : q ≠ [] := by
  obtain ⟨entry, member, -, rfl⟩ := mem_givenPaths.mp given
  obtain ⟨⟨names, filled, path⟩, -⟩ := of_mem_walkedEntries source (h.walked member)
  rwa [path, List.drop_left]

theorem WritesTree.given_nodup (h : WritesTree source writerOptions w) :
    (givenPaths w w.entries).Nodup := by
  have nodup : (w.entries.map DirectoryEntry.path).Nodup :=
    (h.perm.map _).nodup_iff.mpr (walkedEntries_paths_nodup source)
  refine List.Nodup.of_map (w.root ++ ·) ?_
  have paths : (givenPaths w w.entries).map (w.root ++ ·) =
      (w.entries.filter fun e => !decide (w.Skips e)).map DirectoryEntry.path := by
    rw [givenPaths, List.map_map]
    refine List.map_congr_left fun entry member => ?_
    have walked := h.walked (List.mem_of_mem_filter member)
    obtain ⟨⟨names, -, path⟩, -⟩ := of_mem_walkedEntries source walked
    rw [Function.comp_apply, path, List.drop_left]
  rw [paths]
  exact nodup.sublist (List.filter_sublist.map _)

theorem Unpacked.placed (unpacked : Unpacked source w options (root ++ [name]) base e)
    (preserved : Preserved e.world.tree root name u) {q : List FileName} (filled : q ≠ [])
    (other : q.head? ≠ some name) (given : q ∈ givenPaths w w.entries) {x : SourceNode}
    (here : source.tree.node (w.root ++ q) = some x) :
    ∃ y, Extracts w options q x y ∧ e.world.tree.node (root ++ [name] ++ q) = some y ∧
      Placed (e.world.tree.node (root ++ q)) (some y) (u.node (root ++ q)) := by
  obtain ⟨x', y, there, extracts, staged⟩ := unpacked.extracted.inside q given
  obtain rfl : x' = x := Option.some.inj (there.symm.trans here)
  exact ⟨y, extracts, staged, staged ▸ preserved.placed q filled other⟩

theorem Unpacked.pending
    (unpacked : Unpacked source w options (root ++ [name]) base e)
    (fits : Fits source writerOptions w.root (base.erase (root ++ [name])) root name)
    (preserved : Preserved e.world.tree root name u) :
    Pending root u e.deferredDirectoryMetadata where
  directory m member := by
    obtain ⟨q, given, filled, safe, stat, here, made⟩ := unpacked.awaiting.only m member
    have other := fits.other q _ filled here (included_dir stat)
    obtain ⟨y, extracts, staged, placed⟩ := unpacked.placed preserved filled other given here
    cases extracts
    exact ⟨q, filled, nodeMetadata_path made, safe,
      (unpacked.extracted.noConflict fits).placed_dir filled staged placed⟩
  unique m member m' member' same := by
    obtain ⟨q, -, filled, -, stat, here, made⟩ := unpacked.awaiting.only m member
    obtain ⟨q', -, filled', -, stat', here', made'⟩ := unpacked.awaiting.only m' member'
    rw [nodeMetadata_path made, nodeMetadata_path made'] at same
    obtain rfl := ownPath_injective filled filled' same
    rw [here] at here'
    cases here'
    exact Except.ok.inj (made.symm.trans made')

theorem Unpacked.untouched
    (unpacked : Unpacked source w options (root ++ [name]) base e)
    (preserved : Preserved e.world.tree root name u)
    (outside : Tree.SameOutside root e.world.tree u) {p : List FileName} (top : p ≠ root)
    (out : ¬root ++ [name] <+: p) (none : ∀ q x, q ≠ [] →
      source.tree.node (w.root ++ q) = some x → Included writerOptions x → p ≠ root ++ q) :
    u.node p = base.node p := by
  rw [unpacked.extracted.outside p out]
  by_cases under : root <+: p
  · obtain ⟨q, rfl⟩ := under
    have filled : q ≠ [] := fun empty => top (by rw [empty, List.append_nil])
    have other : q.head? ≠ some name := fun head => out (by
      obtain ⟨r, rfl⟩ := List.head?_eq_some_iff.mp head
      exact ⟨r, by simp⟩)
    have placed := preserved.placed q filled other
    have absent : q ∉ givenPaths w w.entries := by
      intro given
      obtain ⟨x, y, here, extracts, -⟩ := unpacked.extracted.inside q given
      exact none q x filled here (extracts.included _) rfl
    rw [unpacked.extracted.free q filled absent] at placed
    exact placed
  · exact (outside p under).symm

theorem Unpacked.reproduced (h : WritesTree source writerOptions w)
    (all : ListsAll source writerOptions w.root)
    (unpacked : Unpacked source w options (root ++ [name]) base e)
    (fits : Fits source writerOptions w.root (base.erase (root ++ [name])) root name)
    (preserved : Preserved e.world.tree root name u)
    (outside : Tree.SameOutside root e.world.tree u)
    (restored : MetadataRestored options root u e.deferredDirectoryMetadata v) :
    Reproduced source writerOptions w.root options (base.erase (root ++ [name])) root
      (v.erase (root ++ [name])) := by
  have kept : ∀ q : List FileName, q.head? ≠ some name →
      (v.erase (root ++ [name])).node (root ++ q) = v.node (root ++ q) := by
    intro q other
    rw [Tree.erase_node _ (by simp), if_neg]
    exact fun under => other ( head_of_prefix' (by rwa [List.append_nil]))
  have own : ∀ m ∈ e.deferredDirectoryMetadata, ∀ q, q ≠ [] → m.relativePath = ownPath q →
      ∃ stat, source.tree.node (w.root ++ q) = some (.dir stat) := by
    intro m member q filled path
    obtain ⟨q', -, filled', -, stat, here, made⟩ := unpacked.awaiting.only m member
    obtain rfl := ownPath_injective filled filled' (path.symm.trans (nodeMetadata_path made))
    exact ⟨stat, here⟩
  constructor
  · intro q stat filled here
    have given := h.given_of_included all filled here (included_dir stat)
    obtain ⟨m, member, made⟩ := unpacked.awaiting.all q given stat here
    obtain ⟨a, there⟩ := restored.each m member q filled (nodeMetadata_path made)
    rw [kept q (fits.other q _ filled here (included_dir stat))]
    exact ⟨m, a, h.given ▸ made, there⟩
  · intro q stat content filled here
    have other := fits.other q _ filled here (included_file stat content)
    have given := h.given_of_included all filled here (included_file stat content)
    obtain ⟨y, extracts, -, placed⟩ := unpacked.placed preserved filled other given here
    rw [kept q other, restored.others]
    · cases extracts with
      | file made => exact ⟨_, h.given ▸ made, placed⟩
    · rintro m member q' filled' path same
      obtain ⟨stat', dir⟩ := own m member q' filled' path
      rw [← List.append_cancel_left same, here] at dir
      cases dir
  · intro p top none
    rw [Tree.erase_node _ (by simp), Tree.erase_node _ (by simp)]
    split
    · rfl
    · next out =>
      rw [restored.others, unpacked.untouched preserved outside top out none]
      intro m member q filled path
      obtain ⟨stat, dir⟩ := own m member q filled path
      exact none q _ filled dir (included_dir stat)

variable {hooks : DurabilityHooks} {listing : DiskTree → List (List FileName)}
  {r : ArchiveReader FileSystem}

theorem Unpacked.checks (unpacked : Unpacked source w options (root ++ [name]) base r.extraction)
    (whole : r.pending = []) : finishChecks r = .ok () := by
  rw [finishChecks, whole, unpacked.begun, unpacked.ended, unpacked.closed]
  rfl

theorem ends_onExtraction {x : Handler FileSystem Unit}
    {post : Unit → ArchiveReader FileSystem → Prop}
    {fail : Failure → ArchiveReader FileSystem → Prop} :
    Ends (onExtraction x) r post fail ↔ Ends x r.extraction
      (fun a e => post a { r with extraction := e }) fun f e => fail f { r with extraction := e } :=
  ends_zoom _ _ _ _ _

theorem cleanupTempTree_erases {T : List FileName} (dir : e.world.tree.IsDir T) :
    Ends (cleanupTempTree (below T [])) e (fun _ e' => e'.world.tree = e.world.tree.erase T)
      fun _ _ => False := by
  rw [cleanupTempTree, ends_modify, removeAll_root]
  exact dir

/-- The end of a reader that has taken a whole stream. -/
theorem finish_reproduces (h : WritesTree source writerOptions w)
    (all : ListsAll source writerOptions w.root)
    (unpacked : Unpacked source w options (root ++ [name]) base r.extraction)
    (fits : Fits source writerOptions w.root (base.erase (root ++ [name])) root name)
    (rooted : options.outputRoot = below root []) (succeed : hooks.Succeed)
    (lists : ∀ u paths, Listing u (root ++ [name]) paths → Listing u (root ++ [name]) (listing u))
    (whole : r.pending = []) (running : r.finished = false) :
    Ends (finish quietHost hooks options (below (root ++ [name]) []) listing) r
      (fun _ r' => r'.finished = true ∧ Reproduced source writerOptions w.root options
        (base.erase (root ++ [name])) root r'.extraction.world.tree) fun _ _ => False := by
  have staged := unpacked.extracted
  have dir : r.extraction.world.tree.IsDir root := staged.root.prefix (List.prefix_append _ _)
  have found : lookup r.extraction.world.tree true options.outputRoot = .found root := by
    rw [rooted]
    exact lookup_dir dir true
  obtain ⟨paths, some⟩ := staged.exists_listing h.given_nodup fun q => h.given_filled
  have listed := lists _ _ some
  have committed := commitTempTree_committed staged.root (staged.noConflict fits)
    staged.linksDangleInTurn succeed rfl found listed
  rw [finish, ends_get_bind, running, if_neg Bool.false_ne_true,
    ends_lift_bind_of_ok _ _ (unpacked.checks whole), ends_bind, ends_onExtraction, ends_zoom]
  refine committed.mono (fun _ w₁ c => ?_) fun _ _ => id
  have preserved := c.preserved staged.root listed
  have pending : Pending root w₁.tree r.extraction.deferredDirectoryMetadata :=
    unpacked.pending fits preserved
  rw [ends_bind, ends_onExtraction]
  refine (applyDeferred_restores (e := { r.extraction with world := w₁ }) rooted pending).mono
    (fun _ e₂ restored => ?_) fun _ _ => id
  have temp : w₁.tree.IsDir (root ++ [name] ++ []) := c.dir (by
    rw [List.append_nil]
    exact staged.root)
  rw [List.append_nil] at temp
  rw [ends_bind, ends_onExtraction]
  refine (cleanupTempTree_erases (restored.dirs _ temp)).mono (fun _ e₃ erased => ?_) fun _ _ => id
  rw [ends_modify]
  refine ⟨rfl, ?_⟩
  change Reproduced _ _ _ _ _ _ e₃.world.tree
  rw [erased]
  exact unpacked.reproduced h all fits preserved c.outside restored

end Committing

end Bseal.Archive
