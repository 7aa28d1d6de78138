import Bseal.Archive.SymlinkContainment

/-! The life of an `ArchiveReader` before its commit: construction, calls, moves from object to
object, destruction. The temporary directory is all that it leaves, while it lives. -/
namespace Bseal.Archive
open Effect FileTree Platform

def Extraction.withWorld {σ τ : Type} (e : Extraction σ) (world : τ) : Extraction τ where
  archiveBeginSeen := e.archiveBeginSeen
  archiveEndSeen := e.archiveEndSeen
  currentFileOpen := e.currentFileOpen
  currentFileArchivePath := e.currentFileArchivePath
  currentFileMetadata := e.currentFileMetadata
  currentFileWritten := e.currentFileWritten
  deferredDirectoryMetadata := e.deferredDirectoryMetadata
  world := world

def ArchiveReader.withWorld {σ τ : Type} (r : ArchiveReader σ) (world : τ) : ArchiveReader τ :=
  ⟨r.pending, r.finished, r.extraction.withWorld world⟩

/-- The members of an object. Of the world only the output stream is one. -/
structure ReaderObject where
  options : ArchiveReaderOptions
  tempRoot : OutPath
  reader : ArchiveReader (Option (List FileName) × Bool)

namespace ReaderObject

def load (o : ReaderObject) (disk : FileSystem) : ArchiveReader FileSystem :=
  o.reader.withWorld { disk with
    stream := o.reader.extraction.world.1
    streamGood := o.reader.extraction.world.2 }

def store (o : ReaderObject) (r : ArchiveReader FileSystem) : ReaderObject × FileSystem :=
  ({ o with reader := r.withWorld (r.extraction.world.stream, r.extraction.world.streamGood) },
    r.extraction.world)

end ReaderObject

/-- `remove_all`, which does not follow a link; it succeeds. -/
def FileSystem.removeAll (w : FileSystem) (path : OutPath) : FileSystem :=
  match lookup w.tree false path with
  | .found p => { w with tree := w.tree.erase p }
  | _ => w

section Object
variable (host : Host)

def fsCall {α : Type} (context : String) (op : Effect String FileSystem α) :
    Effect Failure FileSystem α :=
  zoom id (fun w _ => w) (fun m => invalid (context ++ m)) op

/-- `open` with `O_DIRECTORY | O_NOFOLLOW`, and `close`. -/
def FileSystem.openDirectory (path : OutPath) : Effect String FileSystem Unit :=
  FileSystem.call host do
    let w ← get
    match lookup w.tree false path with
    | .found p => throwIf (¬w.tree.IsDir p) enotdir
    | .missing _ _ | .notFound => throw enoent
    | .failed => throw eloop

abbrev TempSuffix := { s : Bytes // (0 : Byte) ∉ s ∧ slash ∉ s }

/-- `.bseal-extract-tmp.` and sixteen characters from the generator. -/
def tempName (suffix : TempSuffix) : FileName :=
  ⟨ascii ".bseal-extract-tmp." ++ suffix.1, by
    refine ⟨?_, ?_, ?_, ?_, ?_⟩
    · exact List.append_ne_nil_of_left_ne_nil (by decide) _
    · intro same
      have len := congrArg List.length same
      rw [List.length_append, show (ascii ".bseal-extract-tmp.").length = 19 from rfl,
        show dot.length = 1 from rfl] at len
      omega
    · intro same
      have len := congrArg List.length same
      rw [List.length_append, show (ascii ".bseal-extract-tmp.").length = 19 from rfl,
        show dotDot.length = 2 from rfl] at len
      omega
    · intro nul
      rcases List.mem_append.mp nul with nul | nul
      · exact absurd nul (by decide)
      · exact suffix.2.1 nul
    · intro root
      rcases List.mem_append.mp root with root | root
      · exact absurd root (by decide)
      · exact suffix.2.2 root⟩

def present (t : DiskTree) (path : OutPath) : Bool :=
  match lookup t false path with
  | .found _ => true
  | _ => false

/-- The temporary directory, made so that it cannot be one that was there before. -/
def makeTempRoot (options : ArchiveReaderOptions) (root : List FileName) (name : FileName) :
    Effect Failure FileSystem Unit :=
  let tempRoot := below root [name.1]
  if options.hardenedExtractMode ≠ .off then do
    fsCall "cannot open output root for hardened temp creation: "
      (FileSystem.openDirectory host (below root []))
    let failed := "cannot create temporary extraction directory '" ++ text name.1 ++ "': "
    let created ← fsCall failed (FileSystem.mkdir host tempRoot)
    throwIf (created = false) (invalid (failed ++ eexist))
  else do
    let w ← get
    throwIf (present w.tree tempRoot = true) (invalid
      ("temporary extraction directory already exists: " ++ tempRoot.string))
    fsCall "cannot create temporary extraction directory: "
      (FileSystem.createDirectory host tempRoot)

/-- The constructor. Once `create_directories` has returned without an error the output root is
there, and `weakly_canonical` is its physical path. -/
def construct (options : ArchiveReaderOptions) (suffix : TempSuffix) :
    Effect Failure FileSystem ReaderObject := do
  fsCall "cannot create output root: " (FileSystem.createDirectories host options.outputRoot)
  let w ← get
  match lookup w.tree true options.outputRoot with
  | .found root => do
    makeTempRoot host options root (tempName suffix)
    pure ⟨{ options with outputRoot := below root [] }, below (root ++ [tempName suffix]) [],
      .initial (none, true)⟩
  | _ => throw (invalid ("cannot canonicalize output root: " ++ eloop))

/-- The calls of `finish` before it enters the commit; `none` when it would. -/
def finishBeforeCommit (o : ReaderObject) : Option (Result Unit) :=
  if o.reader.finished then some (.ok ())
  else match finishChecks o.reader with
    | .ok () => none
    | .error e => some (.error e)

namespace ReaderObject

def consume (o : ReaderObject) (bytes : Bytes) (disk : FileSystem) : ReaderObject × FileSystem :=
  o.store (exec (Archive.consume (diskOps host) o.options o.tempRoot bytes) (o.load disk)).2

def cleanupTempTree (o : ReaderObject) (disk : FileSystem) : FileSystem :=
  disk.removeAll o.tempRoot

def destroy (o : ReaderObject) (disk : FileSystem) : FileSystem :=
  if o.reader.finished then disk else o.cleanupTempTree disk

/-- What a move leaves of an object: nothing that it owns, and marked as finished. -/
def movedFrom (o : ReaderObject) : ReaderObject where
  options := o.options
  tempRoot := []
  reader := { ArchiveReader.initial (none, true) with finished := true }

/-- Move assignment to another object: its own temporary directory goes first. -/
def moveAssign (self other : ReaderObject) (disk : FileSystem) :
    ReaderObject × ReaderObject × FileSystem :=
  (other, other.movedFrom, self.destroy disk)

end ReaderObject

end Object

structure Session where
  disk : FileSystem
  objects : Nat → Option ReaderObject

def Session.begin (o : ReaderObject) (disk : FileSystem) : Session :=
  ⟨{ disk with touched := [] }, Function.update (fun _ => none) 0 (some o)⟩

theorem Session.begin_objects (o : ReaderObject) (disk : FileSystem) :
    (Session.begin o disk).objects = Function.update (fun _ => none) 0 (some o) := rfl

/-- What can happen to the objects of an extraction that does not reach its commit. -/
inductive ReaderStep (host : Host) : Session → Session → Prop where
  | consume {s : Session} {i : Nat} {o : ReaderObject} (bytes : Bytes)
      (held : s.objects i = some o) :
      ReaderStep host s ⟨(o.consume host bytes s.disk).2,
        Function.update s.objects i (some (o.consume host bytes s.disk).1)⟩
  | finish {s : Session} {i : Nat} {o : ReaderObject} {outcome : Result Unit}
      (held : s.objects i = some o) (stops : finishBeforeCommit o = some outcome) :
      ReaderStep host s s
  | moveConstruct {s : Session} {i j : Nat} {o : ReaderObject} (held : s.objects i = some o)
      (free : s.objects j = none) :
      ReaderStep host s ⟨s.disk,
        Function.update (Function.update s.objects i (some o.movedFrom)) j (some o)⟩
  | moveAssign {s : Session} {i j : Nat} {self other : ReaderObject} (distinct : i ≠ j)
      (held : s.objects i = some self) (from_ : s.objects j = some other) :
      ReaderStep host s ⟨(self.moveAssign other s.disk).2.2,
        Function.update (Function.update s.objects i (some (self.moveAssign other s.disk).1)) j
          (some (self.moveAssign other s.disk).2.1)⟩
  | destroy {s : Session} {i : Nat} {o : ReaderObject} (held : s.objects i = some o) :
      ReaderStep host s ⟨o.destroy s.disk, Function.update s.objects i none⟩

/-- A life of the extraction in `T`, and the tree without it, which only others change. They leave
alone what is below `T`. -/
inductive Life (host : Host) (T : List FileName) (start : Session) : DiskTree → Session → Prop where
  | constructed : Life host T start (start.disk.tree.erase T) start
  | step {base : DiskTree} {s s' : Session} (life : Life host T start base s)
      (step : ReaderStep host s s') : Life host T start base s'
  | others {base : DiskTree} {s : Session} (life : Life host T start base s) (u : DiskTree)
      (apart : ∀ p, T <+: p → u.node p = s.disk.tree.node p) :
      Life host T start (u.erase T) ⟨{ s.disk with tree := u }, s.objects⟩

def Finished (objects : Nat → Option ReaderObject) (P : Nat → Prop) : Prop :=
  ∀ j o, objects j = some o → P j → o.reader.finished = true

theorem Finished.update {objects : Nat → Option ReaderObject} {P Q : Nat → Prop} {k : Nat}
    {v : Option ReaderObject} (old : Finished objects P) (kept : ∀ j, j ≠ k → Q j → P j)
    (new : ∀ o, v = some o → Q k → o.reader.finished = true) :
    Finished (Function.update objects k v) Q := by
  intro j o here q
  by_cases same : j = k
  · subst same
    rw [Function.update_self] at here
    exact new o here q
  · rw [Function.update_of_ne same] at here
    exact old j o here (kept j same q)

section Invariant
variable (T : List FileName) (base : DiskTree)

/-- One object, in place `i`, holds the extraction. -/
structure Holds (s : Session) (i : Nat) (o : ReaderObject) : Prop where
  held : s.objects i = some o
  running : o.reader.finished = false
  tempRoot : o.tempRoot = below T []
  noLinks : o.options.allowSymlinks = false
  guarded : Guarded T base (o.load s.disk).extraction
  finished : Finished s.objects fun j => j ≠ i

structure Over (s : Session) : Prop where
  finished : Finished s.objects fun _ => True
  restored : s.disk.tree = base
  touched : ∀ p ∈ s.disk.touched, T <+: p

variable {T base} {s : Session} {i : Nat} {o : ReaderObject}

theorem consume_finished (host : Host) (finished : o.reader.finished = true) (bytes : Bytes)
    (disk : FileSystem) : o.consume host bytes disk = o.store (o.load disk) := by
  unfold ReaderObject.consume Archive.consume
  rw [exec_get_bind, exec_throwIf_bind]
  exact congrArg (fun r : Result Unit × ArchiveReader FileSystem => o.store r.2) (if_pos finished)

theorem removeAll_root {w : FileSystem} (dir : w.tree.IsDir T) :
    w.removeAll (below T []) = { w with tree := w.tree.erase T } := by
  have found : lookup w.tree false (below T []) = .found T := by
    rw [lookup_below w.tree dir]
    rfl
  rw [FileSystem.removeAll, found]

theorem erase_of_sameOutside {t : DiskTree} (nonroot : T ≠ []) (absent : base.node T = none)
    (same : Tree.SameOutside T base t) : t.erase T = base := by
  refine Tree.ext_node fun p => ?_
  rw [Tree.erase_node t nonroot]
  by_cases under : T <+: p
  · rw [if_pos under, base.none_of_prefix under absent]
  · rw [if_neg under, same p under]

theorem Holds.destroyed (h : Holds T base s i o) (nonroot : T ≠ []) (absent : base.node T = none) :
    (o.destroy s.disk).tree = base ∧ (o.destroy s.disk).touched = s.disk.touched := by
  have dir : s.disk.tree.IsDir T := h.guarded.world.root
  have frame : Tree.SameOutside T base s.disk.tree := h.guarded.world.frame
  rw [ReaderObject.destroy, h.running, if_neg Bool.false_ne_true, ReaderObject.cleanupTempTree,
    h.tempRoot, removeAll_root dir]
  exact ⟨erase_of_sameOutside nonroot absent frame, rfl⟩

theorem destroy_finished (finished : o.reader.finished = true) (disk : FileSystem) :
    o.destroy disk = disk := if_pos finished

variable {host : Host} {s' : Session}

theorem Holds.consumed (h : Holds T base s i o) (bytes : Bytes) :
    Holds T base ⟨(o.consume host bytes s.disk).2,
      Function.update s.objects i (some (o.consume host bytes s.disk).1)⟩ i
      (o.consume host bytes s.disk).1 := by
  have clean : ∀ record, CleanRecord o.options record := by
    intro record _ m _ allowed
    rw [h.noLinks] at allowed
    cases allowed
  have kept :=
    (Guarded.consume host o.options clean bytes (o.load s.disk) h.running h.guarded).final
  rw [← h.tempRoot] at kept
  exact {
    held := Function.update_self ..
    running := kept.1
    tempRoot := h.tempRoot
    noLinks := h.noLinks
    guarded := kept.2
    finished := h.finished.update (fun _ _ away => away) fun _ _ away => absurd rfl away }

theorem Holds.aside (h : Holds T base s i o) (disk : FileSystem)
    (same : o.load disk = o.load s.disk) {objects : Nat → Option ReaderObject}
    (held : objects i = some o) (finished : Finished objects fun j => j ≠ i) :
    Holds T base ⟨disk, objects⟩ i o :=
  { h with held := held, finished := finished, guarded := same ▸ h.guarded }

theorem Holds.step (h : Holds T base s i o) (nonroot : T ≠ []) (absent : base.node T = none)
    (step : ReaderStep host s s') : (∃ j o', Holds T base s' j o') ∨ Over T base s' := by
  cases step with
  | @consume k other bytes held =>
    left
    by_cases same : k = i
    · subst same
      obtain rfl := Option.some.inj (held.symm.trans h.held)
      exact ⟨k, _, h.consumed bytes⟩
    · have ended := h.finished k other held same
      rw [consume_finished host ended]
      refine ⟨i, o, h.aside (other.store (other.load s.disk)).2 rfl ?_
        (h.finished.update (fun _ _ away => away) ?_)⟩
      · rw [Function.update_of_ne (Ne.symm same)]
        exact h.held
      · rintro _ ⟨⟩ _
        exact ended
  | finish => exact .inl ⟨i, o, h⟩
  | @moveConstruct k j other held free =>
    left
    have new : j ≠ i := by
      rintro rfl
      rw [h.held] at free
      cases free
    by_cases same : k = i
    · subst same
      obtain rfl := Option.some.inj (held.symm.trans h.held)
      refine ⟨j, other, { h with held := Function.update_self .., finished := ?_ }⟩
      refine Finished.update (P := fun _ => True) (h.finished.update (fun _ away _ => away) ?_)
        (fun _ _ _ => trivial) fun _ _ away => absurd rfl away
      rintro _ ⟨⟩ _
      rfl
    · have ended := h.finished k other held same
      refine ⟨i, o, h.aside _ rfl ?_ ((h.finished.update (fun _ _ away => away) ?_).update
        (fun _ _ away => away) ?_)⟩
      · rw [Function.update_of_ne (Ne.symm new), Function.update_of_ne (Ne.symm same)]
        exact h.held
      · rintro _ ⟨⟩ _
        rfl
      · rintro _ ⟨⟩ _
        exact ended
  | @moveAssign a b self other distinct held from_ =>
    by_cases target : a = i
    · right
      subst target
      obtain rfl := Option.some.inj (held.symm.trans h.held)
      have ended := h.finished b other from_ (Ne.symm distinct)
      obtain ⟨restored, touched⟩ := h.destroyed nonroot absent
      refine ⟨(h.finished.update (fun _ away _ => away) ?_).update (fun _ _ _ => trivial) ?_,
        restored, ?_⟩
      · rintro _ ⟨⟩ _
        exact ended
      · rintro _ ⟨⟩ _
        rfl
      · change ∀ p ∈ (self.destroy s.disk).touched, T <+: p
        rw [touched]
        exact h.guarded.world.touched
    · left
      have ended := h.finished a self held target
      simp only [ReaderObject.moveAssign, destroy_finished ended]
      by_cases source : b = i
      · subst source
        obtain rfl := Option.some.inj (from_.symm.trans h.held)
        refine ⟨a, other, { h with held := ?_, finished := ?_ }⟩
        · exact (Function.update_of_ne distinct _ _).trans (Function.update_self ..)
        · refine Finished.update (P := fun j => j ≠ a ∧ j ≠ b)
            (h.finished.update (fun _ _ away => away.2) ?_) (fun _ away away' => ⟨away', away⟩) ?_
          · exact fun _ _ away => absurd rfl away.1
          · rintro _ ⟨⟩ _
            rfl
      · have ended' := h.finished b other from_ source
        refine ⟨i, o, h.aside _ rfl ?_ ((h.finished.update (fun _ _ away => away) ?_).update
          (fun _ _ away => away) ?_)⟩
        · rw [Function.update_of_ne (Ne.symm source), Function.update_of_ne (Ne.symm target)]
          exact h.held
        · rintro _ ⟨⟩ _
          exact ended'
        · rintro _ ⟨⟩ _
          rfl
  | @destroy k other held =>
    by_cases same : k = i
    · right
      subst same
      obtain rfl := Option.some.inj (held.symm.trans h.held)
      obtain ⟨restored, touched⟩ := h.destroyed nonroot absent
      refine ⟨h.finished.update (fun _ away _ => away) (fun _ gone => by cases gone), restored, ?_⟩
      change ∀ p ∈ (other.destroy s.disk).touched, T <+: p
      rw [touched]
      exact h.guarded.world.touched
    · left
      rw [destroy_finished (h.finished k other held same)]
      refine ⟨i, o, h.aside _ rfl ?_ (h.finished.update (fun _ _ away => away) ?_)⟩
      · rw [Function.update_of_ne (Ne.symm same)]
        exact h.held
      · exact fun _ gone => by cases gone

theorem Over.step (ended : Over T base s) (step : ReaderStep host s s') : Over T base s' := by
  have all := ended.finished
  cases step with
  | @consume k other bytes held =>
    rw [consume_finished host (all k other held trivial)]
    refine ⟨all.update (fun _ _ _ => trivial) ?_, ended.restored, ended.touched⟩
    rintro _ ⟨⟩ _
    exact all k other held trivial
  | finish => exact ended
  | @moveConstruct k j other held free =>
    refine ⟨(all.update (fun _ _ _ => trivial) ?_).update (fun _ _ _ => trivial) ?_,
      ended.restored, ended.touched⟩
    · rintro _ ⟨⟩ _
      rfl
    · rintro _ ⟨⟩ _
      exact all k other held trivial
  | @moveAssign a b self other distinct held from_ =>
    simp only [ReaderObject.moveAssign, destroy_finished (all a self held trivial)]
    refine ⟨(all.update (fun _ _ _ => trivial) ?_).update (fun _ _ _ => trivial) ?_,
      ended.restored, ended.touched⟩
    · rintro _ ⟨⟩ _
      exact all b other from_ trivial
    · rintro _ ⟨⟩ _
      rfl
  | @destroy k other held =>
    rw [destroy_finished (all k other held trivial)]
    exact ⟨all.update (fun _ _ _ => trivial) (fun _ gone => by cases gone), ended.restored,
      ended.touched⟩

theorem Holds.others (h : Holds T base s i o) (nonroot : T ≠ []) (u : DiskTree)
    (apart : ∀ p, T <+: p → u.node p = s.disk.tree.node p) :
    Holds T (u.erase T) ⟨{ s.disk with tree := u }, s.objects⟩ i o := by
  have world := h.guarded.world
  refine { h with guarded := ⟨⟨?_, ?_, ?_, world.touched, world.stream⟩, h.guarded.opened⟩ }
  · intro p out
    rw [Tree.erase_node u nonroot, if_neg out]
    rfl
  · obtain ⟨a, here⟩ := world.root
    exact ⟨a, (apart T (List.prefix_refl T)).trans here⟩
  · intro p target under link
    exact world.links p target under ((apart p under).symm.trans link)

theorem Over.others (ended : Over T base s) (nonroot : T ≠ []) (absent : base.node T = none)
    (u : DiskTree) (apart : ∀ p, T <+: p → u.node p = s.disk.tree.node p) :
    Over T (u.erase T) ⟨{ s.disk with tree := u }, s.objects⟩ := by
  refine ⟨ended.finished, ?_, ended.touched⟩
  have gone : u.node T = none := by
    rw [apart T (List.prefix_refl T), ended.restored, absent]
  exact (erase_of_sameOutside nonroot gone (.refl u T)).symm

theorem Life.holds_or_over {start : Session} (nonroot : T ≠ [])
    (first : ∃ i o, Holds T (start.disk.tree.erase T) start i o)
    (life : Life host T start base s) :
    base.node T = none ∧ ((∃ i o, Holds T base s i o) ∨ Over T base s) := by
  have erased : ∀ t : DiskTree, (t.erase T).node T = none := by
    intro t
    rw [Tree.erase_node t nonroot, if_pos (List.prefix_refl T)]
  induction life with
  | constructed => exact ⟨erased _, .inl first⟩
  | step _ step ih =>
    refine ⟨ih.1, ?_⟩
    rcases ih.2 with ⟨i, o, h⟩ | ended
    · exact h.step nonroot ih.1 step
    · exact .inr (ended.step step)
  | others _ u apart ih =>
    refine ⟨erased u, ?_⟩
    rcases ih.2 with ⟨i, o, h⟩ | ended
    · exact .inl ⟨i, o, h.others nonroot u apart⟩
    · exact .inr (ended.others nonroot ih.1 u apart)

end Invariant

section Construction
variable (host : Host)

def OnlyNewDirectories (t u : DiskTree) : Prop :=
  ∀ p, u.node p = t.node p ∨ t.node p = none ∧ u.node p = some (.dir .fresh)

theorem OnlyNewDirectories.put {t u : DiskTree} (grown : OnlyNewDirectories t u)
    (d : List FileName) (n : FileName) : OnlyNewDirectories t (u.put d n (.dir .fresh)) := by
  intro p
  by_cases here : u.IsDir d ∧ u.node (d ++ [n]) = none
  · by_cases new : p = d ++ [n]
    · right
      have absent : t.node p = none := by
        rcases grown p with same | ⟨old, _⟩
        · rw [← same, new, here.2]
        · exact old
      exact ⟨absent, by rw [u.put_node _ here.1 here.2, new, Function.update_self]⟩
    · rw [u.put_node_of_ne _ new]
      exact grown p
  · rw [Tree.put, dif_neg here]
    exact grown p

variable {t : DiskTree} {w : FileSystem}

theorem mkdir_grows (path : OutPath) (grown : OnlyNewDirectories t w.tree) :
    Keeps (fun w' => OnlyNewDirectories t w'.tree) (FileSystem.mkdir host path) w := by
  refine keeps_call host grown (.get_bind ?_)
  split
  · exact .set_bind _ (.of_pure _ (grown.put _ _))
  · exact .of_pure _ grown
  · exact .of_throw _ grown
  · exact .of_throw _ grown

theorem createDirectory_grows (path : OutPath) (grown : OnlyNewDirectories t w.tree) :
    Keeps (fun w' => OnlyNewDirectories t w'.tree) (FileSystem.createDirectory host path) w := by
  refine (mkdir_grows host path grown).bind fun created w' grown' => ?_
  split
  · exact .of_pure _ grown'
  · refine Ends.bind_returns (ends_status host path w') fun st w'' done => ?_
    obtain ⟨same, _⟩ := done
    exact Keeps.of_throwIf (same ▸ grown')

theorem createMissing_grows (components : List Bytes) (grown : OnlyNewDirectories t w.tree) :
    Keeps (fun w' => OnlyNewDirectories t w'.tree)
    (FileSystem.createMissing host components) w := by
  induction components generalizing w with
  | nil => exact .of_pure _ grown
  | cons component up ih =>
    rw [FileSystem.createMissing]
    refine Ends.bind_returns (ends_status host _ w) fun st w' done => ?_
    obtain ⟨same, _⟩ := done
    have grown' : OnlyNewDirectories t w'.tree := same ▸ grown
    have make : ∀ u : FileSystem, OnlyNewDirectories t u.tree →
        Keeps (fun w' => OnlyNewDirectories t w'.tree)
          (if component = dot ∨ component = dotDot then pure ()
            else FileSystem.createDirectory host (component :: up).reverse) u := by
      intro u gu
      split
      · exact .of_pure _ gu
      · exact createDirectory_grows host _ gu
    cases st with
    | other => exact Keeps.of_throw _ grown'
    | notFound => exact (ih grown').bind fun _ => make
    | directory => exact make w' grown'
    | unknown => exact make w' grown'

theorem createDirectories_grows (path : OutPath) (w : FileSystem) :
    Ends (FileSystem.createDirectories host path) w
      (fun _ w' => OnlyNewDirectories w.tree w'.tree ∧
        (statusOf w.tree path = .directory → w'.tree = w.tree)) fun _ _ => True := by
  unfold FileSystem.createDirectories
  refine Ends.bind_returns (ends_status host path w) fun st w' done => ?_
  obtain ⟨same, st_eq⟩ := done
  have start : OnlyNewDirectories w.tree w'.tree := by
    rw [same]
    exact fun p => .inl rfl
  cases st with
  | directory => exact ⟨start, fun _ => by rw [same]; rfl⟩
  | other => trivial
  | unknown => trivial
  | notFound =>
    refine Ends.mono (keeps_createBehindDots host (I := fun u => OnlyNewDirectories w.tree u.tree)
      (fun _ grown => grown) (fun rest _ _ grown => createMissing_grows host rest grown) start)
      (fun _ _ grown => ⟨grown, fun dir => ?_⟩) fun _ _ _ => trivial
    rw [dir] at st_eq
    rcases st_eq with st_eq | st_eq <;> cases st_eq

theorem lookup_behind_file {root : List FileName} (there : t.node root ≠ none)
    (leaf : ¬t.IsDir root) (link : ∀ target, t.node root ≠ some (.link target)) (n : FileName) :
    lookup t false (below root [n.1]) = .notFound := by
  have nonroot : root ≠ [] := by
    rintro rfl
    exact leaf t.root
  obtain ⟨front, m, rfl⟩ := (List.eq_nil_or_concat' root).resolve_left nonroot
  have dir : t.IsDir front :=
    t.isDir_of_prefix (List.prefix_append front [m]) (by simp) there
  have steps : osSteps [m.1, n.1] = [.name m, .name n] := by
    rw [osSteps, osSteps, toStep_fileName, toStep_fileName, if_neg m.2.2.2.2.1, if_neg n.2.2.2.2.1]
    rfl
  have path : below (front ++ [m]) [n.1] = below front [m.1, n.1] := by
    rw [below, below, List.map_append, List.append_assoc]
    rfl
  rw [path, lookup_below t dir, steps]
  change walk readTarget t false _ front [.name m, .name n] = _
  rw [walk]
  rcases here : t.node (front ++ [m]) with _ | a | ⟨a, content⟩ | target
  · exact absurd here there
  · exact absurd ⟨a, here⟩ leaf
  · rfl
  · exact absurd here (link target)

theorem mkdir_child {root : List FileName} (there : w.tree.node root ≠ none)
    (link : ∀ target, w.tree.node root ≠ some (.link target)) (n : FileName) :
    Ends (FileSystem.mkdir host (below root [n.1])) w
      (fun created w' => w.tree.IsDir root ∧
        if created then w.tree.node (root ++ [n]) = none ∧
          w'.tree = w.tree.put root n (.dir .fresh)
        else w.tree.node (root ++ [n]) ≠ none) fun _ _ => True := by
  unfold FileSystem.mkdir FileSystem.call
  rw [ends_get_bind, ends_set_bind]
  split
  · trivial
  · rw [ends_get_bind]
    by_cases dir : w.tree.IsDir root
    · rw [show w.tick.tree = w.tree from rfl, lookup_child dir]
      by_cases absent : w.tree.node (root ++ [n]) = none
      · rw [if_pos absent]
        exact ⟨dir, absent, rfl⟩
      · rw [if_neg absent]
        exact ⟨dir, absent⟩
    · rw [show w.tick.tree = w.tree from rfl, lookup_behind_file there dir link]
      trivial

theorem makeTempRoot_fresh (options : ArchiveReaderOptions) {root : List FileName}
    (there : w.tree.node root ≠ none)
    (link : ∀ target, w.tree.node root ≠ some (.link target)) (n : FileName) :
    Ends (makeTempRoot host options root n) w
      (fun _ w' => w.tree.IsDir root ∧ w.tree.node (root ++ [n]) = none ∧
        w'.tree = w.tree.put root n (.dir .fresh)) fun _ _ => True := by
  unfold makeTempRoot
  by_cases hardened : options.hardenedExtractMode ≠ .off
  · rw [if_pos hardened]
    have opens : Ends (fsCall "cannot open output root for hardened temp creation: "
        (FileSystem.openDirectory host (below root []))) w (fun _ w' => w'.tree = w.tree)
        (fun _ _ => True) := by
      refine (ends_zoom _ _ _ _ _).mpr ?_
      unfold FileSystem.openDirectory FileSystem.call
      rw [ends_get_bind, ends_set_bind]
      split
      · trivial
      · rw [ends_get_bind]
        split
        · rw [ends_throwIf]
          split
          · trivial
          · rfl
        · trivial
        · trivial
        · trivial
    refine opens.bind fun _ w₁ same => ?_
    rw [← same] at there link ⊢
    refine Ends.bind ((ends_zoom _ _ _ _ _).mpr (mkdir_child host there link n)) ?_
    rintro created w₂ ⟨dir, made⟩
    rw [ends_throwIf]
    cases created with
    | false => trivial
    | true => exact ⟨dir, made⟩
  · rw [if_neg hardened, ends_get_bind, ends_throwIf_bind]
    split
    · trivial
    · next unseen =>
      refine (ends_zoom _ _ _ _ _).mpr ?_
      unfold FileSystem.createDirectory
      refine Ends.bind (mkdir_child host there link n) ?_
      rintro created w₂ ⟨dir, made⟩
      cases created with
      | true => exact ⟨dir, made⟩
      | false =>
        refine absurd ?_ unseen
        rw [present, lookup_child dir, if_neg made]

/-- What the constructor leaves: an object on a fresh temporary directory in the output root. -/
theorem construct_spec (options : ArchiveReaderOptions) (suffix : TempSuffix)
    (w : FileSystem) :
    Ends (construct host options suffix) w
      (fun o w' => ∃ root mid, lookup mid true options.outputRoot = .found root ∧
        OnlyNewDirectories w.tree mid ∧
        (statusOf w.tree options.outputRoot = .directory → mid = w.tree) ∧
        mid.IsDir root ∧ mid.node (root ++ [tempName suffix]) = none ∧
        w'.tree = mid.put root (tempName suffix) (.dir .fresh) ∧
        o = ⟨{ options with outputRoot := below root [] }, below (root ++ [tempName suffix]) [],
          .initial (none, true)⟩) fun _ _ => True := by
  unfold construct
  refine Ends.bind ((ends_zoom _ _ _ _ _).mpr (createDirectories_grows host _ w)) ?_
  rintro - w₁ ⟨grown, old⟩
  rw [ends_get_bind]
  split
  · next root found =>
    have leads : Leads readTarget w₁.tree true [] (osSteps options.outputRoot)
        (lookup w₁.tree true options.outputRoot) := resolve_leads readTarget w₁.tree true _ _ _
    rw [found] at leads
    refine Ends.bind (makeTempRoot_fresh host options (leads.sound w₁.tree.root)
      (leads.not_link w₁.tree.root rfl rfl) (tempName suffix)) ?_
    rintro - w₂ ⟨dir, absent, made⟩
    exact ⟨root, w₁.tree, found, grown, old, dir, absent, made, rfl⟩
  · trivial

end Construction

/-- Before its commit a reader changes nothing outside its fresh temporary directory, through
calls, throws, moves and whatever others do elsewhere; once every object that held it is gone or
moved from, the tree is what it would be without it. What the constructor adds are directories
that were missing on the way to the output root. -/
theorem nothing_published_before_commit (host : Host) (options : ArchiveReaderOptions)
    (noLinks : options.allowSymlinks = false) (suffix : TempSuffix)
    (w w' : FileSystem) (o : ReaderObject)
    (constructed : exec (construct host options suffix) w = (.ok o, w')) :
    ∃ root, let T := root ++ [tempName suffix]
      o.options.outputRoot = below root [] ∧ o.tempRoot = below T [] ∧ w.tree.node T = none ∧
      OnlyNewDirectories w.tree (w'.tree.erase T) ∧
      (statusOf w.tree options.outputRoot = .directory → w'.tree.erase T = w.tree) ∧
      ∀ base s, Life host T (.begin o w') base s →
        Tree.SameOutside T base s.disk.tree ∧ (∀ p ∈ s.disk.touched, T <+: p) ∧
          ((∀ i o, s.objects i = some o → o.reader.finished = true) → s.disk.tree = base) := by
  obtain ⟨root, mid, -, grown, old, dir, absent, made, object⟩ :=
    (construct_spec host options suffix w).of_ok constructed
  have nonroot : root ++ [tempName suffix] ≠ [] := by simp
  have erased : w'.tree.erase (root ++ [tempName suffix]) = mid := by
    refine erase_of_sameOutside nonroot absent ?_
    rw [made]
    intro p out
    refine (mid.put_node_of_ne _ ?_).symm
    rintro rfl
    exact out (List.prefix_refl _)
  refine ⟨root, by rw [object], by rw [object], ?_, erased.symm ▸ grown,
    fun was => erased.trans (old was), ?_⟩
  · rcases grown (root ++ [tempName suffix]) with same | ⟨none, -⟩
    · rw [← same, absent]
    · exact none
  · intro base s life
    have root' : w'.tree.IsDir (root ++ [tempName suffix]) := by
      refine ⟨.fresh, ?_⟩
      rw [made, mid.put_node _ dir absent, Function.update_self]
    have first : Holds (root ++ [tempName suffix]) (w'.tree.erase (root ++ [tempName suffix]))
        (.begin o w') 0 o := {
      held := by rw [Session.begin_objects, Function.update_self]
      running := by rw [object]; rfl
      tempRoot := by rw [object]
      noLinks := by rw [object]; exact noLinks
      guarded := by
        rw [object]
        refine ⟨⟨?_, root', ?_, fun _ member => absurd member List.not_mem_nil,
          fun _ opened => by cases opened⟩, fun opened => by cases opened⟩
        · intro p out
          rw [Tree.erase_node _ nonroot, if_neg out]
          rfl
        · intro p target under link
          change w'.tree.node p = _ at link
          by_cases same : p = root ++ [tempName suffix]
          · obtain ⟨a, here⟩ := root'
            rw [same, here] at link
            cases link
          · rw [made, mid.put_node_of_ne _ same, mid.none_of_prefix under absent] at link
            cases link
      finished := by
        rw [Session.begin_objects]
        exact Finished.update (P := fun _ => True) (fun _ _ gone => by cases gone)
          (fun _ _ _ => trivial) fun _ _ away => absurd rfl away }
    obtain ⟨gone, ⟨i, o, h⟩ | ended⟩ := life.holds_or_over nonroot ⟨0, _, first⟩
    · refine ⟨h.guarded.world.frame, h.guarded.world.touched, fun finished => ?_⟩
      have running := finished i o h.held
      rw [h.running] at running
      cases running
    · exact ⟨ended.restored ▸ .refl _ _, ended.touched, fun _ => ended.restored⟩

def outOnly : DiskTree := (Tree.empty Attributes.fresh).put [] outName (.dir .fresh)

def plainOptions (outputRoot : OutPath) : ArchiveReaderOptions :=
  { linksOptions with outputRoot := outputRoot, allowSymlinks := false }

def someSuffix : TempSuffix := ⟨ascii "0123456789abcdef", by decide⟩

/-- A reader that is destroyed in the middle of a file. -/
theorem nothing_published_before_commit_outOnly :
    ∃ o w', exec (construct quietHost (plainOptions [ascii "out"]) someSuffix) (.start outOnly) =
        (.ok o, w') ∧
      let consumed := o.consume quietHost (encodeRecords (fileInParts.take 4))
        { w' with touched := [] }
      consumed.2.tree.node [outName, tempName someSuffix, aName] = some (.file .fresh [1, 2]) ∧
        (consumed.1.destroy consumed.2).tree = outOnly := by
  have restored : ∀ (o : ReaderObject) (w' : FileSystem) (bytes : Bytes),
      exec (construct quietHost (plainOptions [ascii "out"]) someSuffix) (.start outOnly) =
        (.ok o, w') →
      ((o.consume quietHost bytes { w' with touched := [] }).1.destroy
        (o.consume quietHost bytes { w' with touched := [] }).2).tree = outOnly := by
    intro o w' bytes constructed
    obtain ⟨root, -, -, -, -, erased, lives⟩ := nothing_published_before_commit quietHost
      (plainOptions [ascii "out"]) rfl someSuffix _ _ _ constructed
    have held : (Session.begin o w').objects 0 = some o := by
      rw [Session.begin_objects, Function.update_self]
    have life : Life quietHost (root ++ [tempName someSuffix]) (.begin o w') _ _ :=
      (Life.constructed.step (.consume bytes held)).step (.destroy (Function.update_self 0 _ _))
    refine ((lives _ _ life).2.2 fun i o there => ?_).trans (erased (by decide))
    dsimp only at there
    by_cases first : i = 0
    · rw [first, Function.update_self] at there
      cases there
    · rw [Function.update_of_ne first, Function.update_of_ne first, Session.begin_objects,
        Function.update_of_ne first] at there
      cases there
  have constructed : exec (construct quietHost (plainOptions [ascii "out"]) someSuffix)
      (.start outOnly) = (.ok ⟨plainOptions [ascii "out"],
        [ascii "out", (tempName someSuffix).1], .initial (none, true)⟩,
        (exec (construct quietHost (plainOptions [ascii "out"]) someSuffix) (.start outOnly)).2) :=
    Prod.ext rfl rfl
  exact ⟨_, _, constructed, by decide +kernel, restored _ _ _ constructed⟩

/-- The output root `out/a/..` is `out`, and keeps the directory `a` made on the way to it. -/
theorem missing_parent_left :
    ∃ o w', exec (construct quietHost (plainOptions [ascii "out", ascii "a", dotDot]) someSuffix)
        (.start outOnly) = (.ok o, w') ∧ o.options.outputRoot = [ascii "out"] ∧
      outOnly.node [outName, aName] = none ∧
      (o.destroy w').tree.node [outName, aName] = some (.dir .fresh) := by
  refine ⟨⟨plainOptions [ascii "out"], [ascii "out", (tempName someSuffix).1],
    .initial (none, true)⟩, _, Prod.ext rfl rfl, rfl, by decide, ?_⟩
  decide +kernel

end Bseal.Archive
