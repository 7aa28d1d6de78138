import Bseal.Archive.ArchiveReader
import Bseal.Archive.FileSystem

/-! Extraction over the file system, and what stays inside the temporary directory: as long as
no link below it goes up, every call of a record handler acts below it. -/
namespace Bseal.Archive
open Effect FileTree Platform

section Paths

theorem toStep_ne_up {component : Bytes} (safe : cutNul component ≠ dotDot) :
    toStep component ≠ .up := by
  intro up
  unfold toStep at up
  by_cases name : IsFileName (cutNul component)
  · rw [dif_pos name] at up
    cases up
  · rw [dif_neg name, if_neg safe] at up
    cases up

/-- Without a `..` component only the last step can go up, out of a component with a NUL. -/
theorem osSteps_down {names : OutPath} (safe : dotDot ∉ names) :
    .up ∉ osSteps names ∨ EndsInDir (osSteps names) := by
  induction names with
  | nil => exact .inl (List.not_mem_nil)
  | cons c cs ih =>
    rw [List.mem_cons, not_or] at safe
    rw [osSteps]
    by_cases nul : (0 : Byte) ∈ c
    · rw [if_pos nul]
      by_cases up : toStep c = .up
      · right
        rw [up]
        intro n last
        cases last
      · left
        rw [List.mem_singleton]
        exact Ne.symm up
    · have first : toStep c ≠ .up := by
        refine toStep_ne_up ?_
        rw [cutNul_of_notMem nul]
        exact Ne.symm safe.1
      rw [if_neg nul]
      rcases ih safe.2 with down | ends
      · left
        rw [List.mem_cons, not_or]
        exact ⟨Ne.symm first, down⟩
      · cases rest : osSteps cs with
        | nil =>
          left
          rw [List.mem_singleton]
          exact Ne.symm first
        | cons s steps =>
          right
          intro n last
          rw [List.getLast?_cons_cons, ← rest] at last
          exact ends n last

theorem dotDot_notMem_normalNames {path : Bytes} (safe : isSafeRelativePath path = true) :
    dotDot ∉ normalNames (pathComponents path) := by
  intro here
  rcases List.mem_append.mp here with here | here
  · have member := (List.mem_filter.mp here).1
    unfold isSafeRelativePath at safe
    rw [Bool.and_eq_true, List.all_eq_true] at safe
    simpa using safe.2 dotDot member
  · split at here
    · rw [List.mem_singleton] at here
      exact absurd here (by decide)
    · exact List.not_mem_nil here

theorem splitSlash_ne_nil (path : Bytes) : splitSlash path ≠ [] := by
  cases path with
  | nil => exact List.cons_ne_nil _ _
  | cons b bs =>
    rw [splitSlash]
    split
    · exact List.cons_ne_nil _ _
    · split
      · exact List.cons_ne_nil _ _
      · exact List.cons_ne_nil _ _

theorem mem_of_mem_splitSlash {path segment : Bytes} {b : Byte}
    (member : segment ∈ splitSlash path) (here : b ∈ segment) : b ∈ path := by
  induction path generalizing segment with
  | nil =>
    rw [splitSlash, List.mem_singleton] at member
    exact member ▸ here
  | cons c cs ih =>
    rw [splitSlash] at member
    split at member
    · rcases List.mem_cons.mp member with rfl | member
      · exact absurd here List.not_mem_nil
      · exact List.mem_cons_of_mem c (ih member here)
    · split at member
      · next empty => exact absurd empty (splitSlash_ne_nil cs)
      · next first rest split =>
        rcases List.mem_cons.mp member with rfl | member
        · rcases List.mem_cons.mp here with rfl | here
          · exact List.mem_cons_self
          · exact List.mem_cons_of_mem c (ih (split ▸ List.mem_cons_self) here)
        · exact List.mem_cons_of_mem c (ih (split ▸ List.mem_cons_of_mem first member) here)

theorem fileNames_ne_nil {segs : List Bytes} (some : segs ≠ []) : fileNames segs ≠ [] := by
  induction segs with
  | nil => exact absurd rfl some
  | cons seg segs ih =>
    cases segs with
    | nil => exact List.cons_ne_nil _ _
    | cons next segs =>
      rw [fileNames]
      split
      · exact ih (List.cons_ne_nil _ _)
      · exact List.cons_ne_nil _ _
      · exact List.cons_ne_nil _ _

/-- The components of a safe archive path, as they stand below an output root. -/
def archiveNames (rel : Bytes) : OutPath := normalNames (pathComponents rel)

theorem normalNames_ne_nil {names : List Bytes} (some : names ≠ []) : normalNames names ≠ [] := by
  obtain ⟨front, last, rfl⟩ := (List.eq_nil_or_concat' names).resolve_left some
  unfold normalNames
  rw [List.getLast?_concat]
  by_cases isDot : last = dot
  · rw [if_pos (congrArg _ isDot)]
    exact List.append_ne_nil_of_right_ne_nil _ (List.cons_ne_nil _ _)
  · have kept : last ∈ (front ++ [last]).filter (· ≠ dot) := by
      rw [List.mem_filter]
      exact ⟨List.mem_append_right _ List.mem_cons_self, by simpa using isDot⟩
    exact List.append_ne_nil_of_left_ne_nil (List.ne_nil_of_mem kept) _

theorem archiveNames_ne_nil {rel : Bytes} (safe : isSafeRelativePath rel = true) :
    archiveNames rel ≠ [] := by
  unfold isSafeRelativePath at safe
  simp only [Bool.and_eq_true, Bool.not_eq_true', List.isEmpty_eq_false_iff,
    decide_eq_true_eq] at safe
  refine normalNames_ne_nil ?_
  rw [pathComponents, if_neg safe.1.1.2, if_neg (by simpa using safe.1.1.1)]
  exact fileNames_ne_nil (splitSlash_ne_nil rel)

theorem makeSafeOutputPath_ok (root : OutPath) (rel : Bytes) (path : OutPath) :
    makeSafeOutputPath root rel = .ok path ↔
      isSafeRelativePath rel = true ∧ root ++ normalNames (pathComponents rel) = path := by
  unfold makeSafeOutputPath
  split
  · next safe => simp [safe]
  · next refused => simp [refused]

end Paths

section Confined
variable (T : List FileName) (base : DiskTree)

/-- Only what is below `T` differs from `base`, or was acted on, and the links there stay there. -/
structure Confined (w : FileSystem) : Prop where
  frame : Tree.SameOutside T base w.tree
  root : w.tree.IsDir T
  links : Contained readTarget w.tree T
  touched : ∀ p ∈ w.touched, T <+: p
  stream : ∀ p, w.stream = some p → T <+: p

variable {T base} {w : FileSystem}

theorem Confined.tick (c : Confined T base w) : Confined T base w.tick :=
  ⟨c.frame, c.root, c.links, c.touched, c.stream⟩

theorem touched_append {p : List FileName} (touched : ∀ q ∈ w.touched, T <+: q)
    (inside : T <+: p) : ∀ q ∈ w.touched ++ [p], T <+: q := by
  intro q member
  rcases List.mem_append.mp member with member | member
  · exact touched q member
  · rw [List.mem_singleton] at member
    exact member ▸ inside

theorem Confined.create (c : Confined T base w) {d : List FileName} (n : FileName) {x : DiskNode}
    (inside : T <+: d) (clean : ∀ target, x = .link target →
      (readTarget target).1 = false ∧ .up ∉ (readTarget target).2) :
    Confined T base (w.create d n x) where
  frame := c.frame.trans (w.tree.sameOutside_put n x inside)
  root := c.root.put d n x
  links := c.links.put d n x clean
  touched := touched_append c.touched (inside.trans (List.prefix_append d [n]))
  stream := c.stream

theorem Confined.change (c : Confined T base w) {p : List FileName} {f : DiskNode → DiskNode}
    (keeps : ∀ x, (f x).isDir = x.isDir) (inside : T <+: p)
    (links : ∀ x target, f x = .link target → x = .link target) :
    Confined T base (w.change p f keeps) where
  frame := c.frame.trans (w.tree.sameOutside_modify f keeps inside)
  root := (w.tree.isDir_modify f keeps T).mpr c.root
  links := c.links.modify keeps links
  touched := touched_append c.touched inside
  stream := c.stream

theorem Confined.withStream (c : Confined T base w) (stream : Option (List FileName))
    (good : Bool) (inside : ∀ p, stream = some p → T <+: p) :
    Confined T base { w with stream := stream, streamGood := good } :=
  ⟨c.frame, c.root, c.links, c.touched, inside⟩

theorem setContent_link (f : Bytes → Bytes) (x : DiskNode) (target : Bytes)
    (link : setContent f x = .link target) : x = .link target := by
  cases x with
  | link t => exact link
  | dir a => cases link
  | file a content => cases link

theorem setAttributes_link (f : Attributes → Attributes) (x : DiskNode) (target : Bytes)
    (link : setAttributes f x = .link target) : x = .link target := by
  cases x with
  | link t => exact link
  | dir a => cases link
  | file a content => cases link

theorem Confined.lookup_missing (c : Confined T base w) {follow : Bool} {names : OutPath}
    (safe : dotDot ∉ names) {d : List FileName} {n : FileName}
    (missing : lookup w.tree follow (below T names) = .missing d n) : T <+: d := by
  have leads := lookup_leads w.tree c.root follow names
  rw [missing] at leads
  rcases osSteps_down safe with down | ends
  · exact leads.within c.links (List.prefix_refl T) down
  · exact absurd (leads.dir_of_ends c.root ends) id

theorem Confined.lookup_found (c : Confined T base w) {follow : Bool} {names : OutPath}
    (safe : dotDot ∉ names) {p : List FileName}
    (found : lookup w.tree follow (below T names) = .found p) : T <+: p ∨ w.tree.IsDir p := by
  have leads := lookup_leads w.tree c.root follow names
  rw [found] at leads
  rcases osSteps_down safe with down | ends
  · exact .inl (leads.within c.links (List.prefix_refl T) down)
  · exact .inr (leads.dir_of_ends c.root ends)

variable (host : Host)

theorem keeps_call {always : FileSystem → Prop} {α : Type} {act : Effect String FileSystem α}
    {w : FileSystem} (ticked : always w.tick) (rest : Keeps always act w.tick) :
    Keeps always (FileSystem.call host act) w := by
  unfold FileSystem.call
  refine .get_bind (.set_bind _ ?_)
  split
  · exact .of_throw _ ticked
  · exact rest

theorem ends_status (path : OutPath) (w : FileSystem) :
    Ends (FileSystem.status host path) w
      (fun st w' => w' = w.tick ∧ (st = .unknown ∨ st = statusOf w.tree path))
      (fun _ _ => False) := by
  unfold FileSystem.status
  rw [ends_get_bind, ends_set_bind]
  split
  · exact ⟨rfl, .inl rfl⟩
  · exact ⟨rfl, .inr rfl⟩

theorem keeps_createBehindDots {I : FileSystem → Prop} (ticked : ∀ w, I w → I w.tick)
    {components : List Bytes} (made : ∀ rest w, rest <:+ components → I w →
      Keeps I (FileSystem.createMissing host rest) w) {w : FileSystem} (here : I w) :
    Keeps I (FileSystem.createBehindDots host components) w := by
  induction components generalizing w with
  | nil => exact .of_throw _ here
  | cons component up ih =>
    rw [FileSystem.createBehindDots]
    split
    · refine Ends.bind_returns (ends_status host up.reverse w) fun st w' done => ?_
      have here' : I w' := done.1 ▸ ticked w here
      cases st with
      | notFound =>
        exact ih (fun rest w under => made rest w (under.trans ⟨[component], rfl⟩)) here'
      | other => exact Keeps.of_throw _ here'
      | directory => exact Keeps.of_throw _ here'
      | unknown => exact Keeps.of_throw _ here'
    · exact made _ w (List.suffix_refl _) here

theorem Confined.status (c : Confined T base w) (path : OutPath) :
    Keeps (Confined T base) (FileSystem.status host path) w :=
  (ends_status host path w).mono (fun _ _ done => done.1 ▸ c.tick) fun _ _ => False.elim

theorem Confined.mkdir (c : Confined T base w) {names : OutPath} (safe : dotDot ∉ names) :
    Keeps (Confined T base) (FileSystem.mkdir host (below T names)) w := by
  refine keeps_call host c.tick (.get_bind ?_)
  have ticked := c.tick
  split
  · next d n missing =>
    exact .set_bind _ (.of_pure _
      (ticked.create n (ticked.lookup_missing safe missing) fun _ link => by cases link))
  · exact .of_pure _ ticked
  · exact .of_throw _ ticked
  · exact .of_throw _ ticked

theorem Confined.makeDirectory (c : Confined T base w) {names : OutPath}
    (safe : dotDot ∉ names) :
    Keeps (Confined T base) (FileSystem.createDirectory host (below T names)) w := by
  refine (c.mkdir host safe).bind fun created w' c' => ?_
  split
  · exact .of_pure _ c'
  · exact (c'.status host _).bind fun st w'' c'' => .of_throwIf c''

theorem statusOf_root {t : DiskTree} (root : t.IsDir T) {names : OutPath}
    (stays : names = [] ∨ names = [[]]) : statusOf t (below T names) = .directory := by
  have found : lookup t true (below T names) = .found T := by
    rw [lookup_below t root]
    rcases stays with rfl | rfl <;> rfl
  rw [statusOf, found]
  exact if_pos root

theorem Confined.createMissing (c : Confined T base w) {names : OutPath} (some : names ≠ [])
    (safe : dotDot ∉ names) :
    Keeps (Confined T base) (FileSystem.createMissing host (below T names).reverse) w := by
  induction names using List.reverseRecOn generalizing w with
  | nil => exact absurd rfl some
  | append_singleton front last ih =>
    rw [List.mem_append, not_or] at safe
    have path : (below T (front ++ [last])).reverse = last :: (below T front).reverse := by
      rw [below, ← List.append_assoc, List.reverse_append]
      rfl
    rw [path, FileSystem.createMissing, List.reverse_reverse]
    refine Ends.bind_returns (ends_status host (below T front) w) fun st w' done => ?_
    obtain ⟨same, st_eq⟩ := done
    have c' : Confined T base w' := same ▸ c.tick
    have make : ∀ u, Confined T base u → Keeps (Confined T base)
        (if last = dot ∨ last = dotDot then pure ()
          else FileSystem.createDirectory host (last :: (below T front).reverse).reverse) u := by
      intro u cu
      split
      · exact .of_pure _ cu
      · rw [← path, List.reverse_reverse]
        exact cu.makeDirectory host fun member =>
          (List.mem_append.mp member).elim safe.1 safe.2
    cases st with
    | other => exact Keeps.of_throw _ c'
    | notFound =>
      refine Keeps.bind (ih c' ?_ safe.1) fun _ => make
      rintro rfl
      rw [statusOf_root c.root (.inl rfl)] at st_eq
      rcases st_eq with st_eq | st_eq <;> cases st_eq
    | directory => exact make w' c'
    | unknown => exact make w' c'

theorem Confined.createBehindDots (c : Confined T base w) {names : OutPath} (some : names ≠ [])
    (safe : dotDot ∉ names) :
    Keeps (Confined T base) (FileSystem.createBehindDots host (below T names).reverse) w := by
  induction names using List.reverseRecOn generalizing w with
  | nil => exact absurd rfl some
  | append_singleton front last ih =>
    have down := safe
    rw [List.mem_append, not_or] at down
    have path : (below T (front ++ [last])).reverse = last :: (below T front).reverse := by
      rw [below, ← List.append_assoc, List.reverse_append]
      rfl
    rw [path, FileSystem.createBehindDots, List.reverse_reverse, ← path]
    split
    · refine Ends.bind_returns (ends_status host (below T front) w) fun st w' done => ?_
      obtain ⟨same, st_eq⟩ := done
      have c' : Confined T base w' := same ▸ c.tick
      cases st with
      | notFound =>
        refine ih c' ?_ down.1
        rintro rfl
        rw [statusOf_root c.root (.inl rfl)] at st_eq
        rcases st_eq with st_eq | st_eq <;> cases st_eq
      | other => exact Keeps.of_throw _ c'
      | directory => exact Keeps.of_throw _ c'
      | unknown => exact Keeps.of_throw _ c'
    · exact c.createMissing host some safe

theorem Confined.createDirectories (c : Confined T base w) {names : OutPath}
    (safe : dotDot ∉ names) :
    Keeps (Confined T base) (FileSystem.createDirectories host (below T names)) w := by
  unfold FileSystem.createDirectories
  refine Ends.bind_returns (ends_status host (below T names) w) fun st w' done => ?_
  obtain ⟨same, st_eq⟩ := done
  have c' : Confined T base w' := same ▸ c.tick
  split
  · exact Keeps.of_pure _ c'
  · exact Keeps.of_throw _ c'
  · exact Keeps.of_throw _ c'
  · have away : ¬(names = [] ∨ names = [[]]) := by
      intro stays
      rw [statusOf_root c.root stays] at st_eq
      rcases st_eq with st_eq | st_eq <;> cases st_eq
    rw [not_or] at away
    split
    · next slash =>
      rw [below, List.getLast?_append_of_ne_nil _ away.1] at slash
      rw [below, List.dropLast_append_of_ne_nil away.1]
      refine c'.createBehindDots host ?_ fun member => safe (List.mem_of_mem_dropLast member)
      intro short
      refine away.2 ?_
      rw [← List.dropLast_append_getLast? [] slash, short]
      rfl
    · exact c'.createBehindDots host away.1 safe

theorem Confined.down (c : Confined T base w) {follow : Bool} {names : OutPath}
    (safe : dotDot ∉ names) (leaf : ¬(lookup w.tree follow (below T names)).Dir w.tree) :
    .up ∉ osSteps names :=
  (osSteps_down safe).resolve_right fun ends =>
    leaf ((lookup_leads w.tree c.root follow names).dir_of_ends c.root ends)

/-- A path that opens has no step up, not even a last one. -/
theorem Confined.openFile (c : Confined T base w) {names : OutPath} (safe : dotDot ∉ names) :
    Ends (FileSystem.openFile host (below T names)) w
      (fun _ w' => Confined T base w' ∧ .up ∉ osSteps names) (fun _ w' => Confined T base w') := by
  unfold FileSystem.openFile FileSystem.call
  rw [ends_get_bind, ends_set_bind]
  have ticked := c.tick
  split
  · exact ticked
  · rw [ends_get_bind]
    split
    · next d n missing =>
      have inside := ticked.lookup_missing safe missing
      refine ⟨(ticked.create n inside fun _ link => by cases link).withStream _ _ ?_,
        ticked.down safe (by rw [missing]; exact id)⟩
      rintro p ⟨⟩
      exact inside.trans (List.prefix_append d [n])
    · next p found =>
      rw [ends_throwIf_bind]
      split
      · exact ticked
      · next leaf =>
        have inside := (ticked.lookup_found safe found).resolve_right leaf
        refine ⟨(ticked.change _ inside (setContent_link _)).withStream _ _ ?_,
          ticked.down safe (by rw [found]; exact leaf)⟩
        rintro q ⟨⟩
        exact inside
    · exact ticked
    · exact ticked

theorem Confined.writeFile (c : Confined T base w) (bytes : Bytes) :
    Keeps (Confined T base) (FileSystem.writeFile host bytes) w := by
  refine .get_bind ?_
  split
  · next p opened _ =>
    have inside := c.stream p opened
    split
    · exact .of_set _ (c.tick.change _ inside (setContent_link _))
    · refine .set_bind _ (.of_throw _ ?_)
      exact (c.tick.change _ inside (setContent_link _)).withStream _ _ c.stream
  · exact .of_throw _ c

theorem Confined.closeFile (c : Confined T base w) :
    Keeps (Confined T base) (FileSystem.closeFile host) w := by
  refine .get_bind (.set_bind _ (.of_throwIf ?_))
  exact c.tick.withStream none _ fun _ opened => by cases opened

theorem Confined.changeAttributes (c : Confined T base w) {names : OutPath}
    (down : .up ∉ osSteps names) (f : Attributes → Attributes) :
    Keeps (Confined T base) (FileSystem.changeAttributes host (below T names) f) w := by
  refine keeps_call host c.tick (.get_bind ?_)
  have ticked := c.tick
  split
  · next p found =>
    have leads := lookup_leads w.tick.tree ticked.root true names
    rw [found] at leads
    exact .of_set _ (ticked.change _ (leads.within ticked.links (List.prefix_refl T) down)
      (setAttributes_link f))
  · exact .of_throw _ ticked
  · exact .of_throw _ ticked
  · exact .of_throw _ ticked

theorem Confined.symlink (c : Confined T base w) {names : OutPath} (safe : dotDot ∉ names)
    {target : Bytes} (clean : (readTarget (cutNul target)).1 = false ∧
      .up ∉ (readTarget (cutNul target)).2) :
    Keeps (Confined T base) (FileSystem.symlink host target (below T names)) w := by
  refine keeps_call host c.tick (.throwIf_bind c.tick fun _ => .get_bind ?_)
  have ticked := c.tick
  split
  · next d n missing =>
    refine .of_set _ (ticked.create n (ticked.lookup_missing safe missing) ?_)
    rintro _ ⟨⟩
    exact clean
  · exact .of_throw _ ticked
  · exact .of_throw _ ticked
  · exact .of_throw _ ticked

end Confined

def diskOps (host : Host) : ExtractOps FileSystem where
  createDirectories := FileSystem.createDirectories host
  openFile path := zoom id (fun w _ => w) (fun _ => ()) (FileSystem.openFile host path)
  writeFile := FileSystem.writeFile host
  closeFile := FileSystem.closeFile host
  permissions path bits :=
    FileSystem.changeAttributes host path fun a => { a with mode := some bits }
  lastWriteTime path ns :=
    FileSystem.changeAttributes host path fun a => { a with modified := some ns }
  createSymlink := FileSystem.symlink host

section Guarded
variable (host : Host) (options : ArchiveReaderOptions) (T : List FileName) (base : DiskTree)

structure Guarded (e : Extraction FileSystem) : Prop where
  world : Confined T base e.world
  opened : e.currentFileOpen = true → .up ∉ osSteps (archiveNames e.currentFileArchivePath)

variable {T base} {e : Extraction FileSystem}

theorem Guarded.fileOp (g : Guarded T base e) (context : String)
    {op : Effect String FileSystem Unit} (keeps : Keeps (Confined T base) op e.world) :
    Keeps (Guarded T base) (fileOp context op) e :=
  .of_zoom (keeps.mono fun _ c => ⟨c, g.opened⟩)

theorem Guarded.streamOp (g : Guarded T base e) (message : String)
    {op : Effect Unit FileSystem Unit} (keeps : Keeps (Confined T base) op e.world) :
    Keeps (Guarded T base) (streamOp message op) e :=
  .of_zoom (keeps.mono fun _ c => ⟨c, g.opened⟩)

theorem makeSafeOutputPath_below {rel : Bytes} {path : OutPath}
    (made : makeSafeOutputPath (below T []) rel = .ok path) :
    isSafeRelativePath rel = true ∧ path = below T (archiveNames rel) := by
  obtain ⟨safe, rfl⟩ := (makeSafeOutputPath_ok _ _ _).mp made
  exact ⟨safe, by rw [below, below, List.append_nil]; rfl⟩

theorem parent_below {names : OutPath} (some : names ≠ []) :
    OutPath.parent (below T names) = below T names.dropLast :=
  List.dropLast_append_of_ne_nil some

theorem Guarded.beginArchive (g : Guarded T base e) (payload : Bytes) :
    Keeps (Guarded T base) (beginArchive payload) e :=
  .get_bind <| .throwIf_bind g fun _ => .throwIf_bind g fun _ => .throwIf_bind g fun _ =>
    .of_modify ⟨g.world, g.opened⟩

theorem Guarded.createDirectory (g : Guarded T base e) (m : EntryMetadata) :
    Keeps (Guarded T base) (createDirectory (diskOps host) (below T []) m) e := by
  refine .get_bind <| .throwIf_bind g fun _ => .throwIf_bind g fun _ => .lift_bind g ?_
  intro path made
  obtain ⟨safe, rfl⟩ := makeSafeOutputPath_below made
  refine (g.fileOp _ (g.world.createDirectories host (dotDot_notMem_normalNames safe))).bind ?_
  exact fun _ e' g' => .of_modify ⟨g'.world, g'.opened⟩

theorem Guarded.beginFile (g : Guarded T base e) (m : EntryMetadata) :
    Keeps (Guarded T base) (beginFile (diskOps host) (below T []) m) e := by
  refine .get_bind <| .throwIf_bind g fun _ => .throwIf_bind g fun _ => .throwIf_bind g fun _ =>
    .lift_bind g ?_
  intro path made
  obtain ⟨safe, rfl⟩ := makeSafeOutputPath_below made
  have names := dotDot_notMem_normalNames safe
  rw [parent_below (archiveNames_ne_nil safe)]
  refine (g.fileOp _ (g.world.createDirectories host
    fun member => names (List.mem_of_mem_dropLast member))).bind fun _ e' g' => ?_
  have opens : ∀ message, Ends (Archive.streamOp message
      ((diskOps host).openFile (below T (archiveNames m.relativePath)))) e'
      (fun _ e'' => Guarded T base e'' ∧ .up ∉ osSteps (archiveNames m.relativePath))
      (fun _ e'' => Guarded T base e'') := by
    intro message
    refine (ends_zoom _ _ _ _ _).mpr ((ends_zoom _ _ _ _ _).mpr ?_)
    exact (g'.world.openFile host names).mono (fun _ _ done => ⟨⟨done.1, g'.opened⟩, done.2⟩)
      fun _ _ c => ⟨c, g'.opened⟩
  exact Ends.bind (opens _) fun _ e'' done => Keeps.of_modify ⟨done.1.world, fun _ => done.2⟩

theorem Guarded.writeFileBytes (g : Guarded T base e) (bytes : Bytes) :
    Keeps (Guarded T base) (writeFileBytes (diskOps host) bytes) e :=
  .get_bind <| .throwIf_bind g fun _ => .throwIf_bind g fun _ =>
    (g.streamOp _ (g.world.writeFile host bytes)).bind fun _ _ g' =>
      .of_modify ⟨g'.world, g'.opened⟩

theorem Guarded.restoreMetadata (g : Guarded T base e) {rel : Bytes}
    (down : .up ∉ osSteps (archiveNames rel)) (m : EntryMetadata) :
    Keeps (Guarded T base)
      (applyMetadataToPath (diskOps host) options (below T (archiveNames rel)) m) e := by
  have permissions : Keeps (Guarded T base)
      (restorePermissions (diskOps host) options (below T (archiveNames rel)) m) e := by
    unfold Archive.restorePermissions
    split
    · exact g.fileOp _ (g.world.changeAttributes host down _)
    · exact .of_pure _ g
  refine permissions.bind fun _ e' g' => ?_
  unfold Archive.restoreTimestamps
  split
  · exact g'.fileOp _ (g'.world.changeAttributes host down _)
  · exact .of_pure _ g'

theorem Guarded.endFile (g : Guarded T base e) :
    Keeps (Guarded T base) (endFile (diskOps host) options (below T [])) e := by
  refine .get_bind <| .throwIf_bind g fun opened => .throwIf_bind g fun _ => ?_
  have down := g.opened (not_not.mp opened)
  refine (g.streamOp _ (g.world.closeFile host)).bind fun _ e' g' => .lift_bind g' ?_
  intro path made
  obtain ⟨-, rfl⟩ := makeSafeOutputPath_below made
  exact (g'.restoreMetadata host options down _).bind fun _ e'' g'' =>
    .of_modify ⟨g''.world, fun opened => by cases opened⟩

/-- Where links are extracted, an accepted target has no `..` for the system either. -/
def CleanLink (m : EntryMetadata) : Prop :=
  options.allowSymlinks = true → SafeSymlinkTarget m.symlinkTargetUtf8 →
    dotDot ∉ splitSlash (cutNul m.symlinkTargetUtf8)

theorem readTarget_clean {target : Bytes} (safe : SafeSymlinkTarget target)
    (clean : dotDot ∉ splitSlash (cutNul target)) :
    (readTarget (cutNul target)).1 = false ∧ .up ∉ (readTarget (cutNul target)).2 := by
  constructor
  · have relative : target.head? ≠ some slash := by
      have path := safe.2
      unfold isSafeRelativePath at path
      simp only [Bool.and_eq_true, decide_eq_true_eq] at path
      exact path.1.1.2
    cases target with
    | nil => rfl
    | cons b bs =>
      by_cases nul : b = 0
      · subst nul
        rfl
      · have head : cutNul (b :: bs) = b :: cutNul bs := by simp [cutNul, nul]
        rw [readTarget, head]
        exact decide_eq_false relative
  · rintro up
    obtain ⟨segment, member, step⟩ := List.mem_map.mp up
    refine toStep_ne_up ?_ step
    rw [cutNul_of_notMem fun nul => zero_notMem_cutNul target (mem_of_mem_splitSlash member nul)]
    rintro rfl
    exact clean member

theorem Guarded.createSymlink (g : Guarded T base e) (m : EntryMetadata)
    (clean : CleanLink options m) :
    Keeps (Guarded T base) (createSymlink (diskOps host) options (below T []) m) e := by
  refine .get_bind <| .throwIf_bind g fun _ => .throwIf_bind g fun _ =>
    .throwIf_bind g fun allowed => .throwIf_bind g fun safeTarget => .lift_bind g ?_
  intro path made
  obtain ⟨safe, rfl⟩ := makeSafeOutputPath_below made
  have names := dotDot_notMem_normalNames safe
  rw [parent_below (archiveNames_ne_nil safe)]
  refine (g.fileOp _ (g.world.createDirectories host
    fun member => names (List.mem_of_mem_dropLast member))).bind fun _ e' g' => ?_
  exact g'.fileOp _ (g'.world.symlink host names
    (readTarget_clean (not_not.mp safeTarget) (clean (not_not.mp allowed) (not_not.mp safeTarget))))

theorem Guarded.endArchive (g : Guarded T base e) :
    Keeps (Guarded T base) endArchive e :=
  .get_bind <| .throwIf_bind g fun _ => .throwIf_bind g fun _ => .of_modify ⟨g.world, g.opened⟩

def CleanRecord (record : ArchiveRecord) : Prop :=
  record.type = .symlinkEntry → ∀ m, parseEntryMetadata record.payload = .ok m →
    CleanLink options m

theorem Guarded.processRecord (g : Guarded T base e) (record : ArchiveRecord)
    (clean : CleanRecord options record) :
    Keeps (Guarded T base) (processRecord (diskOps host) options (below T []) record) e := by
  refine .get_bind <| .throwIf_bind g fun _ => ?_
  unfold handleRecord
  cases kind : record.type with
  | archiveBegin => exact g.beginArchive record.payload
  | directoryEntry => exact .lift_bind g fun m _ => g.createDirectory host m
  | fileEntry => exact .lift_bind g fun m _ => g.beginFile host m
  | fileBytes => exact g.writeFileBytes host record.payload
  | fileEnd => exact g.endFile host options
  | symlinkEntry =>
    exact .lift_bind g fun m parsed => g.createSymlink host options m (clean kind m parsed)
  | archiveEnd => exact g.endArchive
  | randomPadding => exact .of_throwIf g

theorem Guarded.consumeRecords (clean : ∀ record, CleanRecord options record) (fuel : Nat)
    (r : ArchiveReader FileSystem) (running : r.finished = false)
    (g : Guarded T base r.extraction) :
    Keeps (fun r' => r'.finished = false ∧ Guarded T base r'.extraction)
      (consumeRecords (diskOps host) options (below T []) fuel) r := by
  induction fuel generalizing r with
  | zero => exact .of_pure _ ⟨running, g⟩
  | succ fuel ih =>
    refine .get_bind (.lift_bind ⟨running, g⟩ fun size _ => ?_)
    cases size with
    | none => exact .of_pure _ ⟨running, g⟩
    | some n =>
      refine .lift_bind ⟨running, g⟩ fun record _ => .modify_bind (.bind ?_ ?_)
      · refine .of_zoom ((g.processRecord host options record (clean record)).mono ?_)
        exact fun _ g' => ⟨running, g'⟩
      · exact fun _ r' ⟨running', g'⟩ => ih r' running' g'

theorem Guarded.consume (clean : ∀ record, CleanRecord options record) (bytes : Bytes)
    (r : ArchiveReader FileSystem) (running : r.finished = false)
    (g : Guarded T base r.extraction) :
    Keeps (fun r' => r'.finished = false ∧ Guarded T base r'.extraction)
      (consume (diskOps host) options (below T []) bytes) r :=
  .get_bind <| .throwIf_bind ⟨running, g⟩ fun _ => .modify_bind <|
    Guarded.consumeRecords host options clean _ _ running g

end Guarded
end Bseal.Archive
