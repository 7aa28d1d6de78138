import Bseal.Archive.BackendCalls

/-! The backend over directory descriptors: what `open_dir_hardened` opens and makes, and when the
calls that rely on it stay below the root. -/
namespace Bseal.Archive
open Effect FileTree

section Opens
variable (t : DiskTree) (root : List FileName)

/-- Every component can be opened: it names a directory or nothing yet, or it does not go down. -/
def Opens (path : OutPath) : Prop :=
  ∀ f c, f ++ [c] <+: path → cutNul c ≠ [] ∧ ∀ n, toStep c = .name n →
    t.node (position root f ++ [n]) = none ∨ t.IsDir (position root f ++ [n])

def Passes (path : OutPath) (p : List FileName) : Prop :=
  ∃ f c n, f ++ [c] <+: path ∧ toStep c = .name n ∧ p = position root f ++ [n]

/-- As far as the path opens, directories are made below the root only. -/
def MakesInside (path : OutPath) : Prop :=
  ∀ f c n, f ++ [c] <+: path → Opens t root f → toStep c = .name n →
    t.node (position root f ++ [n]) = none → root <+: position root f

/-- What opening some of these components has made of the tree. -/
structure Opened (path : OutPath) (w : FileSystem) : Prop where
  node : ∀ p, w.tree.node p = t.node p ∨ t.node p = none ∧ w.tree.IsDir p ∧ p ∈ w.touched
  touched : ∀ p ∈ w.touched, t.node p = none ∧ ∃ f c n, f ++ [c] <+: path ∧ Opens t root f ∧
    toStep c = .name n ∧ p = position root f ++ [n]

structure OpenedAll (path : OutPath) (w : FileSystem) : Prop extends Opened t root path w where
  opens : Opens t root path
  dir : w.tree.IsDir (position root path)
  passed : ∀ p, Passes root path p → w.tree.IsDir p

def Refused (path : OutPath) (w : FileSystem) : Prop :=
  ∃ f c, f ++ [c] <+: path ∧ ¬Opens t root (f ++ [c]) ∧ ∀ p, Passes root f p → w.tree.IsDir p

variable {t root} {path front : OutPath} {w : FileSystem}

theorem Opens.of_prefix (opens : Opens t root path) (under : front <+: path) :
    Opens t root front :=
  fun f c upper => opens f c (upper.trans under)

theorem Opens.snoc (opens : Opens t root front) {c : Bytes} (some : cutNul c ≠ [])
    (open_ : ∀ n, toStep c = .name n → t.node (position root front ++ [n]) = none ∨
      t.IsDir (position root front ++ [n])) : Opens t root (front ++ [c]) := by
  intro f d under
  rcases List.prefix_concat_iff.mp under with same | upper
  · obtain ⟨rfl, last⟩ := List.append_inj' same rfl
    obtain rfl := List.singleton_inj.mp last
    exact ⟨some, open_⟩
  · exact opens f d upper

theorem Passes.snoc {c : Bytes} {p : List FileName} (passes : Passes root (front ++ [c]) p) :
    (∃ n, toStep c = .name n ∧ p = position root front ++ [n]) ∨ Passes root front p := by
  obtain ⟨f, d, n, under, name, rfl⟩ := passes
  rcases List.prefix_concat_iff.mp under with same | upper
  · obtain ⟨rfl, last⟩ := List.append_inj' same rfl
    obtain rfl := List.singleton_inj.mp last
    exact .inl ⟨n, name, rfl⟩
  · exact .inr ⟨f, d, n, upper, name, rfl⟩

theorem Opened.of_prefix (o : Opened t root front w) (under : front <+: path) :
    Opened t root path w where
  node := o.node
  touched p member := by
    obtain ⟨absent, f, c, n, upper, rest⟩ := o.touched p member
    exact ⟨absent, f, c, n, upper.trans under, rest⟩

theorem Opened.tick (o : Opened t root path w) : Opened t root path w.tick := ⟨o.node, o.touched⟩

theorem OpenedAll.tick (o : OpenedAll t root path w) : OpenedAll t root path w.tick :=
  ⟨o.toOpened.tick, o.opens, o.dir, o.passed⟩

theorem Opened.leaf (o : Opened t root path w) {p : List FileName} (leaf : ¬w.tree.IsDir p) :
    w.tree.node p = t.node p :=
  (o.node p).resolve_right fun made => leaf made.2.1

theorem Opened.absent (o : Opened t root path w) {p : List FileName}
    (absent : w.tree.node p = none) : t.node p = none := by
  rw [← absent, o.leaf]
  rintro ⟨a, here⟩
  rw [absent] at here
  cases here

theorem Opened.sub (o : Opened t root path w) : t.Sub w.tree := by
  intro p x here
  rcases o.node p with same | ⟨absent, -⟩
  · rw [same, here]
  · rw [absent] at here
    cases here

theorem openedAll_start (there : t.IsDir root) : OpenedAll t root [] (.start t) where
  node := fun _ => .inl rfl
  touched := fun p member => absurd member List.not_mem_nil
  opens := fun f c under => absurd (List.prefix_nil.mp under) (by simp)
  dir := there
  passed := by
    rintro p ⟨f, c, n, under, -⟩
    exact absurd (List.prefix_nil.mp under) (by simp)

theorem OpenedAll.stay (o : OpenedAll t root front w) : OpenedAll t root (front ++ [dot]) w where
  toOpened := o.toOpened.of_prefix (List.prefix_append _ _)
  opens := o.opens.snoc (by decide) fun n name => by cases name
  dir := by
    rw [position_snoc]
    exact o.dir
  passed p passes := by
    rcases passes.snoc with ⟨n, name, -⟩ | upper
    · cases name
    · exact o.passed p upper

end Opens

section Walk
variable (host : Host) {t : DiskTree} {root : List FileName} {path front : OutPath}
  {w : FileSystem}

def Host.Quiet (host : Host) : Prop := ∀ k, host.faults k = none

theorem ends_mkdirAt (cur : List FileName) (c : Bytes) (w : FileSystem) :
    Ends (FileSystem.mkdirAt host cur c) w
      (fun _ w' => cutNul c ≠ [] ∧
        ((∃ n, toStep c = .name n ∧ w.tree.node (cur ++ [n]) = none ∧
            w' = w.tick.create cur n (.dir .fresh)) ∨
          ((∀ n, toStep c = .name n → w.tree.node (cur ++ [n]) ≠ none) ∧ w' = w.tick)))
      (fun _ w' => w' = w.tick ∧ (host.Quiet → cutNul c = [])) := by
  refine ends_call host (fun message faulted => ⟨rfl, fun quiet => ?_⟩) ?_
  · rw [quiet] at faulted
    cases faulted
  rw [ends_throwIf_bind]
  split
  · next none => exact ⟨rfl, fun _ => none⟩
  next some =>
  rw [ends_get_bind]
  have same : w.tick.tree = w.tree := rfl
  rcases step : toStep c with _ | _ | n
  · exact ⟨some, .inr ⟨fun n name => (by cases name), rfl⟩⟩
  · exact ⟨some, .inr ⟨fun n name => (by cases name), rfl⟩⟩
  · simp only [same]
    by_cases absent : w.tree.node (cur ++ [n]) = none
    · rw [if_pos absent]
      exact ⟨some, .inl ⟨n, rfl, absent, rfl⟩⟩
    · rw [if_neg absent]
      exact ⟨some, .inr ⟨fun m name => (by cases name; exact absent), rfl⟩⟩

theorem OpenedAll.mkdirAt (o : OpenedAll t root front w) (context : String) (c : Bytes) :
    Ends (fsCall context (FileSystem.mkdirAt host (position root front) c)) w
      (fun _ w' => cutNul c ≠ [] ∧ Opened t root (front ++ [c]) w' ∧ w.tree.Sub w'.tree ∧
        ∀ n, toStep c = .name n → w'.tree.node (position root front ++ [n]) ≠ none)
      (fun _ w' => Opened t root (front ++ [c]) w' ∧ w.tree.Sub w'.tree ∧
        (host.Quiet → cutNul c = [])) := by
  have longer : Opened t root (front ++ [c]) w.tick :=
    o.toOpened.tick.of_prefix (List.prefix_append _ _)
  refine (ends_fsCall _ _).mpr ((ends_mkdirAt host _ c w).mono ?_ ?_)
  · rintro _ w' ⟨some, ⟨n, name, absent, rfl⟩ | ⟨there, rfl⟩⟩
    · have new := w.tree.put_node (.dir .fresh) o.dir absent
      have created : (w.tick.create (position root front) n (.dir .fresh)).tree.node
          (position root front ++ [n]) = .some (.dir .fresh) := by
        change (w.tree.put _ n _).node _ = _
        rw [new, Function.update_self]
      refine ⟨some, ⟨fun p => ?_, fun p member => ?_⟩, w.tree.sub_put _ n _, fun m name' => ?_⟩
      · by_cases same : p = position root front ++ [n]
        · subst same
          exact .inr ⟨o.toOpened.absent absent, ⟨_, created⟩,
            List.mem_append_right _ (List.mem_singleton_self _)⟩
        · have old : (w.tick.create (position root front) n (.dir .fresh)).tree.node p =
            w.tree.node p := w.tree.put_node_of_ne _ same
          rcases o.node p with equal | ⟨gone, ⟨a, here⟩, member⟩
          · exact .inl (old.trans equal)
          · exact .inr ⟨gone, ⟨a, old.trans here⟩, List.mem_append_left _ member⟩
      · rcases List.mem_append.mp member with member | member
        · exact longer.touched p member
        · obtain rfl := List.mem_singleton.mp member
          exact ⟨o.toOpened.absent absent, front, c, n, List.prefix_refl _, o.opens, name, rfl⟩
      · rw [name] at name'
        cases name'
        rw [created]
        exact Option.some_ne_none _
    · exact ⟨some, longer, fun _ _ => id, there⟩
  · rintro _ w' ⟨rfl, quiet⟩
    exact ⟨longer, fun _ _ => id, quiet⟩

theorem OpenedAll.openComponent (o : OpenedAll t root front w) (c : Bytes) :
    Ends (openComponent host (position root front) c) w
      (fun fd w' => fd = position root (front ++ [c]) ∧ OpenedAll t root (front ++ [c]) w')
      (fun _ w' => Opened t root (front ++ [c]) w' ∧
        (host.Quiet → ¬Opens t root (front ++ [c]) ∧ ∀ p, Passes root front p →
          w'.tree.IsDir p)) := by
  unfold Archive.openComponent
  refine Ends.bind ((o.mkdirAt host _ c).mono (fun _ _ => id) ?_) fun _ w₁ made => ?_
  · rintro _ w' ⟨opened, sub, none⟩
    refine ⟨opened, fun quiet => ⟨fun opens => ?_, fun p passes => sub.isDir (o.passed p passes)⟩⟩
    exact (opens front c (List.prefix_refl _)).1 (none quiet)
  obtain ⟨filled, opened, sub, there⟩ := made
  have passed : ∀ p, Passes root front p → w₁.tree.IsDir p := fun p passes =>
    sub.isDir (o.passed p passes)
  have faulted : ∀ message w', w' = w₁.tick ∧ host.faults w₁.attempts = some message →
      Opened t root (front ++ [c]) w' ∧ (host.Quiet →
        ¬Opens t root (front ++ [c]) ∧ ∀ p, Passes root front p → w'.tree.IsDir p) := by
    rintro message w' ⟨rfl, faulted⟩
    refine ⟨opened.tick, fun quiet => ?_⟩
    rw [quiet] at faulted
    cases faulted
  refine Ends.bind ((ends_fsCall _ _).mpr ((ends_probe host w₁).mono (fun _ _ => id) ?_))
    fun _ w₂ probed => ?_
  · exact fun message w' => faulted message w'
  subst probed
  rw [ends_get_bind, statAt, if_neg filled, ← position_snoc]
  have known : ∀ x, w₁.tree.node (position root (front ++ [c])) = some x → x.isDir = false →
      ¬Opens t root (front ++ [c]) := by
    intro x here leaf opens
    have dirs : ¬w₁.tree.IsDir (position root (front ++ [c])) := by
      rintro ⟨a, there⟩
      rw [here] at there
      cases there
      cases leaf
    have old := opened.leaf dirs
    rw [position_snoc, entryAt] at dirs old
    rw [position_snoc, entryAt] at here
    rcases step : toStep c with _ | _ | n
    · rw [step] at dirs
      exact dirs (sub.isDir o.dir)
    · rw [step] at dirs
      exact dirs (sub.isDir o.dir.dropLast)
    · rw [step] at dirs old here
      rcases (opens front c (List.prefix_refl _)).2 n step with absent | ⟨a, isDir⟩
      · rw [old, absent] at here
        cases here
      · exact dirs ⟨a, old.trans isDir⟩
  rw [show w₁.tick.tree = w₁.tree from rfl]
  rcases here : w₁.tree.node (position root (front ++ [c])) with _ | a | ⟨a, content⟩ | target
  · exfalso
    rw [position_snoc, entryAt] at here
    rcases step : toStep c with _ | _ | n
    · rw [step] at here
      exact (sub.isDir o.dir).ne_none here
    · rw [step] at here
      exact (sub.isDir o.dir.dropLast).ne_none here
    · rw [step] at here
      exact there n step here
  · refine Ends.bind ((ends_fsCall _ _).mpr ((ends_probe host w₁.tick).mono (fun _ _ => id) ?_))
      fun _ w₃ probed => ?_
    · rintro message w' ⟨rfl, faulted⟩
      refine ⟨opened.tick.tick, fun quiet => ?_⟩
      rw [quiet] at faulted
      cases faulted
    subst probed
    refine ⟨rfl, opened.tick.tick, ?_, ⟨a, here⟩, fun p passes => ?_⟩
    · refine o.opens.snoc filled fun n name => ?_
      have place : position root (front ++ [c]) = position root front ++ [n] := by
        rw [position_snoc, entryAt, name]
      rw [← place]
      rcases opened.node (position root (front ++ [c])) with same | made
      · exact .inr ⟨a, same.symm.trans here⟩
      · exact .inl made.1
    · rcases passes.snoc with ⟨n, name, rfl⟩ | upper
      · refine ⟨a, ?_⟩
        rw [position_snoc, entryAt, name] at here
        exact here
      · exact passed p upper
  · exact ⟨opened.tick, fun _ => ⟨known _ here rfl, passed⟩⟩
  · exact ⟨opened.tick, fun _ => ⟨known _ here rfl, passed⟩⟩

theorem OpenedAll.openComponents (o : OpenedAll t root front w) (down : Downward path) :
    Ends (openComponents host (position root front) path) w
      (fun fd w' => fd = position root (front ++ path) ∧ OpenedAll t root (front ++ path) w')
      (fun _ w' => Opened t root (front ++ path) w' ∧
        (host.Quiet → Refused t root (front ++ path) w')) := by
  induction path generalizing front w with
  | nil =>
    rw [List.append_nil]
    exact ⟨rfl, o⟩
  | cons c path ih =>
    obtain ⟨here, rest⟩ := List.forall_mem_cons.mp down
    have whole : front ++ c :: path = front ++ [c] ++ path := by simp
    rw [whole, Archive.openComponents]
    by_cases isDot : c = dot
    · subst isDot
      rw [if_pos (.inr rfl), show position root front = position root (front ++ [dot]) by
        rw [position_snoc]; rfl]
      exact ih o.stay rest
    · rw [if_neg (not_or.mpr ⟨here.1, isDot⟩), if_neg here.2.1]
      refine Ends.bind ((o.openComponent host c).mono (fun _ _ => id) ?_) fun fd w₁ opened => ?_
      · rintro _ w' ⟨opened, quiet⟩
        refine ⟨opened.of_prefix (List.prefix_append _ _), fun calm => ?_⟩
        exact ⟨front, c, List.prefix_append _ _, quiet calm⟩
      · obtain ⟨rfl, o₁⟩ := opened
        exact ih o₁ rest

theorem ends_openDirHardened (there : t.IsDir root) (down : Downward path) :
    Ends (openDirHardened host root path) (.start t)
      (fun fd w' => fd = position root path ∧ OpenedAll t root path w')
      (fun _ w' => Opened t root path w' ∧ (host.Quiet → Refused t root path w')) := by
  unfold openDirHardened
  have start := openedAll_start there
  refine Ends.bind ((ends_fsCall _ _).mpr ((ends_probe host _).mono (fun _ _ => id) ?_))
    fun _ w₁ probed => ?_
  · rintro message w' ⟨rfl, faulted⟩
    refine ⟨start.toOpened.tick.of_prefix List.nil_prefix, fun quiet => ?_⟩
    rw [quiet] at faulted
    cases faulted
  · subst probed
    exact start.tick.openComponents host down

end Walk

section Stays
variable {t : DiskTree} {root src : List FileName} {path : OutPath} {w : FileSystem}

theorem Opened.inside (o : Opened t root path w) (made : MakesInside t root path) :
    ∀ q ∈ w.touched, root <+: q ∧ q ≠ root := by
  intro q member
  obtain ⟨absent, f, c, n, under, opens, name, rfl⟩ := o.touched q member
  exact child_inside (made f c n under opens name absent) n

theorem Opened.staysInside (o : Opened t root path w) (there : t.IsDir root)
    (made : MakesInside t root path) : StaysInside root t w where
  same q out := by
    rcases o.node q with same | ⟨-, -, member⟩
    · exact same.symm
    · exact absurd (o.inside made q member).1 out
  touched := o.inside made
  there := o.sub.isDir there

theorem Opened.onlyInside (o : Opened t root path w) (there : t.IsDir root)
    (made : MakesInside t root path) (physical : ∀ f, f <+: src → f ≠ src → t.IsDir f) :
    OnlyInside root src t w where
  toStaysInside := o.staysInside there made
  source := by
    intro f under strict target link
    obtain ⟨a, here⟩ := o.sub.isDir (physical f under strict)
    rw [here] at link
    cases link

theorem leadsOutside_position (opens : Opens t root path) (out : LeadsOutside t root path) :
    ¬root <+: position root path := by
  obtain ⟨f, rest, q, rfl, found, -, outside⟩ := out
  have leads := resolve_leads readTarget t true kMaxSymlinks root (f.map toStep)
  rw [show resolve readTarget t true kMaxSymlinks root (f.map toStep) =
    .found q from found] at leads
  have same : q = position root f := leads.lexical (fun front n last split target link => ?_) rfl
  · rw [position_append, ← same]
    exact outside
  · obtain ⟨g, g', rfl, rfl, tail⟩ := List.map_eq_append_iff.mp split
    obtain ⟨c, g'', rfl, name, -⟩ := List.map_eq_cons_iff.mp tail
    have under : g ++ [c] <+: g ++ c :: g'' ++ rest := ⟨g'' ++ rest, by simp⟩
    change t.node (position root g ++ [n]) = _ at link
    rcases (opens g c under).2 n name with absent | ⟨a, isDir⟩
    · rw [absent] at link
      cases link
    · rw [isDir] at link
      cases link

theorem touched_of_missing {f : OutPath} {c : Bytes} {n : FileName} (under : f ++ [c] <+: path)
    (opens : Opens t root f) (name : toStep c = .name n)
    (absent : t.node (position root f ++ [n]) = none) (o : Opened t root path w)
    (ran : OpenedAll t root path w ∨ Refused t root path w) :
    position root f ++ [n] ∈ w.touched := by
  have made : w.tree.IsDir (position root f ++ [n]) → position root f ++ [n] ∈ w.touched := by
    rintro ⟨a, here⟩
    rcases o.node (position root f ++ [n]) with same | ⟨-, -, member⟩
    · rw [same, absent] at here
      cases here
    · exact member
  rcases ran with all | ⟨g, d, upper, refused, passed⟩
  · exact made (all.passed _ ⟨f, c, n, under, name, rfl⟩)
  · rcases Nat.lt_or_ge g.length (f ++ [c]).length with shorter | longer
    · exfalso
      have short : g ++ [d] <+: f ++ [c] := by
        refine List.prefix_of_prefix_length_le upper under ?_
        rw [List.length_append]
        exact shorter
      have open_ : Opens t root (f ++ [c]) := by
        refine opens.snoc (fun none => ?_) fun m name' => ?_
        · rw [toStep, none] at name
          cases name
        · rw [name] at name'
          cases name'
          exact .inl absent
      exact refused (open_.of_prefix short)
    · have inner : f ++ [c] <+: g := List.prefix_of_prefix_length_le under
        ((List.prefix_append g [d]).trans upper) longer
      exact made (passed _ ⟨f, c, n, inner, name, rfl⟩)

/-- What `ensure_dirs` over a descriptor needs to stay below the root: no directory is made
outside, and no path is opened whose parent is outside. -/
structure EnsureOpens (t : DiskTree) (root : List FileName) (path : OutPath) : Prop where
  made : MakesInside t root path
  parent : ¬(LeadsOutside t root path.parent ∧ Opens t root path)

/-- What `rename_into` over a descriptor needs: no directory is made outside, and where the parent
opens outside, the source is not there or the destination is refused. -/
structure RenameOpens (t : DiskTree) (root src : List FileName) (path : OutPath)
    (overwrite : Bool) :
    Prop where
  made : MakesInside t root path.parent
  moved : Opens t root path.parent → ¬root <+: position root path.parent →
    ∀ n, toStep path.filename = .name n →
      (t.node (position root path.parent ++ [n]) = none →
        t.node src = none ∧ ¬Passes root path.parent src) ∧
      (overwrite = true → ∀ x, t.node (position root path.parent ++ [n]) = some x → x.isDir = true)

end Stays

section Backend
variable (host : Host) {t : DiskTree} {root src : List FileName} {path : OutPath}
  {overwrite : Bool}

theorem ensureDirs_hardened (there : t.IsDir root) (filled : path ≠ []) (down : Downward path)
    (stays : EnsureOpens t root path) :
    Contains root t path.parent
      (exec (ensureDirs host (outputTree root true) path) (.start t)) := by
  refine contains_of_ends ?_
  unfold ensureDirs
  rw [if_neg filled]
  change Ends (openDirHardened host root path >>= fun _ => pure ()) _ _ _
  refine Ends.bind ((ends_openDirHardened host there down).mono (fun _ _ => id)
    fun _ _ o => o.1.staysInside there stays.made) fun fd w' opened => ?_
  exact ⟨opened.2.toOpened.staysInside there stays.made,
    fun out => stays.parent ⟨out, opened.2.opens⟩⟩

theorem renameInto_hardened (there : t.IsDir root) (down : Downward path)
    (inner : root <+: src ∧ src ≠ root) (physical : ∀ f, f <+: src → f ≠ src → t.IsDir f)
    (stays : RenameOpens t root src path overwrite) :
    Contains root t path.parent
      (exec (renameInto host (outputTree root true) src path overwrite) (.start t)) := by
  refine contains_of_ends ?_
  change Ends (renameIntoHardened host (below root []) root src path overwrite) _ _ _
  unfold renameIntoHardened
  refine Ends.bind ((ends_openDirHardened host there down.parent).mono (fun _ _ => id)
    fun _ _ o => o.1.staysInside there stays.made) fun fd w₁ opened => ?_
  obtain ⟨rfl, o⟩ := opened
  have o₁ := o.toOpened.onlyInside there stays.made physical
  have last : ∀ w₂, OnlyInside root src t w₂ →
      (∀ n, toStep path.filename = .name n → w₂.tree.node src ≠ none →
        root <+: position root path.parent) →
      Ends (fsCall (hardened ("renameat('" ++ text path.filename ++ "'): "))
        (FileSystem.renameAt host src (position root path.parent) path.filename)) w₂
        (fun _ w' => StaysInside root t w' ∧ ¬LeadsOutside t root path.parent)
        (fun _ w' => StaysInside root t w') := by
    intro w₂ o₂ inside
    refine (ends_fsCall _ _).mpr ((ends_renameAt host src _ _ w₂).mono ?_ ?_)
    · rintro _ w' ⟨n, p, u, name, found, done, rfl⟩
      obtain rfl := o₂.lookup_source found
      have stands : w₂.tree.node p ≠ none := by
        have sound := (resolve_leads readTarget w₂.tree false kMaxSymlinks []
          (osSteps (below p []))).sound w₂.tree.root
        rw [show resolve readTarget w₂.tree false kMaxSymlinks [] (osSteps (below p [])) =
          .found p from found] at sound
        exact sound
      have below := inside n name stands
      exact ⟨o₂.tick.renamed inner below done,
        fun out => leadsOutside_position o.opens out below⟩
    · rintro _ w' rfl
      exact o₂.tick.toStaysInside
  have outside : ∀ n, toStep path.filename = .name n → ¬root <+: position root path.parent →
      w₁.tree.node (position root path.parent ++ [n]) = none → w₁.tree.node src = none := by
    intro n name out absent
    obtain ⟨gone, unmade⟩ := (stays.moved o.opens out n name).1 (o.toOpened.absent absent)
    rcases o.node src with same | ⟨-, -, member⟩
    · rw [same, gone]
    · obtain ⟨-, f, c, m, under, -, step, place⟩ := o.touched src member
      exact absurd ⟨f, c, m, under, step, place⟩ unmade
  rw [ends_get_bind]
  rcases stat : statAt w₁.tree (position root path.parent) path.filename with _ | x
  · refine last w₁ o₁ fun n name stands => ?_
    by_contra out
    refine stands (outside n name out ?_)
    rw [statAt, if_neg, entryAt, name] at stat
    · exact stat
    · intro none
      rw [toStep, none] at name
      cases name
  · simp only
    rw [ends_throwIf_bind]
    split
    · exact o₁.toStaysInside
    next permitted =>
    rw [not_not] at permitted
    rw [ends_throwIf_bind]
    split
    · exact o₁.toStaysInside
    next leaf =>
    rw [statAt] at stat
    split at stat
    · cases stat
    next named =>
    rw [entryAt] at stat
    rcases step : toStep path.filename with _ | _ | n
    · rw [step] at stat
      obtain ⟨a, here⟩ := o.dir
      rw [here] at stat
      cases stat
      exact absurd rfl leaf
    · rw [step] at stat
      obtain ⟨a, here⟩ := o.dir.dropLast
      rw [here] at stat
      cases stat
      exact absurd rfl leaf
    rw [step] at stat
    have inside : root <+: position root path.parent := by
      by_contra out
      have old := o.toOpened.leaf (p := position root path.parent ++ [n]) (by
        rintro ⟨a, here⟩
        rw [stat] at here
        cases here
        exact leaf rfl)
      exact leaf ((stays.moved o.opens out n step).2 permitted x (old ▸ stat))
    refine Ends.bind ((ends_fsCall _ _).mpr ((ends_unlinkAt host _ _ w₁).mono (fun _ _ => id) ?_))
      fun _ w₂ unlinked => ?_
    · rintro _ w' rfl
      exact o₁.tick.toStaysInside
    · rw [unlinked]
      refine last _ (o₁.tick.erase ?_) fun _ _ _ => inside
      rw [entryAt, step]
      exact child_inside inside n

end Backend

section Quiet
variable {t : DiskTree} {root : List FileName} {path : OutPath} {w : FileSystem}

theorem quietHost_quiet : quietHost.Quiet := fun _ => rfl

theorem ensureOpens_of_contains (there : t.IsDir root) (filled : path ≠ []) (down : Downward path)
    (contains : Contains root t path.parent
      (exec (ensureDirs quietHost (outputTree root true) path) (.start t))) :
    EnsureOpens t root path := by
  have unfolded : ensureDirs quietHost (outputTree root true) path =
      (openDirHardened quietHost root path >>= fun _ => pure ()) := by
    unfold ensureDirs
    rw [if_neg filled]
    rfl
  rw [unfolded] at contains
  have opened := ends_openDirHardened quietHost there down
  constructor
  · intro f c n under opens name absent
    by_contra outside
    have touched : Keeps (fun w => position root f ++ [n] ∈ w.touched)
        (openDirHardened quietHost root path >>= fun _ => pure ()) (.start t) := by
      refine Ends.bind (opened.mono (fun _ _ => id) fun _ w r => ?_) fun fd w o => ?_
      · exact touched_of_missing under opens name absent r.1 (.inr (r.2 quietHost_quiet))
      · exact touched_of_missing under opens name absent o.2.toOpened (.inl o.2)
    exact not_inside outside (contains.1.touched _ (Ends.final touched))
  · rintro ⟨out, opens⟩
    obtain ⟨e, thrown⟩ := contains.2 out
    have returns : Ends (openDirHardened quietHost root path >>= fun _ => pure ()) (.start t)
        (fun _ _ => True) fun _ _ => False := by
      refine Ends.bind (opened.mono (fun _ _ => id) fun _ w r => ?_) fun _ _ _ => trivial
      obtain ⟨f, c, under, refused, -⟩ := r.2 quietHost_quiet
      exact refused (opens.of_prefix under)
    exact returns.of_error (Prod.ext thrown rfl)

theorem touched_final {x : Effect Failure FileSystem Unit} {p : List FileName}
    (keeps : Keeps (fun w => p ∈ w.touched) x w) : p ∈ (exec x w).2.touched :=
  Ends.final keeps

theorem touched_renameAt (host : Host) {x src cur : List FileName} (context : String) (c : Bytes)
    (here : x ∈ w.touched) :
    Keeps (fun w => x ∈ w.touched) (fsCall context (FileSystem.renameAt host src cur c)) w := by
  refine (ends_fsCall _ _).mpr ((ends_renameAt host src cur c w).mono ?_ ?_)
  · rintro _ w' ⟨n, p, u, -, -, -, rfl⟩
    exact List.mem_append_left _ here
  · rintro _ w' rfl
    exact here

theorem touched_renamed {source cur : List FileName} {file n : FileName} (context : String)
    {c : Bytes} (name : toStep c = .name n) (dir : w.tree.IsDir source)
    (stands : w.tree.node (source ++ [file]) ≠ none) (away : ¬source ++ [file] <+: cur)
    (absent : w.tree.node (cur ++ [n]) = none) :
    Keeps (fun w => cur ++ [n] ∈ w.touched)
      (fsCall context (FileSystem.renameAt quietHost (source ++ [file]) cur c)) w := by
  refine (ends_fsCall _ _).mpr (ends_call_quiet ?_)
  have found : lookup w.tree false (below (source ++ [file]) []) = .found (source ++ [file]) := by
    rw [lookup_snoc (lookup_dir dir true) dir, if_neg stands]
  rw [ends_get_bind, show w.tick.tree = w.tree from rfl, found, name]
  simp only
  rw [renamed_free stands away absent]
  exact List.mem_append_right _ (List.mem_cons_of_mem _ (List.mem_singleton_self _))

theorem renameOpens_of_contains (there : t.IsDir root) (down : Downward path)
    {source : List FileName} {file : FileName} {overwrite : Bool} (under : root <+: source)
    (sourceThere : t.IsDir source)
    (contains : Contains root t path.parent (exec (renameInto quietHost (outputTree root true)
      (source ++ [file]) path overwrite) (.start t))) :
    RenameOpens t root (source ++ [file]) path overwrite := by
  change Contains root t path.parent (exec (renameIntoHardened quietHost (below root []) root
    (source ++ [file]) path overwrite) (.start t)) at contains
  unfold renameIntoHardened at contains
  have opened := ends_openDirHardened quietHost there down.parent
  have made : MakesInside t root path.parent := by
    intro f c n front opens name absent
    by_contra outside
    refine not_inside outside (contains.1.touched (position root f ++ [n]) (touched_final ?_))
    refine Ends.bind (opened.mono (fun _ w o => touched_of_missing front opens name absent
      o.2.toOpened (.inl o.2)) fun _ w r => touched_of_missing front opens name absent r.1
        (.inr (r.2 quietHost_quiet))) fun fd w here => ?_
    rw [ends_get_bind]
    rcases statAt w.tree fd path.filename with _ | x
    · exact touched_renameAt quietHost _ _ here
    · refine Keeps.throwIf_bind here fun _ => Keeps.throwIf_bind here fun _ => ?_
      refine Keeps.bind ((ends_fsCall _ _).mpr ((ends_unlinkAt quietHost fd _ w).mono ?_ ?_))
        fun _ w₂ here => touched_renameAt quietHost _ _ here
      · rintro _ w' rfl
        exact List.mem_append_left _ here
      · rintro _ w' rfl
        exact here
  refine ⟨made, fun opens outside n name => ?_⟩
  have returns : Ends (openDirHardened quietHost root path.parent) (.start t)
      (fun fd w' => fd = position root path.parent ∧ OpenedAll t root path.parent w')
      fun _ _ => False := by
    refine opened.mono (fun _ _ => id) fun _ w r => ?_
    obtain ⟨f, c, front, refused, -⟩ := r.2 quietHost_quiet
    exact refused (opens.of_prefix front)
  obtain ⟨fd, w₁, ran, rfl, o⟩ := returns.exists_ran
  rw [exec_bind_of_ok ran, exec_get_bind] at contains
  have out : ∀ y ∈ [position root path.parent ++ [n]], y ∈ w₁.touched → False := by
    intro y member here
    rw [List.mem_singleton.mp member] at here
    exact not_inside outside (o.toOpened.inside made _ here)
  have named : cutNul path.filename ≠ [] := by
    intro none
    rw [toStep, none] at name
    cases name
  have stat : statAt w₁.tree (position root path.parent) path.filename =
      w₁.tree.node (position root path.parent ++ [n]) := by
    rw [statAt, if_neg named, entryAt, name]
  rw [stat] at contains
  have old : w₁.tree.node (position root path.parent ++ [n]) =
      t.node (position root path.parent ++ [n]) := by
    rcases o.node (position root path.parent ++ [n]) with same | ⟨-, -, member⟩
    · exact same
    · exact (out _ (List.mem_singleton_self _) member).elim
  have away : ¬source ++ [file] <+: position root path.parent := fun inner =>
    outside ((under.trans (List.prefix_append source [file])).trans inner)
  constructor
  · intro absent
    rw [old, absent] at contains
    by_contra stands
    refine not_inside outside (contains.1.touched _ (touched_final
      (touched_renamed _ name (o.sub.isDir sourceThere) ?_ away (old.trans absent))))
    intro gone
    refine stands ⟨o.toOpened.absent gone, fun passes => ?_⟩
    exact (o.passed _ passes).ne_none gone
  · intro permitted x here
    rw [old, here] at contains
    by_contra leaf
    refine not_inside outside (contains.1.touched (position root path.parent ++ [n])
      (touched_final ?_))
    simp only
    refine (ends_throwIf_bind _ _ _ _).mpr ?_
    rw [if_neg (not_not.mpr permitted), ends_throwIf_bind, if_neg leaf]
    refine Keeps.bind ((ends_fsCall _ _).mpr (ends_call_quiet ?_))
      fun _ w₂ here => touched_renameAt quietHost _ _ here
    rw [ends_get_bind, show w₁.tick.tree = w₁.tree from rfl, stat, old, here]
    simp only
    rw [ends_throwIf_bind, if_neg leaf, entryAt, name]
    exact List.mem_append_right _ (List.mem_singleton_self _)

end Quiet
end Bseal.Archive
