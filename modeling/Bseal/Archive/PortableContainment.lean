import Bseal.Archive.BackendCalls

/-! The portable backend: what it creates and removes on the way to its guard, and when that stays
below the root. -/
namespace Bseal.Archive
open Effect FileTree

section Outside
variable {t : DiskTree} {root dir : List FileName}

def LeadsAway (t : DiskTree) (root dir : List FileName) : Prop :=
  ∃ f rest q, dir = f ++ rest ∧ lookup t true (below (root ++ f) []) = .found q ∧ ¬root <+: q ∧
    ∀ n, rest.head? = some n → statusOf t (below (root ++ f ++ [n]) []) = .notFound

theorem statusOf_of_found {path : OutPath} {q : List FileName}
    (found : lookup t true path = .found q) : statusOf t path ≠ .notFound := by
  rw [statusOf_found found]
  split <;> exact FileStatus.noConfusion

theorem LeadsAway.found (out : LeadsAway t root dir) {q : List FileName}
    (found : lookup t true (below (root ++ dir) []) = .found q) : ¬root <+: q := by
  obtain ⟨f, rest, q', rfl, there, outside, next⟩ := out
  cases rest with
  | nil =>
    rw [List.append_nil, there] at found
    exact Outcome.found.inj found ▸ outside
  | cons n rest =>
    have under : root ++ f ++ [n] <+: root ++ (f ++ n :: rest) := ⟨rest, by simp⟩
    obtain ⟨x, here⟩ := lookup_prefix under found
    exact absurd (next n rfl) (statusOf_of_found here)

theorem LeadsAway.missing (out : LeadsAway t root dir) {f d : List FileName} {m n : FileName}
    (under : f <+: root ++ dir ++ [m]) (missing : lookup t false (below f []) = .missing d n) :
    ¬root <+: d := by
  obtain ⟨g, rfl, parent, -, absent⟩ := missing_snoc missing
  obtain ⟨f', rest, q, rfl, there, outside, next⟩ := out
  have short : g <+: root ++ (f' ++ rest) := by
    refine List.prefix_of_prefix_length_le ((List.prefix_append g [n]).trans under)
      (List.prefix_append _ [m]) ?_
    have len := under.length_le
    simp only [List.length_append, List.length_singleton] at len ⊢
    omega
  have whole : root ++ f' <+: root ++ (f' ++ rest) := ⟨rest, by rw [List.append_assoc]⟩
  rcases Nat.lt_trichotomy (root ++ f').length g.length with shorter | same | longer
  · cases rest with
    | nil => exact absurd short.length_le (by rw [List.append_nil]; omega)
    | cons c rest =>
      have step : root ++ f' ++ [c] <+: g := by
        refine List.prefix_of_prefix_length_le ⟨rest, by simp⟩ short ?_
        rw [List.length_append]
        exact shorter
      obtain ⟨x, here⟩ := lookup_prefix step parent
      exact absurd (next c rfl) (statusOf_of_found here)
  · obtain rfl : root ++ f' = g :=
      (List.prefix_of_prefix_length_le whole short same.le).eq_of_length same
    rw [there] at parent
    exact Outcome.found.inj parent ▸ outside
  · have step : g ++ [n] <+: root ++ f' := by
      refine List.prefix_of_prefix_length_le under (whole.trans (List.prefix_append _ [m])) ?_
      rw [List.length_append]
      exact longer
    obtain ⟨x, here⟩ := lookup_prefix step there
    rw [lookup_missing_follow missing] at here
    cases here

theorem position_plain {path : OutPath} (root : List FileName) (plain : Plain path) :
    position root path = root ++ namesIn path := by
  rw [position, ← lexical_moves, moves_down plain.clean plain.down, lexical_names]

theorem leadsTo_plain (there : t.IsDir root) {path : OutPath} (plain : Plain path) :
    leadsTo t root path = lookup t true (below root path) := by
  rw [lookup_below t there, osSteps_clean plain.clean]
  rfl

theorem statusOf_dangles {path : OutPath} (dangles : (lookup t true path).Dangles) :
    statusOf t path = .notFound := by
  rw [statusOf]
  rcases led : lookup t true path with q | _ | _ | _
  · rw [led] at dangles
    exact False.elim dangles
  · rfl
  · rfl
  · rw [led] at dangles
    exact False.elim dangles

theorem leadsAway_of_outside (there : t.IsDir root) {dir : OutPath} (plain : Plain dir)
    (out : LeadsOutside t root dir) : LeadsAway t root (namesIn dir) := by
  obtain ⟨f, rest, q, rfl, found, next, outside⟩ := out
  have front : Plain f := plain.of_prefix (List.prefix_append f rest)
  have back : Plain rest := fun c member => plain c (List.mem_append_right f member)
  rw [leadsTo_plain there front] at found
  have names := found_names (plain_below root front) found
  rw [namesIn_below] at names
  rw [position_plain q back] at outside
  refine ⟨namesIn f, namesIn rest, q, namesIn_append f rest, names,
    fun inside => outside (inside.trans (List.prefix_append q _)), fun n first => ?_⟩
  rcases rest with _ | ⟨c, rest⟩
  · cases first
  have gone := next c rfl
  have one : Plain (f ++ [c]) := front.append fun d member =>
    List.mem_singleton.mp member ▸ back c List.mem_cons_self
  rw [leadsTo_plain there one, ← below_path, ← List.append_assoc, below_path] at gone
  rcases back c List.mem_cons_self with name | rfl
  · have head : namesIn (c :: rest) = ⟨c, name⟩ :: namesIn rest :=
      List.filterMap_cons_some (dif_pos name)
    rw [head] at first
    obtain rfl : ⟨c, name⟩ = n := Option.some.inj first
    rw [lookup_name (plain_below root front) ⟨c, name⟩, namesIn_below] at gone
    exact statusOf_dangles gone
  · have leaf : ¬t.IsDir q := by
      intro dir
      rw [(lookup_self_found (plain_below root front) zero_notMem_dot toStep_dot).mpr
        ⟨found, dir⟩] at gone
      exact gone
    have behind := lookup_append t true (root ++ namesIn f) (List.cons_ne_nil n [])
    rw [names] at behind
    rw [statusOf, (behind.resolve_left fun dir => leaf dir.1).2]

end Outside

section Removal
variable (host : Host) {root : List FileName} {t : DiskTree} {w : FileSystem}

theorem present_iff (t : DiskTree) (path : OutPath) :
    present t path = true ↔ ∃ q, lookup t false path = .found q := by
  unfold present
  rcases lookup t false path with q | _ | _ | _ <;> simp

/-- The path still has a name for what it leads to. -/
def HoldsByName (t : DiskTree) (path : OutPath) (q : List FileName) : Prop :=
  path.named = true ∧ lookup t false path.bare = .found q

theorem ends_removeAllAt (path : OutPath) (w : FileSystem) :
    Ends (FileSystem.removeAllAt host path) w
      (fun _ w' => (w' = w.tick ∧ ∀ q, lookup w.tree false path ≠ .found q) ∨
        ∃ q, lookup w.tree false path = .found q ∧
          ((HoldsByName w.tree path q ∧ w' = w.tick.setTree (w.tree.erase q) [q]) ∨
            (path.named = false ∧ lookup (w.tree.clear q) false path ≠ .found q ∧
              w' = w.tick.setTree (w.tree.clear q) [])))
      (fun _ w' => (w' = w.tick ∧
          (host.faults w.attempts ≠ none ∨ ∀ q, lookup w.tree false path ≠ .found q)) ∨
        ∃ q, lookup w.tree false path = .found q ∧
          ¬HoldsByName w.tree path q ∧ w' = w.tick.setTree (w.tree.clear q) []) := by
  refine ends_call host (fun _ faulted => .inl ⟨rfl, .inl (faulted ▸ Option.some_ne_none _)⟩) ?_
  rw [ends_get_bind, show w.tick.tree = w.tree from rfl]
  rcases lookup w.tree false path with q | _ | _ | _
  · simp only
    split
    · next byName => exact .inr ⟨q, rfl, .inl ⟨byName, rfl⟩⟩
    · next other =>
      rw [ends_set_bind]
      rcases step : path.lastStep with _ | _ | _ | n
      · exact .inr ⟨q, rfl, other, rfl⟩
      · exact .inr ⟨q, rfl, other, rfl⟩
      · simp only
        rw [ends_throwIf]
        split
        · exact .inr ⟨q, rfl, other, rfl⟩
        · next gone => exact .inr ⟨q, rfl, .inr ⟨by rw [OutPath.named, step], gone, rfl⟩⟩
      · exact .inr ⟨q, rfl, other, rfl⟩
  · exact .inl ⟨rfl, fun p found => by cases found⟩
  · exact .inl ⟨rfl, fun p found => by cases found⟩
  · exact .inl ⟨rfl, .inr fun p found => by cases found⟩

/-- What `remove_all` takes away below a place: all of it, or all but the place itself. -/
structure Taken (t : DiskTree) (path : OutPath) (q p : List FileName) : Prop where
  under : q <+: p
  whole : p = q → HoldsByName t path q
  stands : t.node p ≠ none

def Removable (t : DiskTree) (root : List FileName) (path : OutPath) : Prop :=
  ∀ q, lookup t false path = .found q → ∀ p, Taken t path q p → root <+: p ∧ p ≠ root

section Inside
variable {src : List FileName} {base : DiskTree} {path : OutPath}

/-- What is left behind `remove_all`: a world with nothing changed outside, where the paths that
are free inside only still are. -/
structure Cleared (root src : List FileName) (base t : DiskTree) (w : FileSystem) : Prop where
  only : OnlyInside root src base w
  free : ∀ p, FreeInside t root p → FreeInside w.tree root p

theorem OnlyInside.cleared (o : OnlyInside root src base w) (removable : Removable w.tree root path)
    {q : List FileName} (found : lookup w.tree false path = .found q) {u : DiskTree}
    (sub : u.Sub w.tree)
    (taken : ∀ p, w.tree.node p ≠ none → u.node p = none → Taken w.tree path q p)
    {places : List (List FileName)} (touched : ∀ p ∈ places, Taken w.tree path q p) :
    Cleared root src base w.tree (w.tick.setTree u places) where
  only := o.tick.cut sub (fun p stands gone => removable q found p (taken p stands gone))
    fun p member => removable q found p (touched p member)
  free _ free := free.of_sub sub fun p stands gone => removable q found p (taken p stands gone)

theorem HoldsByName.taken {q : List FileName} (byName : HoldsByName t path q)
    (found : lookup t false path = .found q) : Taken t path q q :=
  ⟨List.prefix_refl q, fun _ => byName, found_stands found⟩

theorem OnlyInside.erased (o : OnlyInside root src base w) (removable : Removable w.tree root path)
    {q : List FileName} (found : lookup w.tree false path = .found q)
    (byName : HoldsByName w.tree path q) :
    Cleared root src base w.tree (w.tick.setTree (w.tree.erase q) [q]) := by
  refine o.cleared removable found (w.tree.sub_erase q) (fun p stands gone => ?_) fun p member => ?_
  · exact ⟨w.tree.erase_gone stands gone, fun _ => byName, stands⟩
  · exact List.mem_singleton.mp member ▸ byName.taken found

theorem OnlyInside.emptied (o : OnlyInside root src base w) (removable : Removable w.tree root path)
    {q : List FileName} (found : lookup w.tree false path = .found q) :
    Cleared root src base w.tree (w.tick.setTree (w.tree.clear q) []) := by
  refine o.cleared removable found (w.tree.sub_clear q) (fun p stands gone => ?_)
    fun p member => absurd member List.not_mem_nil
  obtain ⟨under, other⟩ := w.tree.clear_gone stands gone
  exact ⟨under, fun same => absurd same other, stands⟩

theorem found_of_sub {u : DiskTree} (sub : u.Sub t) {follow : Bool} {q : List FileName}
    (found : lookup u follow path = .found q) : lookup t follow path = .found q :=
  resolve_of_sub sub _ _ _ found

theorem OnlyInside.removeAllAt (o : OnlyInside root src base w)
    (removable : Removable w.tree root path) {q : List FileName}
    (found : lookup w.tree false path = .found q) :
    Ends (FileSystem.removeAllAt host path) w
      (fun _ w' => Cleared root src base w.tree w' ∧
        (∀ p, lookup w'.tree false path ≠ .found p) ∧
        (path.named = true → root <+: q ∧ q ≠ root))
      (fun _ w' => StaysInside root base w') := by
  refine (ends_removeAllAt host path w).mono ?_ ?_
  · rintro _ w' (⟨-, none⟩ | ⟨q', found', ⟨byName, rfl⟩ | ⟨unnamed, gone, rfl⟩⟩)
    · exact absurd found (none q)
    · obtain rfl := Outcome.found.inj (found'.symm.trans found)
      have inside := removable q' found q' (byName.taken found)
      refine ⟨o.erased removable found byName, fun p still => ?_, fun _ => inside⟩
      obtain rfl := Outcome.found.inj ((found_of_sub (w.tree.sub_erase q') still).symm.trans found)
      have below : p ≠ [] := by
        rintro rfl
        exact inside.2 (List.prefix_nil.mp inside.1).symm
      refine found_stands still ?_
      change (w.tree.erase p).node p = none
      rw [w.tree.erase_node below, if_pos (List.prefix_refl p)]
    · obtain rfl := Outcome.found.inj (found'.symm.trans found)
      refine ⟨o.emptied removable found, fun p still => ?_, fun named => ?_⟩
      · obtain rfl :=
          Outcome.found.inj ((found_of_sub (w.tree.sub_clear q') still).symm.trans found)
        exact gone still
      · rw [unnamed] at named
        cases named
  · rintro _ w' (⟨rfl, -⟩ | ⟨q', found', -, rfl⟩)
    · exact o.tick.toStaysInside
    · exact (o.emptied removable found').only.toStaysInside

end Inside

end Removal

section Directories
variable (host : Host) {t : DiskTree} {root src : List FileName} {path : OutPath} {w : FileSystem}

def Full (t : DiskTree) (names : List FileName) : Prop :=
  ∀ f d n, f <+: names → lookup t false (below f []) ≠ .missing d n

theorem Full.of_prefix {p q : List FileName} (full : Full t q) (under : p <+: q) : Full t p :=
  fun f d n upper => full f d n (upper.trans under)

theorem keeps_createMissing_full (down : Downward path) (full : Full t (readNames path))
    (same : w.tree = t) :
    Keeps (fun w => w.tree = t) (FileSystem.createMissing host path.reverse) w := by
  refine keeps_createMissing host (fun _ => id) down (fun f w' under same => ?_) same
  refine (ends_mkdir host _ w').mono ?_ ?_
  · rintro created w'' (⟨-, d, n, missing, -⟩ | ⟨-, rfl, -⟩)
    · rw [same] at missing
      exact absurd missing (full f d n under)
    · exact same
  · rintro _ w'' rfl
    exact same

theorem createDirectory_full (down : Downward path) (full : Full t (readNames path))
    (same : w.tree = t) :
    Ends (FileSystem.createDirectory host path) w
      (fun _ w' => statusOf t path = .directory ∧ w'.tree = t) fun _ _ => True := by
  refine Ends.bind ((ends_mkdir host path w).mono (fun _ _ => id) fun _ _ _ => trivial)
    fun created w₁ made => ?_
  rcases made with ⟨-, d, n, missing, -⟩ | ⟨rfl, rfl, -⟩
  · rw [same] at missing
    exact absurd (missing_readNames down missing) (full _ d n (List.prefix_refl _))
  change Ends (FileSystem.status host path >>= fun st => _) _ _ _
  refine Ends.bind_returns (ends_status host path w.tick) fun st w₂ done => ?_
  obtain ⟨rfl, known⟩ := done
  rw [ends_throwIf]
  split
  · trivial
  · next isDir =>
    rw [not_not] at isDir
    subst isDir
    rw [show w.tick.tree = w.tree from rfl, same] at known
    rcases known with known | known
    · cases known
    · exact ⟨known.symm, same⟩

theorem createMissing_done {front : OutPath} {c : Bytes} (down : Downward (front ++ [c]))
    (moves : c ≠ dot) (full : Full t (readNames (front ++ [c]))) (same : w.tree = t) :
    Ends (FileSystem.createMissing host (front ++ [c]).reverse) w
      (fun _ w' => statusOf t (front ++ [c]) = .directory ∧ w'.tree = t) fun _ _ => True := by
  have under := List.prefix_append front [c]
  have level : c ≠ dotDot := (down c (List.mem_append_right _ List.mem_cons_self)).2.1
  have last : ∀ w', w'.tree = t → Ends
      (if c = dot ∨ c = dotDot then pure ()
        else FileSystem.createDirectory host (c :: front.reverse).reverse) w'
      (fun _ w'' => statusOf t (front ++ [c]) = .directory ∧ w''.tree = t) fun _ _ => True := by
    intro w' same
    rw [if_neg (not_or.mpr ⟨moves, level⟩), List.reverse_cons, List.reverse_reverse]
    exact createDirectory_full host down full same
  rw [List.reverse_append, List.reverse_singleton, List.singleton_append,
    FileSystem.createMissing, List.reverse_reverse]
  refine Ends.bind_returns (ends_status host front w) fun st w₁ done => ?_
  obtain ⟨rfl, -⟩ := done
  cases st with
  | other => trivial
  | notFound =>
    refine Ends.bind (Ends.mono (keeps_createMissing_full (w := w.tick) host
      (down.of_prefix under) (full.of_prefix (readNames_mono under)) same) (fun _ _ => id)
      fun _ _ _ => trivial) fun _ w₂ same => last w₂ same
  | directory => exact last _ same
  | unknown => exact last _ same

theorem createBehindDots_done (down : Downward path) (full : Full t (readNames path))
    (same : w.tree = t) :
    Ends (FileSystem.createBehindDots host path.reverse) w
      (fun _ w' => statusOf t path = .directory ∧ w'.tree = t) fun _ _ => True := by
  induction path using List.reverseRecOn generalizing w with
  | nil => trivial
  | append_singleton front c ih =>
    have under := List.prefix_append front [c]
    have level : c ≠ dotDot := (down c (List.mem_append_right _ List.mem_cons_self)).2.1
    rw [List.reverse_append, List.reverse_singleton, List.singleton_append,
      FileSystem.createBehindDots]
    by_cases moves : c = dot
    · rw [if_pos (.inl moves), List.reverse_reverse]
      refine Ends.bind_returns (ends_status host front w) fun st w₁ done => ?_
      obtain ⟨rfl, known⟩ := done
      cases st with
      | notFound =>
        -- nothing is made behind a front that is not there
        refine (ih (w := w.tick) (down.of_prefix under) (full.of_prefix (readNames_mono under))
          same).mono ?_ fun _ _ => id
        rintro _ w' ⟨isDir, -⟩
        rcases known with known | known
        · cases known
        · rw [same, isDir] at known
          cases known
      | other => trivial
      | directory => trivial
      | unknown => trivial
    · rw [if_neg (not_or.mpr ⟨moves, level⟩), ← List.singleton_append,
        ← List.reverse_singleton, ← List.reverse_append]
      exact createMissing_done host down moves full same

theorem createDirectories_done (down : Downward path) (w : FileSystem) :
    Ends (FileSystem.createDirectories host path) w
      (fun _ w' => (statusOf w.tree path = .directory ∧ w'.tree = w.tree) ∨
        ∃ f d n, f <+: readNames path ∧ lookup w.tree false (below f []) = .missing d n)
      (fun _ _ => True) := by
  by_cases free : ∃ f d n, f <+: readNames path ∧ lookup w.tree false (below f []) = .missing d n
  · exact .of_all (fun _ _ => .inr free) fun _ _ => trivial
  have full : Full w.tree (readNames path) := fun f d n under missing =>
    free ⟨f, d, n, under, missing⟩
  unfold FileSystem.createDirectories
  refine Ends.bind_returns (ends_status host path w) fun st w₁ done => ?_
  obtain ⟨rfl, known⟩ := done
  cases st with
  | directory =>
    refine .inl ⟨?_, rfl⟩
    rcases known with known | known
    · cases known
    · exact known.symm
  | other => trivial
  | unknown => trivial
  | notFound =>
    change Ends (FileSystem.createBehindDots host (if path.getLast? = some [] then
      path.dropLast else path).reverse) _ _ _
    rw [if_neg down.getLast]
    exact (createBehindDots_done (w := w.tick) host down full rfl).mono (fun _ _ => .inl)
      fun _ _ => id

end Directories

section Stays

/-- The free fronts of a destination that `ensure_dirs` may fill, and no parent outside that it
takes for done. -/
structure EnsureStays (t : DiskTree) (root : List FileName) (path : OutPath) : Prop where
  free : FreeInside t root (root ++ readNames path)
  parent : ¬(LeadsOutside t root (OutPath.parent (cutNames path)) ∧
    statusOf t (below root path) = .directory)

/-- The free fronts of the parent that `rename_into` may fill, and the objects that it may
remove. -/
structure PromoteStays (t : DiskTree) (root : List FileName) (path : OutPath) (overwrite : Bool) :
    Prop where
  free : FreeInside t root (root ++ readNames path.parent)
  removed : overwrite = true → Removable t root (below root path)

variable (host : Host) {t base : DiskTree} {root src : List FileName} {path front : OutPath}
  {last : Bytes} {w : FileSystem}

theorem ensureDirs_portable (there : t.IsDir root) (filled : path ≠ []) (down : Downward path)
    (stays : EnsureStays t root path) :
    Contains root t (OutPath.parent (cutNames path))
      (exec (ensureDirs host (outputTree root false) path) (.start t)) := by
  refine contains_of_ends ?_
  unfold ensureDirs
  rw [if_neg filled]
  change Ends (fsCall _ (FileSystem.createDirectories host (below root [] ++ path))) _ _ _
  rw [below_path, ends_fsCall]
  have start : OnlyInside root [] t (.start t) :=
    onlyInside_start there fun f under strict => absurd (List.prefix_nil.mp under) strict
  have whole := down.below root
  have free := stays.free
  rw [← readNames_below] at free
  refine ((start.createDirectories host whole free).and
    (createDirectories_done host whole (.start t))).mono ?_
    fun _ _ kept => kept.1.1.toStaysInside
  rintro _ w' ⟨o, done⟩
  refine ⟨o.1.toStaysInside, fun out => ?_⟩
  rcases done with ⟨isDir, -⟩ | ⟨f, d, n, under, missing⟩
  · exact stays.parent ⟨out, isDir⟩
  · obtain ⟨front, last, r⟩ := down.reads filled
    obtain ⟨m, upper⟩ := r.readNames_le n
    rw [r.parent_eq] at out
    refine (leadsAway_of_outside there r.plain out).missing (m := m) ?_ missing
      (free f d n under missing)
    rw [readNames_below] at under
    rw [List.append_assoc]
    exact under.trans ((List.prefix_append_right_inj root).mpr upper)

theorem parent_concat (front : OutPath) (c : Bytes) : OutPath.parent (front ++ [c]) = front :=
  List.dropLast_concat

theorem inside_of_guard {parent : OutPath} {d : List FileName}
    (found : lookup t true parent = .found d)
    (passed : escapesRoot t (below root []) parent = false) : root <+: d := by
  by_contra outside
  have away : ¬below root [] <+: below d [] := by
    rw [below, below, List.append_nil, List.append_nil]
    exact fun under => outside ((List.prefix_map_iff_of_injective Subtype.val_injective).mp under)
  obtain ⟨k, rest, up, -⟩ := lexicallyRelative_outside away
  have canonical : weaklyCanonical t parent = .ok (below d []) := by
    rw [weaklyCanonical, found]
  rw [escapesRoot, canonical] at passed
  simp [up, List.replicate_succ] at passed

/-- The parent of the destination after `create_directories`, with nothing at the destination
before. -/
structure Promoting (u t : DiskTree) (root : List FileName) (path front : OutPath) (last : Bytes) :
    Prop where
  reads : Reads path front last
  sub : u.Sub t
  free : FreeInside u root (readNames path.parent)
  along : LeadsAlong u root (readNames path.parent) t
  absent : ∀ q, lookup u false path ≠ .found q
  done : (statusOf u path.parent = .directory ∧ t = u) ∨
    ∃ f d n, f <+: readNames path.parent ∧ lookup u false (below f []) = .missing d n
  passed : escapesRoot t (below root []) path.parent = false

theorem Promoting.free_target {u t : DiskTree} (p : Promoting u t root path front last)
    {names d : List FileName} {m : FileName} (under : names ++ [m] <+: readNames path.parent)
    (found : lookup t true (below names []) = .found d) (dir : t.IsDir d)
    (fresh : ∀ q, lookup u false (below (names ++ [m]) []) ≠ .found q) : root <+: d := by
  rcases p.along names d ((List.prefix_append names [m]).trans under) found with before | inside
  · have old : u.IsDir d := by
      obtain ⟨x, here⟩ := Option.ne_none_iff_exists'.mp (found_stands before)
      obtain ⟨a, there⟩ := dir
      exact ⟨a, here.trans ((p.sub d x here).symm.trans there)⟩
    have place := lookup_snoc before old m
    split at place
    · exact p.free _ d m under place
    · exact absurd place (fresh _)
  · exact inside

/-- A parent that leads somewhere before is not the destination itself, behind its NUL. -/
theorem Promoting.parent_found {u t : DiskTree} (p : Promoting u t root path front last)
    {q : List FileName} (found : lookup u true path.parent = .found q) :
    lookup u true front = .found q := by
  rw [← lookup_cutNames] at found
  rcases p.reads.parent with upper | whole
  · rwa [upper] at found
  · rw [whole, ← p.reads.read, lookup_cutNames] at found
    obtain ⟨x, place⟩ := p.reads.found_place found
    exact absurd place (p.absent x)

theorem Promoting.inside_name {u t : DiskTree} (p : Promoting u t root path front last)
    {d : List FileName} {n m : FileName} (step : toStep last = .name m)
    (place : (lookup t false (front ++ [last])).place = some (d ++ [n])) : root <+: d := by
  have r := p.reads
  have last_eq := eq_of_toStep r.clean step
  rw [last_eq] at place
  obtain ⟨d', found, dir, same⟩ := lookup_parent r.plain m place
  obtain ⟨rfl, -⟩ := List.append_inj' same rfl
  rcases r.parent with upper | whole
  · have opens : lookup t true path.parent = .found d := by
      rw [← lookup_cutNames, upper, found]
    exact inside_of_guard opens p.passed
  · have names : readNames path.parent = namesIn front ++ [m] := by
      rw [readNames, whole, last_eq, namesIn_name]
    refine p.free_target (by rw [names]) (found_names r.plain found) dir fun q there => ?_
    rw [← r.readNames_name step, ← r.lookup_name step] at there
    exact p.absent q there

theorem Promoting.inside_slash {u t : DiskTree} {m : FileName}
    (p : Promoting u t root path (front ++ [m.1]) []) {d : List FileName} {n : FileName}
    (place : (lookup t false (front ++ [m.1])).place = some (d ++ [n])) : root <+: d := by
  have r := p.reads
  have upper := r.plain.of_prefix (List.prefix_append front [m.1])
  obtain ⟨d', found, dir, same⟩ := lookup_parent upper m place
  obtain ⟨rfl, -⟩ := List.append_inj' same rfl
  have names : readNames path.parent = namesIn front ++ [m] := by
    rw [readNames]
    rcases r.parent with same | same
    · rw [same, namesIn_name]
    · rw [same, namesIn_other _ unnamed_nil, namesIn_name]
  refine p.free_target (by rw [names]) (found_names upper found) dir fun q there => ?_
  rcases p.done with ⟨isDir, -⟩ | ⟨f, d₀, n₀, under, missing⟩
  · obtain ⟨y, here, dir'⟩ := statusOf_directory isDir
    refine p.absent y ?_
    rw [r.lookup_eq]
    exact (lookup_self_found r.plain r.clean toStep_nil).mpr ⟨p.parent_found here, dir'⟩
  · rw [names] at under
    rcases List.prefix_concat_iff.mp under with rfl | inner
    · cases missing.symm.trans there
    · obtain ⟨x, parent, -⟩ := lookup_snoc_cases m (by rw [there]; rfl)
      obtain ⟨y, here⟩ := lookup_prefix inner parent
      cases (lookup_missing_follow missing).symm.trans here

theorem named_concat {bare : OutPath} {c : Bytes} (same : path.bare = bare ++ [c]) :
    path.named = true ↔ ∃ m, toStep c = .name m := by
  rw [OutPath.named, OutPath.lastStep, same, List.getLast?_concat, Option.map_some]
  cases toStep c <;> simp

theorem Promoting.inside {u t : DiskTree} (p : Promoting u t root path front last)
    {d : List FileName} {n : FileName}
    (place : (lookup t false path.bare).place = some (d ++ [n]))
    (unnamed : path.named = false → lookup t false path.bare = .missing d n) :
    path.named = true ∧ root <+: d := by
  have r := p.reads
  have bare := r.bare_eq
  split at bare
  · next slash =>
    subst slash
    rcases front.eq_nil_or_concat with rfl | ⟨front, c, rfl⟩
    · rw [bare] at place
      simp [show lookup t false [] = .found [] from rfl, Outcome.place] at place
    rw [List.concat_eq_append] at p r bare
    have upper := r.plain.of_prefix (List.prefix_append front [c])
    rcases r.plain c (List.mem_append_right _ List.mem_cons_self) with name | rfl
    · refine ⟨(named_concat bare).mpr ⟨_, toStep_fileName ⟨c, name⟩⟩, ?_⟩
      exact p.inside_slash (m := ⟨c, name⟩) (bare ▸ place)
    · refine absurd (bare ▸ unnamed ?_)
        (lookup_end_missing upper zero_notMem_dot unnamed_dot d n)
      rw [Bool.eq_false_iff, Ne, named_concat bare]
      exact not_exists.mpr unnamed_dot
  · by_cases named : ∃ m, toStep last = .name m
    · obtain ⟨m, step⟩ := named
      exact ⟨(named_concat bare).mpr ⟨m, step⟩, p.inside_name step (bare ▸ place)⟩
    · refine absurd (bare ▸ unnamed ?_)
        (lookup_end_missing r.plain r.clean (not_exists.mp named) d n)
      rwa [Bool.eq_false_iff, Ne, named_concat bare]

theorem Promoting.clear {u t : DiskTree}
    (p : Promoting u t root path (below root front) last) : ¬LeadsAway u root (namesIn front) := by
  intro out
  rcases p.done with ⟨isDir, same⟩ | ⟨f, d, n, under, missing⟩
  · obtain ⟨y, found, -⟩ := statusOf_directory isDir
    have names := found_names p.reads.plain (p.parent_found found)
    rw [namesIn_below] at names
    exact out.found names (inside_of_guard (same ▸ found) p.passed)
  · obtain ⟨m, upper⟩ := p.reads.readNames_le n
    have inside := p.free f d n under missing
    rw [namesIn_below] at upper
    exact out.missing (under.trans ((readNames_mono (List.dropLast_prefix path)).trans upper))
      missing inside

theorem OnlyInside.promote (o : OnlyInside root src base w) (inner : root <+: src ∧ src ≠ root)
    (r : Reads path front last) (down : Downward path)
    (free : FreeInside w.tree root (root ++ readNames path.parent))
    (absent : ∀ q, lookup w.tree false (below root path) ≠ .found q) :
    Ends (promoteTo host (below root []) src (below root path)) w
      (fun _ w' => StaysInside root base w' ∧ (below root path).named = true ∧
        ¬LeadsAway w.tree root (namesIn front))
      (fun _ w' => StaysInside root base w') := by
  have parent : OutPath.parent (below root path) = below root path.parent := parent_below r.filled
  have upper := down.parent.below root
  rw [← readNames_below, ← parent] at free
  rw [← parent] at upper
  unfold promoteTo
  refine Ends.bind ((ends_fsCall _ _).mpr (((o.createDirectories host upper free).and
    (createDirectories_done host upper w)).mono (fun _ _ => id)
    fun _ _ kept => kept.1.1.toStaysInside)) fun _ w₁ made => ?_
  obtain ⟨⟨o₁, sub, along⟩, done⟩ := made
  rw [ends_get_bind, ends_throwIf_bind]
  split
  · exact o₁.toStaysInside
  · next passed =>
    rw [Bool.not_eq_true] at passed
    have p : Promoting w.tree w₁.tree root (below root path) (below root front) last :=
      ⟨r.below root, sub, free, along, absent, done, passed⟩
    refine (ends_fsCall _ _).mpr ((ends_rename host src _ w₁).mono ?_ ?_)
    · rintro _ w' ⟨q, d, n, u, source, place, unnamed, moved, rfl⟩
      obtain rfl := o₁.lookup_source source
      obtain ⟨named, inside⟩ := p.inside place unnamed
      exact ⟨o₁.tick.renamed inner inside moved, named, p.clear⟩
    · rintro _ w' rfl
      exact o₁.tick.toStaysInside

theorem parent_inside (r : Reads path front last) (named : path.named = true) {q : List FileName}
    (found : lookup t false path = .found q) (inside : root <+: q ∧ q ≠ root) :
    ∃ d, lookup t true (below (namesIn front) []) = .found d ∧ root <+: d := by
  rcases step : toStep last with _ | _ | m
  · rw [r.lookup_eq, lookup_self_found r.plain r.clean step] at found
    exact ⟨q, found_names r.plain found.1, inside.1⟩
  · have bare := r.bare_eq
    rw [if_neg (by rintro rfl; cases toStep_nil.symm.trans step)] at bare
    obtain ⟨m, other⟩ := (named_concat bare).mp named
    cases step.symm.trans other
  · rw [r.lookup_eq, eq_of_toStep r.clean step] at found
    obtain ⟨d, parent, -, rfl⟩ := lookup_parent r.plain m (by rw [found]; rfl)
    exact ⟨d, found_names r.plain parent,
      (List.prefix_concat_iff.mp inside.1).resolve_left fun same => inside.2 same.symm⟩

theorem clearDestination_stays (start : OnlyInside root src t w) (same : w.tree = t)
    (there : t.IsDir root) (r : Reads path front last) {overwrite : Bool}
    (stays : PromoteStays t root path overwrite) :
    Ends (clearDestination host (below root path) overwrite) w
      (fun _ w' => OnlyInside root src t w' ∧
        FreeInside w'.tree root (root ++ readNames path.parent) ∧
        (∀ q, lookup w'.tree false (below root path) ≠ .found q) ∧
        ((below root path).named = true → ¬LeadsAway w'.tree root (namesIn front) →
          ¬LeadsOutside t root front))
      (fun _ w' => StaysInside root t w') := by
  subst same
  unfold clearDestination
  rw [ends_get_bind]
  split
  · next stands =>
    obtain ⟨q, found⟩ := (present_iff _ _).mp stands
    rw [ends_throwIf_bind]
    split
    · exact start.toStaysInside
    · next permitted =>
      rw [not_not] at permitted
      refine (ends_fsCall _ _).mpr
        ((start.removeAllAt host (stays.removed permitted) found).mono ?_ fun _ _ => id)
      rintro _ w' ⟨cleared, absent, inside⟩
      refine ⟨cleared.only, cleared.free _ stays.free, absent, fun named _ out => ?_⟩
      obtain ⟨d, parent, upper⟩ := parent_inside (r.below root) named found (inside named)
      rw [namesIn_below] at parent
      exact (leadsAway_of_outside there r.plain out).found parent upper
  · next absent =>
    refine ⟨start, stays.free, fun q found => absent ((present_iff _ _).mpr ⟨q, found⟩), ?_⟩
    exact fun _ clear out => clear (leadsAway_of_outside there r.plain out)

theorem renameInto_portable (there : t.IsDir root) (filled : path ≠ []) (down : Downward path)
    (inner : root <+: src ∧ src ≠ root) (physical : ∀ f, f <+: src → f ≠ src → t.IsDir f)
    {overwrite : Bool} (stays : PromoteStays t root path overwrite) :
    Contains root t (OutPath.parent (cutNames path))
      (exec (renameInto host (outputTree root false) src path overwrite) (.start t)) := by
  refine contains_of_ends ?_
  change Ends (renameIntoPortable host (below root []) src path overwrite) _ _ _
  unfold renameIntoPortable
  rw [below_path]
  obtain ⟨front, last, r⟩ := down.reads filled
  rw [r.parent_eq]
  have start : OnlyInside root src t (.start t) := onlyInside_start there physical
  refine Ends.bind (clearDestination_stays host start rfl there r stays) fun _ w₁ cleared => ?_
  obtain ⟨o, free, absent, clear⟩ := cleared
  exact (o.promote host inner r down free absent).mono
    (fun _ _ kept => ⟨kept.1, clear kept.2.1 kept.2.2⟩) fun _ _ => id

end Stays

section Quiet
variable {root src : List FileName} {t : DiskTree} {path front : OutPath} {last : Bytes}
  {w : FileSystem} {x : List FileName}

theorem keeps_mkdir_made {I : FileSystem → Prop} (ticked : ∀ w, I w → I w.tick)
    (made : ∀ w d n, I w → I (w.create d n (.dir .fresh))) (host : Host) (path : OutPath)
    (here : I w) : Keeps I (FileSystem.mkdir host path) w := by
  refine (ends_mkdir host path w).mono ?_ ?_
  · rintro _ w' (⟨-, d, n, -, rfl⟩ | ⟨-, rfl, -⟩)
    · exact made _ d n (ticked w here)
    · exact ticked w here
  · rintro _ w' rfl
    exact ticked w here

theorem touched_mkdir (host : Host) (path : OutPath) (here : x ∈ w.touched) :
    Keeps (fun w => x ∈ w.touched) (FileSystem.mkdir host path) w :=
  keeps_mkdir_made (fun _ => id) (fun _ _ _ => List.mem_append_left _) host path here

theorem createDirectory_quiet {d : List FileName} {n : FileName}
    (missing : lookup w.tree false path = .missing d n) :
    Keeps (fun w => d ++ [n] ∈ w.touched) (FileSystem.createDirectory quietHost path) w := by
  refine Ends.bind_returns (ends_mkdir_quiet missing) fun created w' made => ?_
  obtain ⟨rfl, rfl⟩ := made
  exact List.mem_append_right _ (List.mem_singleton_self _)

/-- Where only the whole path is free, its parent is a directory. -/
theorem last_missing {front : OutPath} {c : Bytes} (down : Downward (front ++ [c]))
    {f d : List FileName} {n : FileName} (under : f <+: readNames (front ++ [c]))
    (outer : ¬f <+: readNames front) (missing : lookup t false (below f []) = .missing d n) :
    lookup t false (front ++ [c]) = .missing d n ∧
      ∃ x, lookup t true (cutNames front) = .found x ∧ t.IsDir x := by
  obtain ⟨before, last, r⟩ := down.reads
    (List.append_ne_nil_of_right_ne_nil front (List.cons_ne_nil c []))
  have upper : cutNames front = before := by
    rcases r.parent with same | same
    · rwa [parent_concat] at same
    · rw [parent_concat, ← r.read] at same
      rw [readNames, same] at outer
      exact absurd under outer
  have named : ∃ m, toStep last = .name m := by
    by_contra other
    rw [r.readNames_other (not_exists.mp other), ← upper] at under
    exact outer under
  obtain ⟨m, step⟩ := named
  have whole : f = readNames (front ++ [c]) := by
    rw [r.readNames_name step] at under ⊢
    refine (List.prefix_concat_iff.mp under).resolve_right fun inner => outer ?_
    rwa [readNames, upper]
  rw [whole, ← r.lookup_name step] at missing
  obtain ⟨x, found, dir⟩ := r.front_found (by rw [missing]; rfl)
  exact ⟨missing, x, upper ▸ found, dir⟩

theorem createMissing_quiet (down : Downward path) {f d : List FileName} {n : FileName}
    (under : f <+: readNames path) (missing : lookup w.tree false (below f []) = .missing d n) :
    Keeps (fun w => d ++ [n] ∈ w.touched)
      (FileSystem.createMissing quietHost path.reverse) w := by
  induction path using List.reverseRecOn generalizing w with
  | nil =>
    obtain rfl := List.prefix_nil.mp under
    rw [lookup_names] at missing
    cases missing
  | append_singleton front c ih =>
    have upper := down.of_prefix (List.prefix_append front [c])
    have level : c ≠ dotDot := (down c (List.mem_append_right _ List.mem_cons_self)).2.1
    rw [List.reverse_append, List.reverse_singleton, List.singleton_append,
      FileSystem.createMissing, List.reverse_reverse]
    refine Ends.bind_returns (ends_status_quiet front w) fun st w' done => ?_
    obtain ⟨rfl, rfl⟩ := done
    by_cases inner : f <+: readNames front
    · rw [statusOf_readNames upper inner missing]
      refine Keeps.bind (ih (w := w.tick) upper inner missing) fun _ w₁ here => ?_
      split
      · exact .of_pure _ here
      · exact keeps_createDirectory quietHost (fun _ => id)
          (fun w₂ here => touched_mkdir quietHost _ here) here
    · have moves : c ≠ dot := by
        rintro rfl
        exact inner (readNames_dot front ▸ under)
      obtain ⟨whole, x, parent, dir⟩ := last_missing down under inner missing
      rw [← statusOf_cutNames, statusOf_found parent, if_pos dir,
        if_neg (not_or.mpr ⟨moves, level⟩), List.reverse_cons, List.reverse_reverse]
      exact createDirectory_quiet (w := w.tick) whole

theorem createBehindDots_quiet (down : Downward path) {f d : List FileName} {n : FileName}
    (under : f <+: readNames path) (missing : lookup w.tree false (below f []) = .missing d n) :
    Keeps (fun w => d ++ [n] ∈ w.touched)
      (FileSystem.createBehindDots quietHost path.reverse) w := by
  induction path using List.reverseRecOn generalizing w with
  | nil =>
    obtain rfl := List.prefix_nil.mp under
    rw [lookup_names] at missing
    cases missing
  | append_singleton front c ih =>
    have upper := down.of_prefix (List.prefix_append front [c])
    have level : c ≠ dotDot := (down c (List.mem_append_right _ List.mem_cons_self)).2.1
    have whole := createMissing_quiet down under missing
    rw [List.reverse_append, List.reverse_singleton, List.singleton_append] at whole ⊢
    rw [FileSystem.createBehindDots]
    by_cases moves : c = dot
    · subst moves
      rw [readNames_dot] at under
      rw [if_pos (.inl rfl), List.reverse_reverse]
      refine Ends.bind_returns (ends_status_quiet front w) fun st w' done => ?_
      obtain ⟨rfl, rfl⟩ := done
      rw [statusOf_readNames upper under missing]
      exact ih (w := w.tick) upper under missing
    · rw [if_neg (not_or.mpr ⟨moves, level⟩)]
      exact whole

theorem createDirectories_quiet (down : Downward path) {f d : List FileName} {n : FileName}
    (under : f <+: readNames path) (missing : lookup w.tree false (below f []) = .missing d n) :
    Keeps (fun w => d ++ [n] ∈ w.touched)
      (FileSystem.createDirectories quietHost path) w := by
  refine Ends.bind_returns (ends_status_quiet path w) fun st w' done => ?_
  obtain ⟨rfl, rfl⟩ := done
  rw [statusOf_readNames down under missing, if_neg down.getLast]
  exact createBehindDots_quiet (w := w.tick) down under missing

/-- What holds of the rest of a promotion, once a directory is made or the source moved. -/
theorem keeps_promoteTo {I : FileSystem → Prop} (ticked : ∀ w, I w → I w.tick)
    (made : ∀ w d n, I w → I (w.create d n (.dir .fresh)))
    (moved : ∀ w p d n u, I w → renamed w.tree p d n = .ok u → I (w.setTree u [p, d ++ [n]]))
    (host : Host) (rootPath : OutPath) (down : Downward path.parent) (here : I w) :
    Keeps I (promoteTo host rootPath src path) w := by
  unfold promoteTo
  have dirs := keeps_createDirectories host ticked down
    (fun f _ _ here => keeps_mkdir_made ticked made host (below f []) here) here
  refine Keeps.bind ((ends_fsCall _ _).mpr dirs) fun _ w₁ here =>
    .get_bind (.throwIf_bind here fun _ => ?_)
  refine (ends_fsCall _ _).mpr ((ends_rename host src _ w₁).mono ?_ ?_)
  · rintro _ w' ⟨p, d, n, u, -, -, -, done, rfl⟩
    exact moved w₁.tick p d n u (ticked w₁ here) done
  · rintro _ w' rfl
    exact ticked w₁ here

/-- Nothing is at a place, or something was put there or above since. -/
def GoneOrTouched (p : List FileName) (w : FileSystem) : Prop :=
  w.tree.node p = none ∨ ∃ x ∈ w.touched, x <+: p

theorem GoneOrTouched.create {p : List FileName} (gone : GoneOrTouched p w) (d : List FileName)
    (n : FileName) : GoneOrTouched p (w.create d n (.dir .fresh)) := by
  rcases gone with none | ⟨x, member, under⟩
  · by_cases new : p = d ++ [n]
    · exact .inr ⟨p, List.mem_append_right _ (by rw [new]; exact List.mem_cons_self),
        List.prefix_refl p⟩
    · exact .inl ((w.tree.put_node_of_ne _ new).trans none)
  · exact .inr ⟨x, List.mem_append_left _ member, under⟩

theorem GoneOrTouched.renamed {p q d : List FileName} {n : FileName} {u : DiskTree}
    (gone : GoneOrTouched p w) (done : Archive.renamed w.tree q d n = .ok u) :
    GoneOrTouched p (w.setTree u [q, d ++ [n]]) := by
  rcases gone with none | ⟨x, member, under⟩
  · by_cases new : d ++ [n] <+: p
    · exact .inr ⟨d ++ [n], List.mem_append_right _ (by simp), new⟩
    · refine .inl ?_
      rcases renamed_ok done with rfl | rfl
      · exact none
      · by_cases old : q <+: p
        · change (w.tree.move q d n).node p = _
          unfold Tree.move
          split
          · simp only
            rw [if_neg new, if_pos old]
          · exact none
        · exact (w.tree.move_node_of_apart n old new).trans none
  · exact .inr ⟨x, List.mem_append_left _ member, under⟩

theorem GoneOrTouched.inside {base : DiskTree} {p : List FileName} (gone : GoneOrTouched p w)
    (stays : StaysInside root base w) (stood : base.node p ≠ none) : root <+: p ∧ p ≠ root := by
  rcases gone with none | ⟨x, member, under⟩
  · constructor
    · by_contra outside
      exact stood ((stays.same p outside).trans none)
    · rintro rfl
      exact stays.there.ne_none none
  · obtain ⟨inside, other⟩ := stays.touched x member
    refine ⟨inside.trans under, ?_⟩
    rintro rfl
    exact other (under.eq_of_length_le inside.length_le)

theorem ensureStays_of_contains (filled : path ≠ []) (down : Downward path)
    (contains : Contains root t (OutPath.parent (cutNames path))
      (exec (ensureDirs quietHost (outputTree root false) path) (.start t))) :
    EnsureStays t root path := by
  have unfolded : ensureDirs quietHost (outputTree root false) path =
      fsCall "cannot create directory: "
        (FileSystem.createDirectories quietHost (below root path)) := by
    unfold ensureDirs
    rw [if_neg filled]
    change fsCall _ (FileSystem.createDirectories quietHost (below root [] ++ path)) = _
    rw [below_path]
  rw [unfolded] at contains
  constructor
  · intro f d n under missing
    by_contra outside
    rw [← readNames_below] at under
    have touched := Ends.final ((ends_fsCall "cannot create directory: " _).mpr
      (createDirectories_quiet (w := .start t) (down.below root) under missing))
    exact not_inside outside (contains.1.touched _ touched)
  · rintro ⟨out, isDir⟩
    obtain ⟨e, thrown⟩ := contains.2 out
    have returns : Ends (fsCall "cannot create directory: "
        (FileSystem.createDirectories quietHost (below root path))) (.start t)
        (fun _ _ => True) (fun _ _ => False) := by
      refine (ends_fsCall _ _).mpr (Ends.bind_returns
        (ends_status_quiet (below root path) (.start t)) fun st w' done => ?_)
      rw [done.2, show statusOf (FileSystem.start t).tree _ = _ from isDir]
      trivial
    exact returns.of_error (Prod.ext thrown rfl)

theorem HoldsByName.ne_nil (r : Reads path front last) {q : List FileName}
    (byName : HoldsByName t path q) : q ≠ [] := by
  rintro rfl
  obtain ⟨named, found⟩ := byName
  have single : ∀ {front : OutPath} {c : Bytes}, Plain front → (0 : Byte) ∉ c →
      path.bare = front ++ [c] → False := by
    intro front c plain clean bare
    obtain ⟨m, step⟩ := (named_concat bare).mp named
    rw [bare, eq_of_toStep clean step] at found
    obtain ⟨d, -, -, same⟩ := lookup_parent plain m (by rw [found]; rfl)
    exact List.append_ne_nil_of_right_ne_nil d (List.cons_ne_nil m []) same.symm
  have bare := r.bare_eq
  split at bare
  · rcases front.eq_nil_or_concat with rfl | ⟨front, c, rfl⟩
    · rw [OutPath.named, OutPath.lastStep, bare] at named
      cases named
    · rw [List.concat_eq_append] at bare r
      exact single (r.plain.of_prefix (List.prefix_append front [c]))
        (r.plain.clean c (List.mem_append_right _ List.mem_cons_self)) bare
  · exact single r.plain r.clean bare

theorem clearDestination_takes (r : Reads path front last) {overwrite : Bool}
    (permitted : overwrite = true) {q p : List FileName}
    (found : lookup w.tree false path = .found q) (taken : Taken w.tree path q p) :
    Keeps (GoneOrTouched p) (clearDestination quietHost path overwrite) w := by
  have emptied : ¬HoldsByName w.tree path q → (w.tree.clear q).node p = none := by
    intro other
    rw [w.tree.clear_node, if_pos ⟨taken.under, fun same => other (taken.whole same)⟩]
  unfold clearDestination
  rw [Keeps, ends_get_bind, if_pos ((present_iff _ _).mpr ⟨q, found⟩), ends_throwIf_bind,
    if_neg (not_not.mpr permitted), ends_fsCall]
  refine (ends_removeAllAt quietHost path w).mono ?_ ?_
  · rintro _ w' (⟨-, none⟩ | ⟨q', found', ⟨byName, rfl⟩ | ⟨unnamed, -, rfl⟩⟩)
    · exact absurd found (none q)
    · obtain rfl := Outcome.found.inj (found'.symm.trans found)
      refine .inl ((w.tree.erase_node (byName.ne_nil r) p).trans (if_pos taken.under))
    · obtain rfl := Outcome.found.inj (found'.symm.trans found)
      refine .inl (emptied fun byName => ?_)
      rw [byName.1] at unnamed
      cases unnamed
  · rintro _ w' (⟨rfl, faulted | none⟩ | ⟨q', found', other, rfl⟩)
    · exact absurd rfl faulted
    · exact absurd found (none q)
    · obtain rfl := Outcome.found.inj (found'.symm.trans found)
      exact .inl (emptied other)

theorem promoteStays_of_contains (filled : path ≠ []) (down : Downward path) {overwrite : Bool}
    (contains : Contains root t (OutPath.parent (cutNames path))
      (exec (renameInto quietHost (outputTree root false) src path overwrite) (.start t))) :
    PromoteStays t root path overwrite := by
  have unfolded : renameInto quietHost (outputTree root false) src path overwrite = (do
      clearDestination quietHost (below root path) overwrite
      promoteTo quietHost (below root []) src (below root path)) := by
    change renameIntoPortable quietHost (below root []) src path overwrite = _
    rw [renameIntoPortable, below_path]
  rw [unfolded] at contains
  have parent : OutPath.parent (below root path) = below root path.parent := parent_below filled
  have upper : Downward (OutPath.parent (below root path)) := (down.below root).parent
  constructor
  · intro f d n under missing
    by_contra outside
    rw [← readNames_below, ← parent] at under
    have absent : present t (below root path) = false := by
      rw [Bool.eq_false_iff]
      intro stands
      obtain ⟨q, found⟩ := (present_iff _ _).mp stands
      exact readNames_missing (down.below root)
        (under.trans (readNames_mono (List.dropLast_prefix _))) missing q found
    have skipped : exec (clearDestination quietHost (below root path) overwrite)
        (.start t) = (.ok (), .start t) := by
      unfold clearDestination
      rw [exec_get_bind]
      change exec (if present t _ = true then _ else _) _ = _
      rw [absent]
      rfl
    rw [exec_bind_of_ok skipped] at contains
    suffices touched : Keeps (fun w => d ++ [n] ∈ w.touched)
        (promoteTo quietHost (below root []) src (below root path)) (.start t) from
      not_inside outside (contains.1.touched _ (Ends.final touched))
    unfold promoteTo
    refine Keeps.bind ((ends_fsCall _ _).mpr (createDirectories_quiet upper under missing))
      fun _ w₁ here => .get_bind (.throwIf_bind here fun _ => ?_)
    refine (ends_fsCall _ _).mpr ((ends_rename quietHost src _ w₁).mono ?_ ?_)
    · rintro _ w' ⟨p, d, n, u, -, -, -, -, rfl⟩
      exact List.mem_append_left _ here
    · rintro _ w' rfl
      exact here
  · intro permitted q found p taken
    obtain ⟨front, last, r⟩ := (down.below root).reads
      (fun none => filled (List.append_eq_nil_iff.mp none).2)
    have run : Keeps (GoneOrTouched p) (do
        clearDestination quietHost (below root path) overwrite
        promoteTo quietHost (below root []) src (below root path)) (.start t) :=
      (clearDestination_takes r permitted found taken).bind fun _ w₁ gone =>
        keeps_promoteTo (fun _ => id) (fun _ d n gone => gone.create d n)
          (fun _ _ _ _ _ gone done => gone.renamed done) quietHost _ upper gone
    exact GoneOrTouched.inside (Ends.final run) contains.1 taken.stands

end Quiet

end Bseal.Archive
