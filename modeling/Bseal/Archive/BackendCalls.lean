import Bseal.Archive.ReadPaths
import Bseal.Archive.SafeOutputTree
import Bseal.Archive.SymlinkContainment

/-! What the calls of `archive/SafeOutputTree` do, and what it means that a run of them stays below
the output root. -/
namespace Bseal.Archive
open Effect FileTree

section Directories
variable (host : Host)

theorem reverse_below_snoc (f : List FileName) (n : FileName) :
    (below (f ++ [n]) []).reverse = n.1 :: (below f []).reverse := by
  rw [← below_snoc, List.reverse_append]
  rfl

theorem ends_call {α : Type} {act : Effect String FileSystem α} {w : FileSystem}
    {post : α → FileSystem → Prop} {fail : String → FileSystem → Prop}
    (faulted : ∀ message, host.faults w.attempts = some message → fail message w.tick)
    (rest : Ends act w.tick post fail) : Ends (FileSystem.call host act) w post fail := by
  unfold FileSystem.call
  rw [ends_get_bind, ends_set_bind]
  split
  · next message same => exact faulted message same
  · exact rest

theorem ends_call_quiet {α : Type} {act : Effect String FileSystem α} {w : FileSystem}
    {post : α → FileSystem → Prop} {fail : String → FileSystem → Prop}
    (rest : Ends act w.tick post fail) : Ends (FileSystem.call quietHost act) w post fail :=
  ends_call quietHost (fun _ faulted => by cases faulted) rest

theorem ends_mkdir (path : OutPath) (w : FileSystem) :
    Ends (FileSystem.mkdir host path) w
      (fun created w' =>
        (created = true ∧ ∃ d n, lookup w.tree false path = .missing d n ∧
          w' = w.tick.create d n (.dir .fresh)) ∨
        (created = false ∧ w' = w.tick ∧ ∃ p, lookup w.tree false path = .found p))
      (fun _ w' => w' = w.tick) := by
  refine ends_call host (fun _ _ => rfl) ?_
  rw [ends_get_bind]
  have same : w.tick.tree = w.tree := rfl
  rw [same]
  rcases lookup w.tree false path with p | ⟨d, n⟩ | _ | _
  · exact .inr ⟨rfl, rfl, p, rfl⟩
  · exact .inl ⟨rfl, d, n, rfl, rfl⟩
  · rfl
  · rfl

theorem ends_status_quiet (path : OutPath) (w : FileSystem) :
    Ends (FileSystem.status quietHost path) w
      (fun st w' => w' = w.tick ∧ st = statusOf w.tree path) fun _ _ => False := ⟨rfl, rfl⟩

theorem ends_mkdir_quiet {path : OutPath} {w : FileSystem} {d : List FileName} {n : FileName}
    (missing : lookup w.tree false path = .missing d n) :
    Ends (FileSystem.mkdir quietHost path) w
      (fun created w' => created = true ∧ w' = w.tick.create d n (.dir .fresh))
      fun _ _ => False := by
  refine ends_call_quiet ?_
  rw [ends_get_bind, show w.tick.tree = w.tree from rfl, missing]
  exact ⟨rfl, rfl⟩

theorem mkdir_congr {path path' : OutPath}
    (same : ∀ t : DiskTree, lookup t false path = lookup t false path') :
    FileSystem.mkdir host path = FileSystem.mkdir host path' := by
  unfold FileSystem.mkdir
  simp only [same]

variable {I : FileSystem → Prop} (ticked : ∀ w, I w → I w.tick)
include ticked

theorem keeps_status (path : OutPath) {w : FileSystem} (here : I w) :
    Keeps I (FileSystem.status host path) w :=
  (ends_status host path w).mono (fun _ _ done => done.1 ▸ ticked w here) fun _ _ => False.elim

theorem keeps_createDirectory {path : OutPath}
    (made : ∀ w, I w → Keeps I (FileSystem.mkdir host path) w) {w : FileSystem} (here : I w) :
    Keeps I (FileSystem.createDirectory host path) w := by
  refine (made w here).bind fun created w' here' => ?_
  split
  · exact .of_pure _ here'
  · exact (keeps_status host ticked path here').bind fun st w'' here'' => .of_throwIf here''

theorem keeps_mkdir {path : OutPath} (down : Downward path)
    (made : ∀ f w, f <+: readNames path → I w → Keeps I (FileSystem.mkdir host (below f [])) w)
    {w : FileSystem} (here : I w) : Keeps I (FileSystem.mkdir host path) w := by
  have idle : (∀ d n, lookup w.tree false path ≠ .missing d n) →
      Keeps I (FileSystem.mkdir host path) w := by
    intro never
    refine (ends_mkdir host path w).mono ?_ ?_
    · rintro _ w' (⟨-, d, n, missing, -⟩ | ⟨-, rfl, -⟩)
      · exact absurd missing (never d n)
      · exact ticked w here
    · rintro _ w' rfl
      exact ticked w here
  by_cases filled : path = []
  · subst filled
    refine idle fun d n missing => ?_
    rw [show lookup w.tree false [] = .found [] from rfl] at missing
    cases missing
  obtain ⟨front, last, r⟩ := down.reads filled
  by_cases named : ∃ n, toStep last = .name n
  · obtain ⟨n, step⟩ := named
    rw [mkdir_congr host fun t => r.lookup_name step false]
    exact made _ w (List.prefix_refl _) here
  · exact idle (r.missing (not_exists.mp named) false)

theorem keeps_createMissing {path : OutPath} (down : Downward path)
    (made : ∀ f w, f <+: readNames path → I w → Keeps I (FileSystem.mkdir host (below f [])) w)
    {w : FileSystem} (here : I w) :
    Keeps I (FileSystem.createMissing host path.reverse) w := by
  induction path using List.reverseRecOn generalizing w with
  | nil => exact .of_pure _ here
  | append_singleton front c ih =>
    have under := List.prefix_append front [c]
    rw [List.reverse_append, List.reverse_singleton, List.singleton_append,
      FileSystem.createMissing, List.reverse_reverse]
    refine Ends.bind_returns (ends_status host front w) fun st w' done => ?_
    have here' : I w' := done.1 ▸ ticked w here
    have make : ∀ u, I u → Keeps I
        (if c = dot ∨ c = dotDot then pure ()
          else FileSystem.createDirectory host (c :: front.reverse).reverse) u := by
      intro u hu
      rw [List.reverse_cons, List.reverse_reverse]
      split
      · exact .of_pure _ hu
      · exact keeps_createDirectory host ticked
          (fun w hw => keeps_mkdir host ticked down made hw) hu
    cases st with
    | other => exact Keeps.of_throw _ here'
    | notFound =>
      exact Keeps.bind (ih (down.of_prefix under)
        (fun g w upper => made g w (upper.trans (readNames_mono under))) here') fun _ => make
    | directory => exact make w' here'
    | unknown => exact make w' here'

theorem keeps_createDirectories {path : OutPath} (down : Downward path)
    (made : ∀ f w, f <+: readNames path → I w → Keeps I (FileSystem.mkdir host (below f [])) w)
    {w : FileSystem} (here : I w) : Keeps I (FileSystem.createDirectories host path) w := by
  unfold FileSystem.createDirectories
  refine Ends.bind_returns (ends_status host path w) fun st w' done => ?_
  have here' : I w' := done.1 ▸ ticked w here
  cases st with
  | directory => exact Keeps.of_pure _ here'
  | other => exact Keeps.of_throw _ here'
  | unknown => exact Keeps.of_throw _ here'
  | notFound =>
    change Keeps I (FileSystem.createBehindDots host (if path.getLast? = some [] then
      path.dropLast else path).reverse) w'
    rw [if_neg down.getLast]
    refine keeps_createBehindDots host ticked (fun rest u under hu => ?_) here'
    have front : rest.reverse <+: path := by
      rwa [← List.reverse_suffix, List.reverse_reverse]
    rw [← List.reverse_reverse rest]
    exact keeps_createMissing host ticked (down.of_prefix front)
      (fun g w upper => made g w (upper.trans (readNames_mono front))) hu

end Directories

section Free
variable {t : DiskTree} {root p : List FileName}

/-- Where a front of the path is free, it is free below the root. -/
def FreeInside (t : DiskTree) (root p : List FileName) : Prop :=
  ∀ f d n, f <+: p → lookup t false (below f []) = .missing d n → root <+: d

theorem found_stands {path : OutPath} {follow : Bool} {q : List FileName}
    (found : lookup t follow path = .found q) : t.node q ≠ none := by
  have sound := (resolve_leads readTarget t follow kMaxSymlinks [] (osSteps path)).sound t.root
  rw [show resolve readTarget t follow kMaxSymlinks [] (osSteps path) =
    .found q from found] at sound
  exact sound

/-- What a new directory on the way of a path changes for its fronts: none that led somewhere, and
one that now leads to it. -/
theorem found_put {f g d d' : List FileName} {n : FileName} (under : f <+: p) (under' : g <+: p)
    (missing : lookup t false (below f []) = .missing d n) (a : Attributes)
    (found : lookup (t.put d n (.dir a)) true (below g []) = .found d') :
    lookup t true (below g []) = .found d' ∨ d' = d ++ [n] := by
  obtain ⟨g₀, rfl, parent, dir, absent⟩ := missing_snoc missing
  have sub := t.sub_put d n (.dir a)
  have made : (t.put d n (.dir a)).IsDir (d ++ [n]) := by
    refine ⟨a, ?_⟩
    rw [t.put_node _ dir absent, Function.update_self]
  have again : ∀ {g' x}, lookup t true (below g' []) = .found x →
      lookup (t.put d n (.dir a)) true (below g' []) = .found x := by
    intro g' x here
    rw [lookup_names] at here ⊢
    exact resolve_of_sub sub _ _ _ here
  rcases Nat.lt_or_ge g₀.length g.length with deeper | upper
  · have whole : g₀ ++ [n] <+: g := by
      refine List.prefix_of_prefix_length_le under under' ?_
      rw [List.length_append]
      exact deeper
    obtain ⟨more, rfl⟩ := whole
    cases more with
    | nil =>
      rw [List.append_nil, lookup_snoc_dir (again parent) made] at found
      exact .inr (Outcome.found.inj found).symm
    | cons m more =>
      refine absurd found (lookup_below_empty (lookup_snoc_dir (again parent) made true) ?_ d')
      rw [t.put_node_of_ne _ (by simp)]
      exact t.none_of_prefix (List.prefix_append _ [m]) absent
  · have above : g <+: g₀ := List.prefix_of_prefix_length_le under'
      ((List.prefix_append g₀ [n]).trans under) upper
    obtain ⟨x, here⟩ := lookup_prefix above parent
    rw [again here] at found
    exact .inl (here.trans found)

theorem FreeInside.put (free : FreeInside t root p) {f d : List FileName} {n : FileName}
    (under : f <+: p) (missing : lookup t false (below f []) = .missing d n) (a : Attributes) :
    FreeInside (t.put d n (.dir a)) root p := by
  have inside := free _ _ _ under missing
  intro f' d' n' under' missing'
  obtain ⟨g', rfl, there, dir', absent'⟩ := missing_snoc missing'
  have front := (List.prefix_append g' [n']).trans under'
  rcases found_put (n := n) under front missing a there with old | rfl
  · have sub := t.sub_put d n (.dir a)
    have absent : t.node (d' ++ [n']) = none := by
      by_contra stands
      obtain ⟨x, here⟩ := Option.ne_none_iff_exists'.mp stands
      rw [sub _ x here] at absent'
      cases absent'
    have dir : t.IsDir d' := by
      by_cases new : d' = d ++ [n]
      · obtain ⟨g, rfl, -, -, gone⟩ := missing_snoc missing
        exact absurd (new ▸ gone) (found_stands old)
      · obtain ⟨b, there⟩ := dir'
        exact ⟨b, (t.put_node_of_ne _ new).symm.trans there⟩
    refine free _ d' n' under' ?_
    rw [lookup_snoc old dir, if_pos absent]
  · exact inside.trans (List.prefix_append d [n])

theorem FreeInside.of_sub {u : DiskTree} (free : FreeInside t root p) (sub : u.Sub t)
    (inside : ∀ q, t.node q ≠ none → u.node q = none → root <+: q ∧ q ≠ root) :
    FreeInside u root p := by
  intro f d n under missing
  obtain ⟨g, rfl, there, dir, absent⟩ := missing_snoc missing
  have there' : lookup t true (below g []) = .found d := by
    rw [lookup_names] at there ⊢
    exact resolve_of_sub sub _ _ _ there
  by_cases none : t.node (d ++ [n]) = none
  · refine free _ d n under ?_
    rw [lookup_snoc there' (sub.isDir dir), if_pos none]
  · obtain ⟨upper, other⟩ := inside _ none absent
    exact (List.prefix_concat_iff.mp upper).resolve_left fun same => other same.symm

/-- A front of the path that leads somewhere did so before, or leads below the root. -/
def LeadsAlong (u : DiskTree) (root p : List FileName) (t : DiskTree) : Prop :=
  ∀ g d, g <+: p → lookup t true (below g []) = .found d →
    lookup u true (below g []) = .found d ∨ root <+: d

theorem LeadsAlong.put {u : DiskTree} (along : LeadsAlong u root p t) (free : FreeInside t root p)
    {f d : List FileName} {n : FileName} (under : f <+: p)
    (missing : lookup t false (below f []) = .missing d n) (a : Attributes) :
    LeadsAlong u root p (t.put d n (.dir a)) := by
  intro g d' under' found
  rcases found_put under under' missing a found with old | rfl
  · exact along g d' under' old
  · exact .inr ((free _ _ _ under missing).trans (List.prefix_append d [n]))

end Free

theorem renamed_ok {t u : DiskTree} {p d : List FileName} {n : FileName}
    (done : renamed t p d n = .ok u) : u = t ∨ u = t.move p d n := by
  unfold renamed at done
  split at done
  · cases done
  split at done
  · exact .inl (Except.ok.inj done).symm
  split at done
  · cases done
  split at done
  · cases done
  split at done
  · exact .inr (Except.ok.inj done).symm
  split at done
  · exact .inr (Except.ok.inj done).symm
  · cases done

theorem renamed_free {t : DiskTree} {p d : List FileName} {n : FileName} (there : t.node p ≠ none)
    (away : ¬p <+: d) (absent : t.node (d ++ [n]) = none) :
    renamed t p d n = .ok (t.move p d n) := by
  have apart : ¬d ++ [n] <+: p := fun under => there (t.none_of_prefix under absent)
  have other : p ≠ d ++ [n] := by
    rintro rfl
    exact apart (List.prefix_refl _)
  obtain ⟨x, here⟩ := Option.ne_none_iff_exists'.mp there
  rw [renamed, here]
  simp only
  rw [if_neg other, if_neg away, if_neg apart, absent]

section Inside
variable (root src : List FileName) (base : DiskTree)

/-- Only objects below the root were touched, the root is there, and nothing has changed
outside. -/
structure StaysInside (w : FileSystem) : Prop where
  same : Tree.SameOutside root base w.tree
  touched : ∀ q ∈ w.touched, root <+: q ∧ q ≠ root
  there : w.tree.IsDir root

structure OnlyInside (w : FileSystem) : Prop extends StaysInside root base w where
  source : ∀ f, f <+: src → f ≠ src → ∀ target, w.tree.node f ≠ some (.link target)

variable {root src base} {w : FileSystem}

theorem OnlyInside.tick (o : OnlyInside root src base w) : OnlyInside root src base w.tick :=
  ⟨⟨o.same, o.touched, o.there⟩, o.source⟩

theorem child_inside {d : List FileName} (inside : root <+: d) (n : FileName) :
    root <+: d ++ [n] ∧ d ++ [n] ≠ root := by
  refine ⟨inside.trans (List.prefix_append d [n]), ?_⟩
  rintro rfl
  simpa using inside.length_le

theorem touched_inside {places : List (List FileName)}
    (touched : ∀ q ∈ w.touched, root <+: q ∧ q ≠ root)
    (inside : ∀ q ∈ places, root <+: q ∧ q ≠ root) :
    ∀ q ∈ w.touched ++ places, root <+: q ∧ q ≠ root := by
  intro q member
  rcases List.mem_append.mp member with member | member
  · exact touched q member
  · exact inside q member

theorem OnlyInside.create (o : OnlyInside root src base w) {d : List FileName}
    (inside : root <+: d) (n : FileName) (a : Attributes) :
    OnlyInside root src base (w.create d n (.dir a)) where
  same := o.same.trans (w.tree.sameOutside_put n _ inside)
  touched := touched_inside o.touched fun q member =>
    List.mem_singleton.mp member ▸ child_inside inside n
  there := o.there.put d n (.dir a)
  source := by
    intro f under strict target link
    by_cases fresh : w.tree.IsDir d ∧ w.tree.node (d ++ [n]) = none
    · change (w.tree.put d n (.dir a)).node f = _ at link
      rw [w.tree.put_node _ fresh.1 fresh.2] at link
      by_cases new : f = d ++ [n]
      · rw [new, Function.update_self] at link
        cases link
      · rw [Function.update_of_ne new] at link
        exact o.source f under strict target link
    · change (w.tree.put d n (.dir a)).node f = _ at link
      rw [Tree.put, dif_neg fresh] at link
      exact o.source f under strict target link

/-- Objects below the root go. -/
theorem OnlyInside.cut (o : OnlyInside root src base w) {u : DiskTree} (sub : u.Sub w.tree)
    (inside : ∀ p, w.tree.node p ≠ none → u.node p = none → root <+: p ∧ p ≠ root)
    {places : List (List FileName)} (touched : ∀ p ∈ places, root <+: p ∧ p ≠ root) :
    OnlyInside root src base (w.setTree u places) where
  same p out := by
    rw [o.same p out]
    change w.tree.node p = u.node p
    rcases here : u.node p with _ | x
    · by_contra stands
      exact out (inside p stands here).1
    · exact sub p x here
  touched := touched_inside o.touched touched
  there := by
    change u.IsDir root
    rcases here : u.node root with _ | x
    · exact absurd rfl (inside root o.there.ne_none here).2
    · obtain ⟨a, dir⟩ := o.there
      exact ⟨a, here.trans ((sub root x here).symm.trans dir)⟩
  source f under strict target link := o.source f under strict target (sub f _ link)

theorem OnlyInside.erase (o : OnlyInside root src base w) {p : List FileName}
    (inside : root <+: p ∧ p ≠ root) :
    OnlyInside root src base (w.setTree (w.tree.erase p) [p]) := by
  refine o.cut (w.tree.sub_erase p) (fun q stands gone => ?_)
    fun q member => List.mem_singleton.mp member ▸ inside
  have under := w.tree.erase_gone stands gone
  refine ⟨inside.1.trans under, ?_⟩
  rintro rfl
  exact inside.2 (under.eq_of_length_le inside.1.length_le)

theorem OnlyInside.createDirectories (host : Host) {path : OutPath} (down : Downward path)
    (o : OnlyInside root src base w) (free : FreeInside w.tree root (readNames path)) :
    Keeps (fun w' => OnlyInside root src base w' ∧ w.tree.Sub w'.tree ∧
      LeadsAlong w.tree root (readNames path) w'.tree)
      (FileSystem.createDirectories host path) w := by
  have kept := keeps_createDirectories (w := w) (I := fun w' => OnlyInside root src base w' ∧
    FreeInside w'.tree root (readNames path) ∧ w.tree.Sub w'.tree ∧
      LeadsAlong w.tree root (readNames path) w'.tree)
    host (fun _ o => ⟨o.1.tick, o.2⟩) down ?_ ⟨o, free, fun _ _ => id, fun _ _ _ => .inl⟩
  · exact kept.mono fun _ o => ⟨o.1, o.2.2⟩
  rintro f w₁ under ⟨o, free, sub, along⟩
  refine (ends_mkdir host _ w₁).mono ?_ ?_
  · rintro created w' (⟨-, d, n, missing, rfl⟩ | ⟨-, rfl, -⟩)
    · exact ⟨o.tick.create (free _ _ _ under missing) n _, free.put under missing _,
        sub.trans (w₁.tree.sub_put d n _), along.put free under missing _⟩
    · exact ⟨o.tick, free, sub, along⟩
  · rintro message w' rfl
    exact ⟨o.tick, free, sub, along⟩

theorem OnlyInside.lookup_source (o : OnlyInside root src base w) {p : List FileName}
    (found : lookup w.tree false (below src []) = .found p) : p = src :=
  lookup_physical o.source found

theorem OnlyInside.renamed (o : OnlyInside root src base w) (inner : root <+: src ∧ src ≠ root)
    {d : List FileName} {n : FileName} (inside : root <+: d) {t : DiskTree}
    (done : Archive.renamed w.tree src d n = .ok t) :
    StaysInside root base (w.setTree t [src, d ++ [n]]) where
  same := by
    rcases renamed_ok done with rfl | rfl
    · exact o.same
    · intro q out
      change base.node q = (w.tree.move src d n).node q
      rw [o.same q out, w.tree.move_node_of_apart n (fun under => out (inner.1.trans under))
        fun under => out ((child_inside inside n).1.trans under)]
  touched := touched_inside o.touched fun q member => by
    rcases List.mem_cons.mp member with rfl | member
    · exact inner
    · exact List.mem_singleton.mp member ▸ child_inside inside n
  there := by
    rcases renamed_ok done with rfl | rfl
    · exact o.there
    · obtain ⟨a, here⟩ := o.there
      refine ⟨a, (w.tree.move_node_of_apart n (fun under => ?_) fun under => ?_).trans here⟩
      · exact inner.2 (under.eq_of_length_le inner.1.length_le)
      · have child := child_inside inside n
        exact child.2 (under.eq_of_length_le child.1.length_le)

end Inside

section Calls
variable (host : Host) {root src dir : List FileName} {t base : DiskTree} {w : FileSystem}

theorem ends_fsCall {α : Type} (context : String) (op : Effect String FileSystem α)
    {post : α → FileSystem → Prop} {fail : Failure → FileSystem → Prop} :
    Ends (fsCall context op) w post fail ↔
      Ends op w post (fun m w' => fail (invalid (context ++ m)) w') :=
  ends_zoom _ _ _ _ _

theorem entryAt_name (cur : List FileName) (n : FileName) : entryAt cur n.1 = cur ++ [n] := by
  rw [entryAt, toStep_fileName]

theorem statAt_name (t : DiskTree) (cur : List FileName) (n : FileName) :
    statAt t cur n.1 = t.node (cur ++ [n]) := by
  rw [statAt, cutNul_fileName, if_neg n.2.1, entryAt_name]

theorem ends_probe (w : FileSystem) :
    Ends (FileSystem.probe host) w (fun _ w' => w' = w.tick)
      (fun message w' => w' = w.tick ∧ host.faults w.attempts = some message) :=
  ends_call host (fun _ same => ⟨rfl, same⟩) rfl

theorem ends_unlinkAt (cur : List FileName) (c : Bytes) (w : FileSystem) :
    Ends (FileSystem.unlinkAt host cur c) w
      (fun _ w' => w' = w.tick.setTree (w.tree.erase (entryAt cur c)) [entryAt cur c])
      (fun _ w' => w' = w.tick) := by
  refine ends_call host (fun _ _ => rfl) ?_
  rw [ends_get_bind]
  rcases statAt w.tick.tree cur c with _ | x
  · rfl
  · rw [ends_throwIf_bind]
    split <;> rfl

theorem ends_renameAt (src cur : List FileName) (c : Bytes) (w : FileSystem) :
    Ends (FileSystem.renameAt host src cur c) w
      (fun _ w' => ∃ n p t, toStep c = .name n ∧ lookup w.tree false (below src []) = .found p ∧
        renamed w.tree p cur n = .ok t ∧ w' = w.tick.setTree t [p, cur ++ [n]])
      (fun _ w' => w' = w.tick) := by
  refine ends_call host (fun _ _ => rfl) ?_
  rw [ends_get_bind, show w.tick.tree = w.tree from rfl]
  rcases lookup w.tree false (below src []) with p | _ | _ | _
  · rcases toStep c with _ | _ | n
    · rfl
    · rfl
    · refine (ends_lift_bind _ _ _).mpr ?_
      exact ⟨fun t done => ⟨n, p, t, rfl, rfl, done, rfl⟩, fun _ _ => rfl⟩
  all_goals rfl

theorem ends_rename (src : List FileName) (dest : OutPath) (w : FileSystem) :
    Ends (FileSystem.rename host src dest) w
      (fun _ w' => ∃ p d n t, lookup w.tree false (below src []) = .found p ∧
        (lookup w.tree false dest.bare).place = some (d ++ [n]) ∧
        (dest.named = false → lookup w.tree false dest.bare = .missing d n) ∧
        renamed w.tree p d n = .ok t ∧ w' = w.tick.setTree t [p, d ++ [n]])
      (fun _ w' => w' = w.tick) := by
  refine ends_call host (fun _ _ => rfl) ?_
  rw [ends_get_bind]
  have same : w.tick.tree = w.tree := rfl
  rw [same]
  rcases lookup w.tree false (below src []) with p | _ | _ | _
  · simp only
    rw [ends_throwIf_bind]
    split
    · rfl
    rcases lookup w.tree false dest.bare with q | ⟨d, n⟩ | _ | _
    · rcases q.eq_nil_or_concat with rfl | ⟨d, n, rfl⟩
      · rfl
      · rw [List.concat_eq_append]
        simp only [List.getLast?_concat, List.dropLast_concat]
        rw [ends_throwIf_bind]
        split
        · rfl
        · next named =>
          rw [ends_lift_bind]
          exact ⟨fun t done => ⟨p, d, n, t, rfl, rfl, fun same => absurd same named, done, rfl⟩,
            fun _ _ => rfl⟩
    · simp only
      rw [ends_lift_bind]
      exact ⟨fun t done => ⟨p, d, n, t, rfl, rfl, fun _ => rfl, done, rfl⟩, fun _ _ => rfl⟩
    · rfl
    · rfl
  all_goals rfl

theorem filename_names (dir : List FileName) (n : FileName) :
    (below (dir ++ [n]) []).filename = n.1 := by
  rw [OutPath.filename, ← below_snoc, List.getLast?_concat]
  rfl

theorem parent_names (dir : List FileName) (n : FileName) :
    (below (dir ++ [n]) []).parent = below dir [] := by
  rw [OutPath.parent, ← below_snoc, List.dropLast_concat]

end Calls

section Contains
variable {root src : List FileName} {t : DiskTree} {w : FileSystem}

def outputTree (root : List FileName) (hardened : Bool) : SafeOutputTree :=
  ⟨below root [], if hardened then some root else none⟩

theorem below_append (p q : List FileName) : below p [] ++ below q [] = below (p ++ q) [] := by
  simp [below]

/-- Where components lead by their names, each read up to its NUL. -/
def position (root : List FileName) (path : OutPath) : List FileName :=
  lexical root (path.map toStep)

theorem position_append (root : List FileName) (front rest : OutPath) :
    position root (front ++ rest) = position (position root front) rest := by
  rw [position, List.map_append, lexical_append]
  rfl

theorem position_snoc (root : List FileName) (front : OutPath) (c : Bytes) :
    position root (front ++ [c]) = entryAt (position root front) c := by
  rw [position_append, position, List.map_singleton, entryAt]
  cases toStep c <;> rfl

def leadsTo (t : DiskTree) (root : List FileName) (path : OutPath) : Outcome FileName :=
  resolve readTarget t true kMaxSymlinks root (path.map toStep)

/-- A path that is outside the root, with what is not there taken by its names. -/
def LeadsOutside (t : DiskTree) (root : List FileName) (dir : OutPath) : Prop :=
  ∃ f rest q, dir = f ++ rest ∧ leadsTo t root f = .found q ∧
    (∀ c, rest.head? = some c → (leadsTo t root (f ++ [c])).Dangles) ∧ ¬root <+: position q rest

/-- A call on a destination with this parent: nothing outside is touched, and a parent outside
is refused. -/
def Contains (root : List FileName) (t : DiskTree) (dir : OutPath)
    (result : Except Failure Unit × FileSystem) : Prop :=
  StaysInside root t result.2 ∧ (LeadsOutside t root dir → ∃ e, result.1 = .error e)

theorem contains_of_ends {dir : OutPath} {x : Effect Failure FileSystem Unit}
    (ends : Ends x w (fun _ w' => StaysInside root t w' ∧ ¬LeadsOutside t root dir)
      (fun _ w' => StaysInside root t w')) : Contains root t dir (exec x w) := by
  unfold Ends at ends
  rcases ran : exec x w with ⟨e | u, w'⟩
  · rw [ran] at ends
    exact ⟨ends, fun _ => ⟨e, rfl⟩⟩
  · rw [ran] at ends
    exact ⟨ends.1, fun out => absurd out ends.2⟩

theorem not_inside {d : List FileName} {n : FileName} (outside : ¬root <+: d)
    (inside : root <+: d ++ [n] ∧ d ++ [n] ≠ root) : False :=
  outside ((List.prefix_concat_iff.mp inside.1).resolve_left fun same => inside.2 same.symm)

theorem staysInside_start (there : t.IsDir root) : StaysInside root t (.start t) where
  same := Tree.SameOutside.refl t root
  touched := fun _ member => absurd member List.not_mem_nil
  there := there

theorem onlyInside_start (there : t.IsDir root)
    (physical : ∀ f, f <+: src → f ≠ src → t.IsDir f) : OnlyInside root src t (.start t) where
  toStaysInside := staysInside_start there
  source := by
    intro f under strict target link
    obtain ⟨a, here⟩ := physical f under strict
    change t.node f = _ at link
    rw [here] at link
    cases link

end Contains
end Bseal.Archive
