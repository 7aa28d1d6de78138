import Bseal.Archive.CommitPreserves

/-! A link that leads to something when its turn comes is promoted under another name, or makes
the commit throw. So the commit preserves the tree just when no link does. -/
namespace Bseal.Archive
open Effect FileTree Platform

section Hardened
variable {root : List FileName} {w : FileSystem}

def OnlyDirectories (cur names : List FileName) (t u : DiskTree) : Prop :=
  ∀ p, u.node p = t.node p ∨ u.IsDir p ∧ ∃ f, f ≠ [] ∧ f <+: names ∧ p = cur ++ f

theorem openComponent_makes (cur : List FileName) (n : FileName) (w : FileSystem) :
    Ends (openComponent quietHost cur n.1) w
      (fun fd w' => fd = cur ++ [n] ∧ OnlyDirectories cur [n] w.tree w'.tree)
      fun _ _ => True := by
  unfold openComponent
  refine Ends.bind_returns (mkdirAt_quiet _ cur n w) fun _ w₁ made => ?_
  refine Ends.bind_returns (probe_quiet _ w₁) fun _ w₂ probed => ?_
  subst probed
  rw [ends_get_bind, statAt_name]
  change Ends (match w₁.tree.node (cur ++ [n]) with
    | none => _ | some (.link _) => _ | some (.file _ _) => _ | some (.dir _) => _) _ _ _
  rcases here : w₁.tree.node (cur ++ [n]) with _ | a | ⟨a, content⟩ | target
  · trivial
  · refine Ends.bind_returns (probe_quiet _ w₁.tick) fun _ w₃ probed => ?_
    subst probed
    refine ⟨entryAt_name cur n, fun p => ?_⟩
    change w₁.tree.node p = _ ∨ w₁.tree.IsDir p ∧ _
    by_cases new : p = cur ++ [n]
    · subst new
      exact .inr ⟨⟨a, here⟩, [n], List.cons_ne_nil n [], List.prefix_refl _, rfl⟩
    · left
      rw [made, withDirectory_node new]
  · trivial
  · trivial

theorem openComponents_makes (cur names : List FileName) (w : FileSystem) :
    Ends (openComponents quietHost cur (below names [])) w
      (fun fd w' => fd = cur ++ names ∧ OnlyDirectories cur names w.tree w'.tree)
      fun _ _ => True := by
  induction names generalizing cur w with
  | nil => exact ⟨(List.append_nil cur).symm, fun _ => .inl rfl⟩
  | cons n names ih =>
    rw [openComponents_cons]
    refine Ends.bind (openComponent_makes cur n w) fun fd w₁ opened => ?_
    obtain ⟨rfl, first⟩ := opened
    refine (ih (cur ++ [n]) w₁).mono ?_ fun _ _ => id
    rintro fd w₂ ⟨rfl, rest⟩
    refine ⟨List.append_assoc _ _ _, fun p => ?_⟩
    rcases rest p with same | ⟨dir, f, -, under, rfl⟩
    · rcases first p with same' | ⟨dir, f, filled, under, rfl⟩
      · exact .inl (same.trans same')
      · refine .inr ⟨?_, f, filled, under.trans ⟨names, rfl⟩, rfl⟩
        obtain ⟨a, here⟩ := dir
        exact ⟨a, same.trans here⟩
    · refine .inr ⟨dir, n :: f, List.cons_ne_nil n f, ?_, List.append_assoc cur [n] f⟩
      exact List.cons_prefix_cons.mpr ⟨rfl, under⟩

theorem openDirHardened_makes (root names : List FileName) (w : FileSystem) :
    Ends (openDirHardened quietHost root (below names [])) w
      (fun fd w' => fd = root ++ names ∧ OnlyDirectories root names w.tree w'.tree)
      fun _ _ => True := by
  unfold openDirHardened
  refine Ends.bind_returns (probe_quiet _ w) fun _ w₁ probed => ?_
  subst probed
  exact openComponents_makes root names w.tick

/-- `relative` of what is not below the temporary root, or is the root itself. -/
def LeavesTemp (rel : OutPath) : Prop := rel = [dot] ∨ rel.head? = some dotDot

theorem statAt_special {t : DiskTree} {cur : List FileName} (dir : t.IsDir cur) {name : Bytes}
    (special : name = dot ∨ name = dotDot) : ∃ a, statAt t cur name = some (.dir a) := by
  rcases special with rfl | rfl
  · exact dir
  · exact dir.dropLast

theorem openDirHardened_up (root : List FileName) (rest : OutPath) (w : FileSystem)
    (post : List FileName → FileSystem → Prop) :
    Ends (openDirHardened quietHost root (dotDot :: rest)) w post fun _ _ => True := by
  unfold openDirHardened
  refine Ends.bind_returns (probe_quiet _ w) fun _ w₁ probed => ?_
  trivial

theorem renameInto_leaves {rel : OutPath} (leaves : LeavesTemp rel) (dir : w.tree.IsDir root)
    (src : List FileName) :
    Ends (renameInto quietHost (outputTree root true) src rel false) w (fun _ _ => False)
      fun _ _ => True := by
  have refused : ∀ name : Bytes, name = dot ∨ name = dotDot →
      Ends (renameInto quietHost (outputTree root true) src [name] false) w (fun _ _ => False)
        fun _ _ => True := by
    intro name special
    change Ends (renameIntoHardened quietHost (below root []) root src [name] false) _ _ _
    unfold renameIntoHardened
    have dir' : w.tree.IsDir (root ++ []) := by rwa [List.append_nil]
    refine Ends.bind_returns (openDirHardened_quiet dir') fun fd w₁ opened => ?_
    obtain ⟨rfl, same⟩ := opened
    rw [← same] at dir'
    obtain ⟨a, seen⟩ := statAt_special dir' special
    rw [ends_get_bind, show OutPath.filename [name] = name from rfl, seen]
    trivial
  rcases leaves with rfl | up
  · exact refused dot (.inl rfl)
  · obtain ⟨rest, rfl⟩ : ∃ rest, rel = dotDot :: rest := by
      cases rel with
      | nil => cases up
      | cons c rest => exact ⟨rest, by rw [Option.some.inj up]⟩
    cases rest with
    | nil => exact refused dotDot (.inr rfl)
    | cons c rest =>
      change Ends (renameIntoHardened quietHost (below root []) root src _ false) _ _ _
      unfold renameIntoHardened
      exact Ends.bind (openDirHardened_up root _ w fun _ _ => False) fun _ _ => False.elim

theorem ensureDirs_leaves {rel : OutPath} (leaves : LeavesTemp rel) :
    Ends (ensureDirs quietHost (outputTree root true) rel) w (fun _ w' => w'.tree = w.tree)
      fun _ _ => True := by
  unfold ensureDirs
  rcases leaves with rfl | up
  · rw [if_neg (List.cons_ne_nil dot [])]
    change Ends (openDirHardened quietHost root [dot] >>= fun _ => pure ()) _ _ _
    unfold openDirHardened
    rw [bind_assoc]
    refine Ends.bind_returns (probe_quiet _ w) fun _ w₁ probed => ?_
    subst probed
    rfl
  · obtain ⟨rest, rfl⟩ : ∃ rest, rel = dotDot :: rest := by
      cases rel with
      | nil => cases up
      | cons c rest => exact ⟨rest, by rw [Option.some.inj up]⟩
    rw [if_neg (List.cons_ne_nil _ _)]
    exact Ends.bind (openDirHardened_up root rest w fun _ _ => False) fun _ _ => False.elim

end Hardened

section Misses
variable (t : DiskTree) (root : List FileName) (name : FileName) (q : List FileName)

structure Misses (u : DiskTree) : Prop where
  staged : ∀ r, u.node (root ++ [name] ++ r) = t.node (root ++ [name] ++ r) ∨
    u.node (root ++ [name] ++ r) = none ∧ ¬t.IsDir (root ++ [name] ++ r)
  link : ∀ target, u.node (root ++ q) ≠ some (.link target)

variable {t root name q} {u v : DiskTree}

theorem Misses.dir (m : Misses t root name q u) {r : List FileName}
    (dir : t.IsDir (root ++ [name] ++ r)) : u.IsDir (root ++ [name] ++ r) := by
  obtain ⟨a, here⟩ := dir
  rcases m.staged r with same | ⟨-, leaf⟩
  · exact ⟨a, same.trans here⟩
  · exact absurd ⟨a, here⟩ leaf

theorem Misses.stands (m : Misses t root name q u) {r : List FileName}
    (stands : u.node (root ++ [name] ++ r) ≠ none) :
    u.node (root ++ [name] ++ r) = t.node (root ++ [name] ++ r) :=
  (m.staged r).resolve_right fun gone => stands gone.1

theorem Misses.directories (m : Misses t root name q u) {names : List FileName}
    (made : OnlyDirectories root names u v) (other : names.head? ≠ some name) :
    Misses t root name q v where
  staged r := by
    rcases made (root ++ [name] ++ r) with same | ⟨-, f, filled, under, place⟩
    · rw [same]
      exact m.staged r
    · obtain ⟨c, f, rfl⟩ := List.exists_cons_of_ne_nil filled
      have first := head_of_prefix filled ⟨[], by rw [List.append_nil, place]⟩
      obtain ⟨more, rfl⟩ := under
      exact absurd first other
  link target here := by
    rcases made (root ++ q) with same | ⟨⟨a, dir⟩, -⟩
    · exact m.link target (same ▸ here)
    · rw [dir] at here
      cases here

theorem Misses.renamed (m : Misses t root name q u) {g f : List FileName} {n : FileName}
    (leaf : ¬t.IsDir (root ++ [name] ++ g)) (other : (f ++ [n]).head? ≠ some name)
    (elsewhere : f ++ [n] ≠ q)
    (done : renamed u (root ++ [name] ++ g) (root ++ f) n = .ok v) : Misses t root name q v := by
  have nothing : ∀ r, r ≠ [] → t.node (root ++ [name] ++ (g ++ r)) = none := by
    intro r filled
    by_contra there
    refine leaf ( t.isDir_of_prefix ⟨r, by simp⟩ (fun same => filled ?_) there)
    simpa using same
  rcases renamed_ok done with rfl | rfl
  · exact m
  by_cases ok : u.IsDir (root ++ f) ∧ ¬root ++ [name] ++ g <+: root ++ f ∧
      ¬root ++ f ++ [n] <+: root ++ [name] ++ g
  · have moved := u.move_node ok.1 ok.2.1 ok.2.2
    constructor
    · intro r
      have off : ¬root ++ f ++ [n] <+: root ++ [name] ++ r := by
        rw [List.append_assoc root f]
        exact fun under => other ( head_of_prefix (by simp) under)
      rw [moved, if_neg off]
      by_cases under : root ++ [name] ++ g <+: root ++ [name] ++ r
      · rw [if_pos under]
        rw [List.prefix_append_right_inj] at under
        obtain ⟨rest, rfl⟩ := under
        by_cases filled : rest = []
        · subst filled
          rw [List.append_nil]
          exact .inr ⟨rfl, leaf⟩
        · exact .inl (nothing rest filled).symm
      · rw [if_neg under]
        exact m.staged r
    · intro target here
      rw [moved, List.append_assoc root f] at here
      split at here
      · next under =>
        rw [List.prefix_append_right_inj] at under
        obtain ⟨rest, rfl⟩ := under
        have tail : (root ++ (f ++ [n] ++ rest)).drop ((root ++ f).length + 1) = rest := by
          have whole : root ++ (f ++ [n] ++ rest) = root ++ f ++ [n] ++ rest := by simp
          have long : (root ++ f ++ [n]).length = (root ++ f).length + 1 := List.length_append
          rw [whole, ← long, List.drop_left]
        have filled : rest ≠ [] := by
          rintro rfl
          exact elsewhere (List.append_nil _).symm
        rw [tail, List.append_assoc (root ++ [name])] at here
        rcases m.staged (g ++ rest) with same | ⟨gone, -⟩
        · rw [same, nothing rest filled] at here
          cases here
        · rw [gone] at here
          cases here
      · split at here
        · cases here
        · exact m.link target here
  · rw [Tree.move, dif_neg ok]
    exact m

variable {hooks : DurabilityHooks} {options : ArchiveReaderOptions} {w : FileSystem}

/-- Where an entry of the temporary tree goes: to another place than that of `q`, if it is not
`q` itself or `q` leads to something. -/
theorem Misses.relative (m : Misses t root name q w.tree) (there : t.IsDir (root ++ [name]))
    (free : NoConflict t root name) {target : Bytes}
    (link : t.node (root ++ [name] ++ q) = some (.link target)) {f : List FileName} {n : FileName}
    (stands : t.node (root ++ [name] ++ (f ++ [n])) ≠ none)
    (turn : f ++ [n] = q → ¬(lookup w.tree true (below (root ++ [name] ++ q) [])).Dangles)
    {rel : OutPath} (found : relativeTo w.tree (below (root ++ [name] ++ (f ++ [n])) [])
      (below (root ++ [name]) []) = .ok rel) :
    (∃ g k, rel = below (g ++ [k]) [] ∧ g ++ [k] ≠ q ∧ (g ++ [k]).head? ≠ some name) ∨
      LeavesTemp rel := by
  have split : root ++ [name] ++ (f ++ [n]) = root ++ [name] ++ f ++ [n] := by
    rw [List.append_assoc (root ++ [name])]
  have parent : t.IsDir (root ++ [name] ++ f) := t.closed _ n (split ▸ stands)
  have top : w.tree.IsDir (root ++ [name]) := by
    rw [← List.append_nil (root ++ [name])] at there ⊢
    exact m.dir there
  have nowhere : (lookup w.tree true (below (root ++ [name] ++ f ++ [n]) [])).Dangles →
      (Except.ok (lexicallyRelative (below (root ++ [name] ++ f ++ [n]) [])
        (below (root ++ [name]) [])) : Except String OutPath) = .ok rel →
      ∃ g k, rel = below (g ++ [k]) [] ∧ g ++ [k] ≠ q ∧ (g ++ [k]).head? ≠ some name := by
    intro dangles same
    obtain rfl := Except.ok.inj same
    refine ⟨f, n, ?_, ?_, free.other _ (by simp) stands⟩
    · rw [← split, relative_names _ (by simp)]
    · rintro rfl
      exact turn rfl (split ▸ dangles)
  rw [split, relativeTo_entry (m.dir parent) n top] at found
  rcases led : lookup w.tree true (below (root ++ [name] ++ f ++ [n]) []) with p | _ | _ | _
  · rw [led] at found
    obtain rfl := Except.ok.inj found
    have leads := resolve_leads readTarget w.tree true kMaxSymlinks []
      (osSteps (below (root ++ [name] ++ f ++ [n]) []))
    have sound := leads.sound w.tree.root
    change Outcome.Sound w.tree (lookup w.tree true _) at sound
    rw [led] at sound
    by_cases under : root ++ [name] <+: p
    · obtain ⟨r, rfl⟩ := under
      rcases r.eq_nil_or_concat with rfl | ⟨g, k, rfl⟩
      · right
        rw [List.append_nil, lexicallyRelative_self]
        exact .inl rfl
      · left
        rw [List.concat_eq_append] at sound led ⊢
        have same := m.stands sound
        refine ⟨g, k, relative_names _ (by simp), ?_, ?_⟩
        · rintro rfl
          exact leads.not_link w.tree.root rfl led target (same.trans link)
        · exact free.other _ (by simp) (same ▸ sound)
    · right
      have away : ¬below (root ++ [name]) [] <+: below p [] := by
        rw [below, below, List.append_nil, List.append_nil]
        exact fun shown => under ((List.prefix_map_iff_of_injective Subtype.val_injective).mp shown)
      obtain ⟨k, rest, up, -⟩ := lexicallyRelative_outside away
      rw [up]
      exact .inr rfl
  · rw [led] at found nowhere
    exact .inl (nowhere trivial found)
  · rw [led] at found nowhere
    exact .inl (nowhere trivial found)
  · rw [led] at found
    cases found

theorem Misses.entry (m : Misses t root name q w.tree) (there : t.IsDir (root ++ [name]))
    (free : NoConflict t root name) (succeed : hooks.Succeed)
    (keep : options.overwriteExisting = false) {target : Bytes}
    (link : t.node (root ++ [name] ++ q) = some (.link target)) {f : List FileName} {n : FileName}
    (stands : t.node (root ++ [name] ++ (f ++ [n])) ≠ none)
    (turn : f ++ [n] = q → ¬(lookup w.tree true (below (root ++ [name] ++ q) [])).Dangles) :
    Ends (commitEntry quietHost hooks options (below (root ++ [name]) []) (outputTree root true)
      (root ++ [name] ++ (f ++ [n]))) w (fun _ w' => Misses t root name q w'.tree)
      fun _ _ => True := by
  have split : root ++ [name] ++ (f ++ [n]) = root ++ [name] ++ f ++ [n] := by
    rw [List.append_assoc (root ++ [name])]
  have parent : t.IsDir (root ++ [name] ++ f) := t.closed _ n (split ▸ stands)
  have top : w.tree.IsDir root := by
    rw [← List.append_nil (root ++ [name])] at there
    exact Tree.IsDir.prefix (m.dir there) ⟨[name], by simp⟩
  unfold commitEntry
  rw [ends_get_bind]
  rcases found : relativeTo w.tree (below (root ++ [name] ++ (f ++ [n])) [])
      (below (root ++ [name]) []) with message | rel
  · trivial
  simp only
  have goes := m.relative there free link stands turn found
  split
  · rcases goes with ⟨g, k, rfl, -, other⟩ | leaves
    · unfold ensureDirs
      rw [if_neg (by rw [← below_snoc]; simp)]
      change Ends (openDirHardened quietHost root (below (g ++ [k]) []) >>= fun _ => pure ()) _ _ _
      exact Ends.bind (openDirHardened_makes root (g ++ [k]) w) fun _ _ made =>
        m.directories made.2 other
    · refine (ensureDirs_leaves leaves).mono ?_ fun _ _ => id
      intro _ w' same
      rwa [same]
  · next plain =>
    have leaf : ¬t.IsDir (root ++ [name] ++ (f ++ [n])) := fun dir =>
      plain (isPlainDirectory_dir (m.dir dir))
    rw [keep]
    refine Ends.bind (?_ : Ends _ w (fun _ w' => Misses t root name q w'.tree) _) fun _ w₁ m₁ => ?_
    · rcases goes with ⟨g, k, rfl, elsewhere, other⟩ | leaves
      · change Ends (renameIntoHardened quietHost (below root []) root _ (below (g ++ [k]) [])
          false) _ _ _
        unfold renameIntoHardened
        rw [filename_names, parent_names]
        refine Ends.bind (openDirHardened_makes root g w) fun fd w₁ opened => ?_
        obtain ⟨rfl, made⟩ := opened
        have m₁ := m.directories made (by
          cases g with
          | nil => simp
          | cons c g => exact other)
        rw [ends_get_bind, statAt_name]
        rcases w₁.tree.node (root ++ g ++ [k]) with _ | x
        · refine (ends_fsCall _ _).mpr ((ends_renameAt quietHost _ _ k.1 w₁).mono ?_
            fun _ _ _ => trivial)
          rintro _ w' ⟨m, p, v, name, here, done, rfl⟩
          rw [toStep_fileName] at name
          cases name
          rw [split, lookup_snoc (lookup_dir (m₁.dir parent) true) (m₁.dir parent)] at here
          split at here
          · cases here
          · obtain rfl := Outcome.found.inj here
            rw [← split] at done
            exact m₁.renamed leaf other elsewhere done
        · trivial
      · exact (renameInto_leaves leaves top _).mono (fun _ _ => False.elim) fun _ _ => id
    · refine (flushWith_quiet (succeed _ (.inl rfl)) _ _ w₁).mono ?_ fun _ _ => False.elim
      rintro _ w' rfl
      exact m₁

theorem Misses.entries (m : Misses t root name q w.tree) (there : t.IsDir (root ++ [name]))
    (free : NoConflict t root name) (succeed : hooks.Succeed)
    (keep : options.overwriteExisting = false) {target : Bytes}
    (link : t.node (root ++ [name] ++ q) = some (.link target)) {paths : List (List FileName)}
    (entries : ∀ src ∈ paths, ∃ f n, src = root ++ [name] ++ (f ++ [n]) ∧ t.node src ≠ none ∧
      f ++ [n] ≠ q) :
    Ends (commitEntries quietHost hooks options (below (root ++ [name]) []) (outputTree root true)
      paths) w (fun _ w' => Misses t root name q w'.tree) fun _ _ => True := by
  induction paths generalizing w with
  | nil => exact m
  | cons src paths ih =>
    obtain ⟨f, n, rfl, stands, other⟩ := entries src List.mem_cons_self
    exact Ends.bind (m.entry there free succeed keep link stands fun same => absurd same other)
      fun _ w₁ m₁ => ih m₁ fun src member => entries src (List.mem_cons_of_mem _ member)

end Misses

section Turn
variable {t : DiskTree} {root : List FileName} {name : FileName} {hooks : DurabilityHooks}
  {options : ArchiveReaderOptions} {done : List (List FileName)} {w : FileSystem}

theorem Committed.misplaces (c : Committed t root name done w.tree)
    (there : t.IsDir (root ++ [name])) (free : NoConflict t root name) (succeed : hooks.Succeed)
    (keep : options.overwriteExisting = false) {f : List FileName} {n : FileName} {target : Bytes}
    {rest : List (List FileName)}
    (listing : Listing t (root ++ [name]) (done ++ (root ++ [name] ++ (f ++ [n])) :: rest))
    (link : t.node (root ++ [name] ++ (f ++ [n])) = some (.link target))
    (leads : ¬(lookup w.tree true (below (root ++ [name] ++ (f ++ [n])) [])).Dangles) :
    Ends (commitEntries quietHost hooks options (below (root ++ [name]) []) (outputTree root true)
      ((root ++ [name] ++ (f ++ [n])) :: rest)) w (fun _ w' => ¬Preserved t root name w'.tree)
      fun _ _ => True := by
  have stands : t.node (root ++ [name] ++ (f ++ [n])) ≠ none := by
    rw [link]
    exact Option.some_ne_none _
  have other := free.other _ (by simp) stands
  have fresh : root ++ [name] ++ (f ++ [n]) ∉ done := fun member =>
    (List.nodup_append.mp listing.nodup).2.2 _ member _ List.mem_cons_self rfl
  have start : Misses t root name (f ++ [n]) w.tree := by
    constructor
    · intro r
      rw [c.staged]
      split
      · next gone => exact .inr ⟨rfl, gone.2⟩
      · exact .inl rfl
    · intro target' here
      have placed := c.placed _ (by simp) other
      rw [if_neg fresh] at placed
      rcases free.free _ (by simp) stands with absent | ⟨⟨a, dir⟩, -⟩
      · rw [placed.trans absent] at here
        cases here
      · rw [link] at dir
        cases dir
  have late : ∀ src ∈ rest, ∃ g k, src = root ++ [name] ++ (g ++ [k]) ∧ t.node src ≠ none ∧
      g ++ [k] ≠ f ++ [n] := by
    intro src member
    obtain ⟨names, filled, rfl, there⟩ := (listing.entries src).mp (by simp [member])
    obtain ⟨g, k, rfl⟩ := (List.eq_nil_or_concat names).resolve_left filled
    rw [List.concat_eq_append] at member there ⊢
    refine ⟨g, k, rfl, there, fun same => ?_⟩
    have nodup := (List.nodup_append.mp listing.nodup).2.1
    exact (List.nodup_cons.mp nodup).1 (same ▸ member)
  refine Ends.bind (start.entry there free succeed keep link stands fun _ => leads)
    fun _ w₁ m₁ => ?_
  refine (m₁.entries there free succeed keep link late).mono ?_ fun _ _ => id
  intro _ w' m preserved
  have placed := preserved.placed _ (by simp) other
  rw [link] at placed
  exact m.link target placed

/-- Where the commit of an order preserves the tree, it comes to each entry with the ones before
it promoted, and to each link with that leading nowhere. -/
theorem Committed.turn (c : Committed t root name done w.tree) (there : t.IsDir (root ++ [name]))
    (free : NoConflict t root name) (succeed : hooks.Succeed)
    (keep : options.overwriteExisting = false) {f : List FileName} {n : FileName}
    {target : Bytes} {before rest : List (List FileName)}
    (listing : Listing t (root ++ [name])
      (done ++ (before ++ (root ++ [name] ++ (f ++ [n])) :: rest)))
    (link : t.node (root ++ [name] ++ (f ++ [n])) = some (.link target))
    (run : Ends (commitEntries quietHost hooks options (below (root ++ [name]) [])
      (outputTree root true) (before ++ (root ++ [name] ++ (f ++ [n])) :: rest)) w
      (fun _ w' => Preserved t root name w'.tree) fun _ _ => False) :
    ∃ u, Committed t root name (done ++ before) u ∧
      (lookup u true (below (root ++ [name] ++ (f ++ [n])) [])).Dangles := by
  induction before generalizing done w with
  | nil =>
    refine ⟨w.tree, by rwa [List.append_nil], ?_⟩
    by_contra leads
    obtain ⟨_, preserved, lost⟩ :=
      ((run.and (c.misplaces there free succeed keep listing link leads)).mono
        (fun _ _ => id) fun _ _ => And.left).returns
    exact lost preserved
  | cons src before ih =>
    obtain ⟨g, k, rfl, stands, fresh, above⟩ := Listing.split listing
    have dangle : ∀ target', t.node (root ++ [name] ++ (g ++ [k])) = some (.link target') →
        (lookup w.tree true (below (root ++ [name] ++ (g ++ [k])) [])).Dangles := by
      intro target' link'
      by_contra leads
      obtain ⟨_, preserved, lost⟩ :=
        ((run.and (c.misplaces there free succeed keep listing link' leads)).mono
          (fun _ _ => id) fun _ _ => And.left).returns
      exact lost preserved
    have first : Ends (commitEntry quietHost hooks options _ _ _) w _ _ :=
      c.entry there free succeed true stands fresh above dangle
    obtain ⟨_, c₁, later⟩ := ((first.and ((ends_bind _ _ w).mp run)).mono (fun _ _ => id)
      fun _ _ => And.left).returns
    have listing' : Listing t (root ++ [name]) (done ++ [root ++ [name] ++ (g ++ [k])] ++
        (before ++ (root ++ [name] ++ (f ++ [n])) :: rest)) := by
      rwa [List.append_assoc]
    obtain ⟨u, committed, dangles⟩ := ih c₁ listing' later
    exact ⟨u, by rwa [List.append_assoc] at committed, dangles⟩

theorem Committed.unique {u v : DiskTree} (c : Committed t root name done u)
    (c' : Committed t root name done v) : u = v := by
  refine Tree.ext_node fun p => ?_
  by_cases under : root <+: p
  · obtain ⟨q, rfl⟩ := under
    by_cases filled : q = []
    · rw [filled, List.append_nil, c.top, c'.top]
    by_cases head : q.head? = some name
    · obtain ⟨r, rfl⟩ : ∃ r, q = [name] ++ r := by
        cases q with
        | nil => cases head
        | cons m r => exact ⟨r, by rw [Option.some.inj head]; rfl⟩
      rw [← List.append_assoc, c.staged, c'.staged]
    · have placed := c.placed q filled head
      have placed' := c'.placed q filled head
      revert placed placed'
      generalize (if root ++ [name] ++ q ∈ done then t.node (root ++ [name] ++ q) else none) = x
      intro placed placed'
      rcases x with _ | a | ⟨a, content⟩ | target <;> exact placed.trans placed'.symm
  · exact (c.outside p under).symm.trans (c'.outside p under)

theorem Listing.first {temp src : List FileName} {paths : List (List FileName)}
    (listing : Listing t temp paths) (member : src ∈ paths) :
    ∃ done rest, Listing t temp (done ++ src :: rest) ∧ ∀ p ∈ done, p.length < src.length := by
  let upper := paths.filter fun p => p.length < src.length
  let lower := paths.filter fun p => !decide (p.length < src.length)
  have perm : (upper ++ lower).Perm paths := List.filter_append_perm _ paths
  have deep : src ∈ lower := List.mem_filter.mpr ⟨member, by simp⟩
  have whole : (upper ++ src :: lower.erase src).Perm paths :=
    ((List.perm_cons_erase deep).symm.append_left upper).trans perm
  have above : ∀ p ∈ upper, p.length < src.length := fun p here =>
    of_decide_eq_true (List.mem_filter.mp here).2
  have below : ∀ p ∈ lower, src.length ≤ p.length := fun p here => by
    simpa using (List.mem_filter.mp here).2
  refine ⟨upper, lower.erase src, ⟨whole.nodup_iff.mpr listing.nodup, fun p => ?_, ?_⟩, above⟩
  · rw [whole.mem_iff]
    exact listing.entries p
  · refine List.pairwise_append.mpr ⟨listing.sorted.filter _, List.pairwise_cons.mpr
      ⟨fun p here => below p (List.mem_of_mem_erase here), ?_⟩, fun p here r there => ?_⟩
    · exact (listing.sorted.filter _).sublist List.erase_sublist
    · have shallow := above p here
      rcases List.mem_cons.mp there with rfl | there
      · exact shallow.le
      · exact shallow.le.trans (below r (List.mem_of_mem_erase there))

theorem DurabilityHooks.succeed_none : (⟨none, none⟩ : DurabilityHooks).Succeed := by
  rintro hook (rfl | rfl) flush some <;> cases some

theorem LinksDangleInTurn.reached (turn : LinksDangleInTurn t root name)
    (there : t.IsDir (root ++ [name])) (free : NoConflict t root name)
    {more : List (List FileName)} (listing : Listing t (root ++ [name]) (done ++ more)) :
    ∃ u, Committed t root name done u := by
  have start : Committed t root name [] (FileSystem.start t).tree := committed_start
  have run : Ends (commitEntries quietHost ⟨none, none⟩ ⟨[], false, false, false, true, .on, .off⟩
      _ _ done) _ _ _ :=
    start.entries there free turn DurabilityHooks.succeed_none true listing
  obtain ⟨_, c⟩ := run.returns
  exact ⟨_, c⟩

end Turn

section Linked

end Linked
end Bseal.Archive
