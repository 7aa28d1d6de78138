import Bseal.Archive.CommitTempTree

/-! What `commit_temp_tree` makes of the temporary tree when no call fails. -/
namespace Bseal.Archive
open Effect FileTree Platform

section Quiet
variable {root f : List FileName} {n : FileName} {w : FileSystem}

def withDirectory (t : DiskTree) (d : List FileName) (n : FileName) : DiskTree :=
  if t.node (d ++ [n]) = none then t.put d n (.dir .fresh) else t

theorem withDirectory_there {t : DiskTree} {d : List FileName} (dir : t.IsDir d) :
    (withDirectory t d n).node (d ++ [n]) = some ((t.node (d ++ [n])).getD (.dir .fresh)) := by
  unfold withDirectory
  split
  · next absent => rw [t.put_node _ dir absent, Function.update_self, absent, Option.getD_none]
  · next there =>
    obtain ⟨x, here⟩ := Option.ne_none_iff_exists'.mp there
    rw [here, Option.getD_some]

theorem withDirectory_isDir {t : DiskTree} {d : List FileName} (dir : t.IsDir d)
    (free : t.node (d ++ [n]) = none ∨ t.IsDir (d ++ [n])) :
    (withDirectory t d n).IsDir (d ++ [n]) := by
  rcases free with absent | ⟨a, here⟩
  · exact ⟨.fresh, by rw [withDirectory_there dir, absent]; rfl⟩
  · exact ⟨a, by rw [withDirectory_there dir, here]; rfl⟩

theorem withDirectory_node {t : DiskTree} {d p : List FileName} (other : p ≠ d ++ [n]) :
    (withDirectory t d n).node p = t.node p := by
  unfold withDirectory
  split
  · exact t.put_node_of_ne _ other
  · rfl

theorem probe_quiet (context : String) (w : FileSystem) :
    Ends (fsCall context (FileSystem.probe quietHost)) w (fun _ w' => w' = w.tick)
      fun _ _ => False := (ends_fsCall _ _).mpr rfl

theorem mkdirAt_quiet (context : String) (cur : List FileName) (n : FileName) (w : FileSystem) :
    Ends (fsCall context (FileSystem.mkdirAt quietHost cur n.1)) w
      (fun _ w' => w'.tree = withDirectory w.tree cur n) fun _ _ => False := by
  refine (ends_fsCall _ _).mpr ?_
  unfold FileSystem.mkdirAt FileSystem.call
  rw [ends_get_bind, ends_set_bind]
  change Ends (throwIf (cutNul n.1 = []) enoent >>= fun _ => _) w.tick _ _
  rw [ends_throwIf_bind, cutNul_fileName, if_neg n.2.1, ends_get_bind, toStep_fileName]
  change Ends (if w.tree.node (cur ++ [n]) = none then _ else _) _ _ _
  unfold withDirectory
  split <;> rfl

theorem openComponent_quiet {cur : List FileName} (dir : w.tree.IsDir cur)
    (free : w.tree.node (cur ++ [n]) = none ∨ w.tree.IsDir (cur ++ [n])) :
    Ends (openComponent quietHost cur n.1) w
      (fun fd w' => fd = cur ++ [n] ∧ w'.tree = withDirectory w.tree cur n) fun _ _ => False := by
  unfold openComponent
  refine Ends.bind (mkdirAt_quiet _ cur n w) fun _ w₁ made => ?_
  refine Ends.bind (probe_quiet _ w₁) fun _ w₂ probed => ?_
  subst probed
  rw [ends_get_bind, statAt_name]
  obtain ⟨a, here⟩ := withDirectory_isDir dir free
  rw [← made] at here
  have seen : w₁.tick.tree.node (cur ++ [n]) = some (.dir a) := here
  rw [seen]
  refine Ends.bind (probe_quiet _ w₁.tick) fun _ w₃ probed => ?_
  subst probed
  exact ⟨entryAt_name cur n, made⟩

theorem openComponents_cons (host : Host) (cur : List FileName) (n : FileName)
    (names : List FileName) :
    openComponents host cur (below (n :: names) []) = (do
      let next ← openComponent host cur n.1
      openComponents host next (below names [])) := by
  change (if n.1 = [] ∨ n.1 = dot then _ else if n.1 = dotDot then _ else _) = _
  rw [if_neg (not_or.mpr ⟨n.2.1, n.2.2.1⟩), if_neg n.2.2.2.1]
  rfl

theorem openComponents_quiet {cur names : List FileName} (dirs : w.tree.IsDir (cur ++ names)) :
    Ends (openComponents quietHost cur (below names [])) w
      (fun fd w' => fd = cur ++ names ∧ w'.tree = w.tree) fun _ _ => False := by
  induction names generalizing cur w with
  | nil => exact ⟨(List.append_nil cur).symm, rfl⟩
  | cons n names ih =>
    rw [openComponents_cons]
    have split : cur ++ n :: names = cur ++ [n] ++ names := by rw [List.append_assoc]; rfl
    rw [split] at dirs ⊢
    have next := dirs.prefix (List.prefix_append (cur ++ [n]) names)
    refine Ends.bind (openComponent_quiet ( next.prefix (List.prefix_append cur [n])) (.inr next))
      fun fd w₁ opened => ?_
    obtain ⟨rfl, same⟩ := opened
    rw [withDirectory, if_neg next.ne_none] at same
    rw [← same] at dirs ⊢
    exact ih dirs

theorem openComponents_last {cur names : List FileName} (dirs : w.tree.IsDir (cur ++ names))
    (free : w.tree.node (cur ++ names ++ [n]) = none ∨ w.tree.IsDir (cur ++ names ++ [n])) :
    Ends (openComponents quietHost cur (below (names ++ [n]) [])) w
      (fun _ w' => w'.tree = withDirectory w.tree (cur ++ names) n) fun _ _ => False := by
  induction names generalizing cur w with
  | nil =>
    rw [List.append_nil] at dirs free ⊢
    rw [List.nil_append, openComponents_cons]
    refine Ends.bind (openComponent_quiet dirs free) fun fd w₁ opened => ?_
    exact opened.2
  | cons m names ih =>
    rw [List.cons_append, openComponents_cons]
    have split : cur ++ m :: names = cur ++ [m] ++ names := by rw [List.append_assoc]; rfl
    rw [split] at dirs free ⊢
    have next := dirs.prefix (List.prefix_append (cur ++ [m]) names)
    refine Ends.bind (openComponent_quiet ( next.prefix (List.prefix_append cur [m])) (.inr next))
      fun fd w₁ opened => ?_
    obtain ⟨rfl, same⟩ := opened
    rw [withDirectory, if_neg next.ne_none] at same
    rw [← same] at dirs free ⊢
    exact ih dirs free

theorem openDirHardened_quiet {names : List FileName} (dirs : w.tree.IsDir (root ++ names)) :
    Ends (openDirHardened quietHost root (below names [])) w
      (fun fd w' => fd = root ++ names ∧ w'.tree = w.tree) fun _ _ => False := by
  unfold openDirHardened
  refine Ends.bind (probe_quiet _ w) fun _ w₁ probed => ?_
  subst probed
  have dirs' : w.tick.tree.IsDir (root ++ names) := dirs
  exact openComponents_quiet dirs'

theorem lookup_free {t : DiskTree} {d : List FileName} (dir : t.IsDir d)
    (absent : t.node (d ++ [n]) = none) : lookup t false (below (d ++ [n]) []) = .missing d n := by
  rw [lookup_snoc (lookup_dir dir true) dir, if_pos absent]

theorem createDirectories_there {p : List FileName} (dir : w.tree.IsDir p) :
    Ends (FileSystem.createDirectories quietHost (below p [])) w
      (fun _ w' => w'.tree = w.tree) fun _ _ => False := by
  refine Ends.bind_returns (ends_status_quiet (below p []) w) fun st w' done => ?_
  obtain ⟨rfl, rfl⟩ := done
  rw [statusOf_dir dir]
  rfl

theorem createDirectories_last {d : List FileName} (dir : w.tree.IsDir d)
    (free : w.tree.node (d ++ [n]) = none ∨ w.tree.IsDir (d ++ [n])) :
    Ends (FileSystem.createDirectories quietHost (below (d ++ [n]) [])) w
      (fun _ w' => w'.tree = withDirectory w.tree d n) fun _ _ => False := by
  rcases free with absent | there
  · have missing := lookup_free dir absent
    refine Ends.bind_returns (ends_status_quiet (below (d ++ [n]) []) w) fun st w' done => ?_
    obtain ⟨rfl, rfl⟩ := done
    rw [statusOf_behind_missing (List.prefix_refl _) missing,
      if_neg (downward_names _).getLast, reverse_below_snoc]
    change Ends (FileSystem.createBehindDots quietHost (n.1 :: (below d []).reverse)) w.tick _ _
    rw [FileSystem.createBehindDots, if_neg (not_or.mpr ⟨n.2.2.1, n.2.2.2.1⟩)]
    refine Ends.bind_returns (ends_status_quiet _ w.tick) fun st w' done => ?_
    obtain ⟨rfl, rfl⟩ := done
    have upper : statusOf w.tick.tree (below d []) = .directory := statusOf_dir dir
    rw [List.reverse_reverse, upper]
    rw [if_neg (not_or.mpr ⟨n.2.2.1, n.2.2.2.1⟩), ← reverse_below_snoc, List.reverse_reverse]
    refine Ends.bind_returns (ends_mkdir_quiet (w := w.tick.tick) missing) fun created w' made => ?_
    obtain ⟨rfl, rfl⟩ := made
    rw [withDirectory, if_pos absent]
    rfl
  · rw [withDirectory, if_neg there.ne_none]
    exact createDirectories_there there

theorem ensureDirs_quiet (hardened : Bool) (dir : w.tree.IsDir (root ++ f))
    (free : w.tree.node (root ++ f ++ [n]) = none ∨ w.tree.IsDir (root ++ f ++ [n])) :
    Ends (ensureDirs quietHost (outputTree root hardened) (below (f ++ [n]) [])) w
      (fun _ w' => w'.tree = withDirectory w.tree (root ++ f) n) fun _ _ => False := by
  unfold ensureDirs
  rw [if_neg (by rw [← below_snoc]; simp)]
  cases hardened with
  | true =>
    change Ends (openDirHardened quietHost root (below (f ++ [n]) []) >>= fun _ => pure ()) _ _ _
    unfold openDirHardened
    rw [bind_assoc]
    refine Ends.bind (probe_quiet _ w) fun _ w₁ probed => ?_
    subst probed
    have dir' : w.tick.tree.IsDir (root ++ f) := dir
    exact Ends.bind (openComponents_last dir' free) fun _ _ made => made
  | false =>
    change Ends (fsCall _ (FileSystem.createDirectories quietHost
      (below root [] ++ below (f ++ [n]) []))) _ _ _
    rw [below_append, ← List.append_assoc]
    exact (ends_fsCall _ _).mpr (createDirectories_last dir free)

variable {s : List FileName} {m : FileName}

theorem renamed_leaf {t : DiskTree} {p d : List FileName} {x : DiskNode} (dir : t.IsDir d)
    (absent : t.node (d ++ [n]) = none) (here : t.node p = some x) (leaf : x.isDir = false) :
    renamed t p d n = .ok (t.move p d n) := by
  have notDir : ¬t.IsDir p := by
    rintro ⟨a, there⟩
    rw [here] at there
    cases there
    cases leaf
  have there : t.node p ≠ none := by
    rw [here]
    exact Option.some_ne_none x
  exact renamed_free there (fun under => notDir ( dir.prefix under)) absent

theorem renameAt_quiet (context : String) {d : List FileName} {x : DiskNode}
    (dir : w.tree.IsDir d) (absent : w.tree.node (d ++ [n]) = none) (upper : w.tree.IsDir s)
    (here : w.tree.node (s ++ [m]) = some x) (leaf : x.isDir = false) :
    Ends (fsCall context (FileSystem.renameAt quietHost (s ++ [m]) d n.1)) w
      (fun _ w' => w'.tree = w.tree.move (s ++ [m]) d n) fun _ _ => False := by
  refine (ends_fsCall _ _).mpr ?_
  unfold FileSystem.renameAt FileSystem.call
  rw [ends_get_bind, ends_set_bind]
  change Ends (get >>= fun w => _) w.tick _ _
  rw [ends_get_bind]
  have found : lookup w.tick.tree false (below (s ++ [m]) []) = .found (s ++ [m]) := by
    change lookup w.tree false _ = _
    rw [lookup_snoc (lookup_dir upper true) upper,
      if_neg (by rw [here]; exact Option.some_ne_none _)]
  have moved : renamed w.tick.tree (s ++ [m]) d n = .ok (w.tree.move (s ++ [m]) d n) :=
    renamed_leaf dir absent here leaf
  rw [found, toStep_fileName]
  simp only
  rw [moved]
  rfl

theorem rename_quiet (context : String) {d : List FileName} {x : DiskNode}
    (dir : w.tree.IsDir d) (absent : w.tree.node (d ++ [n]) = none) (upper : w.tree.IsDir s)
    (here : w.tree.node (s ++ [m]) = some x) (leaf : x.isDir = false) :
    Ends (fsCall context (FileSystem.rename quietHost (s ++ [m]) (below (d ++ [n]) []))) w
      (fun _ w' => w'.tree = w.tree.move (s ++ [m]) d n) fun _ _ => False := by
  refine (ends_fsCall _ _).mpr ?_
  unfold FileSystem.rename FileSystem.call
  rw [ends_get_bind, ends_set_bind]
  change Ends (get >>= fun w => _) w.tick _ _
  rw [ends_get_bind]
  have found : lookup w.tick.tree false (below (s ++ [m]) []) = .found (s ++ [m]) := by
    change lookup w.tree false _ = _
    rw [lookup_snoc (lookup_dir upper true) upper,
      if_neg (by rw [here]; exact Option.some_ne_none _)]
  have free : lookup w.tick.tree false (below (d ++ [n]) []) = .missing d n :=
    lookup_free dir absent
  have moved : renamed w.tick.tree (s ++ [m]) d n = .ok (w.tree.move (s ++ [m]) d n) :=
    renamed_leaf dir absent here leaf
  have bare := bare_names (d ++ [n])
  rw [found]
  simp only
  rw [ends_throwIf_bind, if_neg (by rw [bare, cutNames_names]; exact fun both => both.1 rfl),
    bare, free]
  simp only
  rw [moved]
  rfl

theorem relative_names (root : List FileName) {names : List FileName} (filled : names ≠ []) :
    lexicallyRelative (below (root ++ names) []) (below root []) = below names [] := by
  rw [← below_append, lexicallyRelative_under]
  intro none
  rw [below, List.append_nil] at none
  exact filled (List.map_eq_nil_iff.mp none)

theorem head_dotDot (f : List FileName) :
    (lexicallyRelative (below (root ++ f) []) (below root [])).head? ≠ some dotDot := by
  cases f with
  | nil =>
    rw [List.append_nil, lexicallyRelative_self]
    decide
  | cons c f =>
    rw [relative_names root (List.cons_ne_nil c f)]
    intro up
    exact c.2.2.2.1 (Option.some.inj up)

theorem renameInto_quiet (hardened overwrite : Bool) {x : DiskNode}
    (dir : w.tree.IsDir (root ++ f)) (absent : w.tree.node (root ++ f ++ [n]) = none)
    (upper : w.tree.IsDir s) (here : w.tree.node (s ++ [m]) = some x) (leaf : x.isDir = false) :
    Ends (renameInto quietHost (outputTree root hardened) (s ++ [m]) (below (f ++ [n]) [])
      overwrite) w (fun _ w' => w'.tree = w.tree.move (s ++ [m]) (root ++ f) n)
      fun _ _ => False := by
  cases hardened with
  | true =>
    change Ends (renameIntoHardened quietHost (below root []) root (s ++ [m])
      (below (f ++ [n]) []) overwrite) _ _ _
    unfold renameIntoHardened
    rw [filename_names, parent_names]
    refine Ends.bind (openDirHardened_quiet dir) fun fd w₁ opened => ?_
    obtain ⟨rfl, same⟩ := opened
    rw [ends_get_bind, statAt_name, same, absent]
    rw [← same] at dir absent upper here ⊢
    exact renameAt_quiet _ dir absent upper here leaf
  | false =>
    change Ends (renameIntoPortable quietHost (below root []) (s ++ [m]) (below (f ++ [n]) [])
      overwrite) _ _ _
    unfold renameIntoPortable clearDestination promoteTo
    rw [below_append, ← List.append_assoc, parent_names, bind_assoc, ends_get_bind]
    have free : present w.tree (below (root ++ f ++ [n]) []) = false := by
      rw [present, lookup_free dir absent]
    rw [if_neg (by rw [free]; exact Bool.false_ne_true)]
    change Ends (fsCall _ _ >>= fun _ => _) w _ _
    refine Ends.bind ((ends_fsCall _ _).mpr (createDirectories_there dir)) fun _ w₁ same => ?_
    rw [← same] at dir absent upper here ⊢
    have passed : escapesRoot w₁.tree (below root []) (below (root ++ f) []) = false := by
      rw [escapesRoot, weaklyCanonical_dir dir]
      exact decide_eq_false (head_dotDot f)
    rw [ends_get_bind, ends_throwIf_bind, if_neg (by rw [passed]; exact Bool.false_ne_true)]
    exact rename_quiet _ dir absent upper here leaf

end Quiet
section Place
variable (t : DiskTree) (root : List FileName) (name : FileName)

/-- Nothing of the output root is in the way: it has nothing where an entry goes, or a directory
where a directory goes. -/
structure NoConflict : Prop where
  other : ∀ q, q ≠ [] → t.node (root ++ [name] ++ q) ≠ none → q.head? ≠ some name
  free : ∀ q, q ≠ [] → t.node (root ++ [name] ++ q) ≠ none →
    t.node (root ++ q) = none ∨ t.IsDir (root ++ [name] ++ q) ∧ t.IsDir (root ++ q)

/-- What stands at a place that had `old`, after the entry `staged` has gone there. A directory
that was there is left as it is. -/
def Placed (old staged new : Option DiskNode) : Prop :=
  match staged with
  | none => new = old
  | some (.dir _) => new = some (old.getD (.dir .fresh))
  | some (.file a content) => new = some (.file a content)
  | some (.link target) => new = some (.link target)

theorem placed_leaf {old new : Option DiskNode} {x : DiskNode} (leaf : x.isDir = false)
    (same : new = some x) : Placed old (some x) new := by
  cases x with
  | dir => cases leaf
  | file => exact same
  | link => exact same

theorem NoConflict.placed_dir {t : DiskTree} {root : List FileName} {name : FileName}
    (free : NoConflict t root name) {q : List FileName} (filled : q ≠ []) {a : Attributes}
    (dir : t.node (root ++ [name] ++ q) = some (.dir a)) {new : Option DiskNode}
    (placed : Placed (t.node (root ++ q)) (some (.dir a)) new) : ∃ b, new = some (.dir b) := by
  rcases free.free q filled (by rw [dir]; exact Option.some_ne_none _) with absent | ⟨-, b, old⟩
  · exact ⟨.fresh, placed.trans (by rw [absent]; rfl)⟩
  · exact ⟨b, placed.trans (by rw [old]; rfl)⟩

open Classical in
/-- The tree `u` after the entries `done` have been promoted from the tree `t`. -/
structure Committed (done : List (List FileName)) (u : DiskTree) : Prop where
  staged : ∀ q, u.node (root ++ [name] ++ q) =
    if root ++ [name] ++ q ∈ done ∧ ¬t.IsDir (root ++ [name] ++ q) then none
    else t.node (root ++ [name] ++ q)
  placed : ∀ q, q ≠ [] → q.head? ≠ some name → Placed (t.node (root ++ q))
    (if root ++ [name] ++ q ∈ done then t.node (root ++ [name] ++ q) else none) (u.node (root ++ q))
  top : u.node root = t.node root
  outside : Tree.SameOutside root t u

variable {t root name} {done : List (List FileName)} {u : DiskTree}

theorem committed_start : Committed t root name [] t where
  staged q := by rw [if_neg fun here => List.not_mem_nil here.1]
  placed q _ _ := by rw [if_neg List.not_mem_nil]; exact rfl
  top := rfl
  outside := Tree.SameOutside.refl t root

theorem Committed.dir (c : Committed t root name done u) {q : List FileName}
    (dir : t.IsDir (root ++ [name] ++ q)) : u.IsDir (root ++ [name] ++ q) := by
  obtain ⟨a, here⟩ := dir
  exact ⟨a, by rw [c.staged, if_neg fun gone => gone.2 ⟨a, here⟩, here]⟩

theorem head_of_prefix {q r : List FileName} (filled : q ≠ [])
    (under : root ++ q <+: root ++ [name] ++ r) : q.head? = some name := by
  rw [List.append_assoc, List.prefix_append_right_inj] at under
  cases q with
  | nil => exact absurd rfl filled
  | cons c q => exact congrArg some (List.cons_prefix_cons.mp under).1

theorem head_of_prefix' {q r : List FileName} (under : root ++ [name] ++ q <+: root ++ r) :
    r.head? = some name := by
  rw [List.append_assoc, List.prefix_append_right_inj] at under
  cases r with
  | nil => exact absurd (List.prefix_nil.mp under) (List.cons_ne_nil name q)
  | cons c r => exact congrArg some (List.cons_prefix_cons.mp under).1.symm

theorem staged_injective {q r : List FileName}
    (same : root ++ [name] ++ q = root ++ [name] ++ r) : q = r := List.append_cancel_left same

theorem Committed.directory (c : Committed t root name done u) {f : List FileName} {n : FileName}
    (dir : t.IsDir (root ++ [name] ++ (f ++ [n]))) (other : (f ++ [n]).head? ≠ some name)
    (upper : u.IsDir (root ++ f)) (fresh : root ++ [name] ++ (f ++ [n]) ∉ done) :
    Committed t root name (done ++ [root ++ [name] ++ (f ++ [n])])
      (withDirectory u (root ++ f) n) where
  staged q := by
    have apart : root ++ [name] ++ q ≠ root ++ f ++ [n] := by
      intro same
      rw [List.append_assoc root f] at same
      exact other ( head_of_prefix (by simp) ⟨[], by rw [List.append_nil, same]⟩)
    rw [withDirectory_node apart, c.staged]
    refine if_congr ?_ rfl rfl
    rw [List.mem_append, List.mem_singleton]
    refine and_congr_left fun leaf => (or_iff_left ?_).symm
    intro same
    exact leaf (same ▸ dir)
  placed q filled away := by
    by_cases here : q = f ++ [n]
    · subst here
      have before := c.placed (f ++ [n]) filled away
      rw [if_neg fresh] at before
      obtain ⟨a, node⟩ := dir
      rw [if_pos (List.mem_append_right _ (List.mem_singleton_self _)), node, ← before]
      rw [← List.append_assoc]
      exact withDirectory_there upper
    · rw [withDirectory_node (by
        rw [List.append_assoc root f]
        exact fun same => here (List.append_cancel_left same))]
      have kept := c.placed q filled away
      by_cases member : root ++ [name] ++ q ∈ done
      · rw [if_pos member] at kept
        rwa [if_pos (List.mem_append_left _ member)]
      · rw [if_neg member] at kept
        rwa [if_neg]
        rw [List.mem_append, List.mem_singleton]
        exact not_or.mpr ⟨member, fun same => here (staged_injective same)⟩
  top := by
    rw [withDirectory_node (by simp), c.top]
  outside := by
    intro p out
    rw [c.outside p out, withDirectory_node]
    rintro rfl
    exact out (by rw [List.append_assoc]; exact List.prefix_append root _)

theorem Committed.leaf (c : Committed t root name done u) {f : List FileName} {n : FileName}
    {x : DiskNode} (here : t.node (root ++ [name] ++ (f ++ [n])) = some x)
    (leaf : x.isDir = false) (other : (f ++ [n]).head? ≠ some name) (upper : u.IsDir (root ++ f))
    (free : t.node (root ++ (f ++ [n])) = none)
    (fresh : root ++ [name] ++ (f ++ [n]) ∉ done) :
    Committed t root name (done ++ [root ++ [name] ++ (f ++ [n])])
      (u.move (root ++ [name] ++ (f ++ [n])) (root ++ f) n) := by
  have notDir : ¬t.IsDir (root ++ [name] ++ (f ++ [n])) := by
    rintro ⟨a, there⟩
    rw [here] at there
    cases there
    cases leaf
  have stands : u.node (root ++ [name] ++ (f ++ [n])) = some x := by
    rw [c.staged, if_neg fun gone => fresh gone.1, here]
  have nothing : ∀ r, r ≠ [] → t.node (root ++ [name] ++ (f ++ [n] ++ r)) = none := by
    intro r filled
    by_contra there
    refine notDir ( t.isDir_of_prefix ⟨r, by simp⟩ (fun same => filled ?_) there)
    simpa using same
  have away : ¬root ++ [name] ++ (f ++ [n]) <+: root ++ f := by
    intro under
    refine notDir ?_
    obtain ⟨a, dir⟩ := upper.prefix under
    rw [stands] at dir
    exact ⟨a, here.trans dir⟩
  have apart : ¬root ++ f ++ [n] <+: root ++ [name] ++ (f ++ [n]) := by
    rw [List.append_assoc root f]
    exact fun under => other ( head_of_prefix (by simp) under)
  have moved := u.move_node upper away apart
  constructor
  · intro q
    have off : ¬root ++ f ++ [n] <+: root ++ [name] ++ q := by
      rw [List.append_assoc root f]
      exact fun under => other ( head_of_prefix (by simp) under)
    rw [moved, if_neg off]
    by_cases under : root ++ [name] ++ (f ++ [n]) <+: root ++ [name] ++ q
    · rw [if_pos under]
      rw [List.prefix_append_right_inj] at under
      obtain ⟨r, rfl⟩ := under
      by_cases filled : r = []
      · subst filled
        rw [List.append_nil, if_pos ⟨List.mem_append_right _ (List.mem_singleton_self _), notDir⟩]
      · rw [nothing r filled, ite_self]
    · rw [if_neg under, c.staged]
      have other' : root ++ [name] ++ q ≠ root ++ [name] ++ (f ++ [n]) :=
        fun same => under ⟨[], by rw [List.append_nil, same]⟩
      refine if_congr (and_congr_left fun _ => ?_) rfl rfl
      rw [List.mem_append, List.mem_singleton]
      exact (or_iff_left other').symm
  · intro q filled head
    have off : ¬root ++ [name] ++ (f ++ [n]) <+: root ++ q := fun under =>
      head ( head_of_prefix' under)
    rw [moved, List.append_assoc root f, if_neg off]
    by_cases under : root ++ (f ++ [n]) <+: root ++ q
    · rw [if_pos under]
      rw [List.prefix_append_right_inj] at under
      obtain ⟨r, rfl⟩ := under
      have tail : (root ++ (f ++ [n] ++ r)).drop ((root ++ f).length + 1) = r := by
        have whole : root ++ (f ++ [n] ++ r) = root ++ f ++ [n] ++ r := by simp
        have long : (root ++ f ++ [n]).length = (root ++ f).length + 1 := List.length_append
        rw [whole, ← long, List.drop_left]
      rw [tail]
      by_cases last : r = []
      · subst last
        rw [List.append_nil, List.append_nil,
          if_pos (List.mem_append_right _ (List.mem_singleton_self _)), stands, here]
        exact placed_leaf leaf rfl
      · rw [nothing r last, ite_self, List.append_assoc (root ++ [name]), c.staged,
          nothing r last, ite_self]
        refine ( t.none_of_prefix ?_ free).symm
        exact ⟨r, by simp⟩
    · rw [if_neg under]
      have kept := c.placed q filled head
      by_cases member : root ++ [name] ++ q ∈ done
      · rw [if_pos member] at kept
        rwa [if_pos (List.mem_append_left _ member)]
      · rw [if_neg member] at kept
        rwa [if_neg]
        rw [List.mem_append, List.mem_singleton]
        refine not_or.mpr ⟨member, fun same => under ?_⟩
        rw [staged_injective same]
  · rw [u.move_node_of_apart, c.top]
    · exact fun under => absurd under.length_le (by simp)
    · exact fun under => absurd under.length_le (by simp)
  · intro p out
    rw [c.outside p out, u.move_node_of_apart]
    · rw [List.append_assoc]
      exact fun under => out ((List.prefix_append root _).trans under)
    · rw [List.append_assoc]
      exact fun under => out ((List.prefix_append root _).trans under)

end Place
section Entry
variable {t : DiskTree}

theorem isPlainDirectory_dir {p : List FileName} (dir : t.IsDir p) :
    isPlainDirectory t (below p []) = true := by
  have link : isSymlink t (below p []) = false := by
    obtain ⟨a, here⟩ := dir
    rw [isSymlink, lookup_dir ⟨a, here⟩]
    simp only
    rw [here]
    rfl
  rw [isPlainDirectory, statusOf_dir dir, link]
  rfl

theorem isPlainDirectory_leaf {d : List FileName} {n : FileName} {x : DiskNode} (dir : t.IsDir d)
    (here : t.node (d ++ [n]) = some x) (leaf : x.isDir = false) :
    isPlainDirectory t (below (d ++ [n]) []) = false := by
  have physical : lookup t false (below (d ++ [n]) []) = .found (d ++ [n]) := by
    rw [lookup_snoc (lookup_dir dir true) dir, if_neg (by rw [here]; exact Option.some_ne_none _)]
  cases x with
  | dir => cases leaf
  | file a content =>
    have found : lookup t true (below (d ++ [n]) []) = .found (d ++ [n]) := by
      rw [lookup_entry dir, here]
    have notDir : ¬t.IsDir (d ++ [n]) := by
      rintro ⟨b, there⟩
      rw [here] at there
      cases there
    rw [isPlainDirectory, statusOf_found found, if_neg notDir]
    rfl
  | link target =>
    have link : isSymlink t (below (d ++ [n]) []) = true := by
      rw [isSymlink, physical]
      simp only
      rw [here]
      rfl
    rw [isPlainDirectory, link]
    exact Bool.and_false _

/-- `relative` gives an entry its own path, if it is no link or a link that leads nowhere. -/
theorem relativeTo_own {temp f : List FileName} {n : FileName} {x : DiskNode}
    (top : t.IsDir temp) (dir : t.IsDir (temp ++ f)) (here : t.node (temp ++ f ++ [n]) = some x)
    (dangles : ∀ target, x = .link target →
      (lookup t true (below (temp ++ f ++ [n]) [])).Dangles) :
    relativeTo t (below (temp ++ f ++ [n]) []) (below temp []) = .ok (below (f ++ [n]) []) := by
  have own : lexicallyRelative (below (temp ++ f ++ [n]) []) (below temp []) =
      below (f ++ [n]) [] := by
    rw [List.append_assoc, relative_names temp (by simp)]
  rw [relativeTo_entry dir n top]
  have outcome : lookup t true (below (temp ++ f ++ [n]) []) = .found (temp ++ f ++ [n]) ∨
      (lookup t true (below (temp ++ f ++ [n]) [])).Dangles := by
    cases x with
    | dir a =>
      left
      rw [lookup_entry dir, here]
    | file a content =>
      left
      rw [lookup_entry dir, here]
    | link target => exact .inr (dangles target rfl)
  rcases outcome with found | nowhere
  · rw [found]
    exact congrArg Except.ok own
  · rcases led : lookup t true (below (temp ++ f ++ [n]) []) with p | _ | _ | _
    · rw [led] at nowhere
      exact nowhere.elim
    · exact congrArg Except.ok own
    · exact congrArg Except.ok own
    · rw [led] at nowhere
      exact nowhere.elim

def DurabilityHooks.Succeed (hooks : DurabilityHooks) : Prop :=
  ∀ hook, hook = hooks.flushFile ∨ hook = hooks.flushDir → ∀ flush, hook = some flush →
    ∀ path mode w, flush path mode w = .ok ()

theorem flushWith_quiet
    {hook : Option (OutPath → DurabilityMode → FileSystem → Result Unit)}
    (succeeds : ∀ flush, hook = some flush → ∀ path mode w, flush path mode w = .ok ())
    (mode : DurabilityMode) (path : OutPath) (w : FileSystem) :
    Ends (flushWith hook mode path) w (fun _ w' => w' = w) fun _ _ => False := by
  unfold flushWith
  cases hook with
  | none => rfl
  | some flush =>
    simp only
    split
    · rw [ends_get_bind, succeeds flush rfl]
      rfl
    · rfl

end Entry

section Run
variable {t : DiskTree} {root : List FileName} {name : FileName} {hooks : DurabilityHooks}
  {options : ArchiveReaderOptions} {done : List (List FileName)} {w : FileSystem}

theorem Committed.dangles {u : DiskTree} (c : Committed t root name done u)
    (clean : Contained readTarget t (root ++ [name]))
    {f : List FileName} {n : FileName} {target : Bytes} (dir : t.IsDir (root ++ [name] ++ f))
    (here : t.node (root ++ [name] ++ f ++ [n]) = some (.link target))
    (same : u.node (root ++ [name] ++ f ++ [n]) = some (.link target))
    (dangles : (lookup t true (below (root ++ [name] ++ f ++ [n]) [])).Dangles) :
    (lookup u true (below (root ++ [name] ++ f ++ [n]) [])).Dangles := by
  obtain ⟨relative, down⟩ := clean _ target ⟨f ++ [n], by simp⟩ here
  rw [lookup_entry dir, here] at dangles
  rw [lookup_entry (c.dir dir), same]
  simp only [relative, if_true, Bool.false_eq_true, if_false] at dangles ⊢
  refine resolve_dangles clean (fun p under => ?_) _ (List.prefix_append _ f) down dangles
  obtain ⟨q, rfl⟩ := under
  rw [c.staged]
  by_cases gone : root ++ [name] ++ q ∈ done ∧ ¬t.IsDir (root ++ [name] ++ q)
  · rw [if_pos gone]
    exact .inr ⟨rfl, gone.2⟩
  · rw [if_neg gone]
    exact .inl rfl

theorem Committed.entry (c : Committed t root name done w.tree)
    (there : t.IsDir (root ++ [name])) (free : NoConflict t root name) (succeed : hooks.Succeed)
    (hardened : Bool) {f : List FileName} {n : FileName}
    (stands : t.node (root ++ [name] ++ (f ++ [n])) ≠ none)
    (fresh : root ++ [name] ++ (f ++ [n]) ∉ done)
    (above : ∀ g, g ≠ [] → g <+: f → root ++ [name] ++ g ∈ done)
    (dangle : ∀ target, t.node (root ++ [name] ++ (f ++ [n])) = some (.link target) →
      (lookup w.tree true (below (root ++ [name] ++ (f ++ [n])) [])).Dangles) :
    Ends (commitEntry quietHost hooks options (below (root ++ [name]) [])
      (outputTree root hardened) (root ++ [name] ++ (f ++ [n]))) w
      (fun _ w' => Committed t root name (done ++ [root ++ [name] ++ (f ++ [n])]) w'.tree)
      fun _ _ => False := by
  have split : root ++ [name] ++ (f ++ [n]) = root ++ [name] ++ f ++ [n] := by
    rw [List.append_assoc (root ++ [name])]
  have parent : t.IsDir (root ++ [name] ++ f) := by
    obtain ⟨a, here⟩ := t.closed _ n (split ▸ stands)
    exact ⟨a, here⟩
  have top : w.tree.IsDir (root ++ [name]) := by
    rw [← List.append_nil (root ++ [name])] at there ⊢
    exact c.dir there
  have other := free.other (f ++ [n]) (by simp) stands
  have upper : w.tree.IsDir (root ++ f) := by
    cases f with
    | nil =>
      rw [List.append_nil]
      exact top.prefix (List.prefix_append root [name])
    | cons g f =>
      have placed := c.placed (g :: f) (List.cons_ne_nil g f) other
      obtain ⟨a, here⟩ := parent
      rw [if_pos (above _ (List.cons_ne_nil g f) (List.prefix_refl _)), here] at placed
      exact free.placed_dir (List.cons_ne_nil g f) here placed
  have before : w.tree.node (root ++ (f ++ [n])) = t.node (root ++ (f ++ [n])) := by
    have placed := c.placed (f ++ [n]) (by simp) other
    rwa [if_neg fresh] at placed
  obtain ⟨x, here⟩ := Option.ne_none_iff_exists'.mp stands
  have now : w.tree.node (root ++ [name] ++ (f ++ [n])) = some x := by
    rw [c.staged, if_neg fun gone => fresh gone.1, here]
  have relative := relativeTo_own top (c.dir parent) (split ▸ now)
    fun target link => split ▸ dangle target (link ▸ here)
  unfold commitEntry
  rw [ends_get_bind, split, relative]
  rw [← split]
  simp only
  by_cases leaf : x.isDir = false
  · have notPlain := isPlainDirectory_leaf (c.dir parent) (split ▸ now) leaf
    rw [← split] at notPlain
    have absent : t.node (root ++ (f ++ [n])) = none := by
      rcases free.free (f ++ [n]) (by simp) stands with absent | ⟨⟨a, dir⟩, -⟩
      · exact absent
      · rw [here] at dir
        cases dir
        cases leaf
    rw [if_neg (by rw [notPlain]; exact Bool.false_ne_true)]
    rw [absent, ← List.append_assoc root f] at before
    rw [split] at now
    rw [split]
    refine Ends.bind (renameInto_quiet hardened _ upper before (c.dir parent) now leaf)
      fun _ w₁ moved => ?_
    refine (flushWith_quiet (succeed _ (.inl rfl)) _ _ w₁).mono ?_ fun _ _ => id
    rintro _ w' rfl
    rw [moved, ← split]
    exact c.leaf here leaf other upper absent fresh
  · have dir : t.IsDir (root ++ [name] ++ (f ++ [n])) := by
      cases x with
      | dir a => exact ⟨a, here⟩
      | file | link => exact absurd rfl leaf
    rw [isPlainDirectory_dir (c.dir dir), if_pos rfl]
    have open_ : w.tree.node (root ++ f ++ [n]) = none ∨ w.tree.IsDir (root ++ f ++ [n]) := by
      rw [List.append_assoc root f]
      rcases free.free (f ++ [n]) (by simp) stands with absent | ⟨-, a, old⟩
      · exact .inl (before.trans absent)
      · exact .inr ⟨a, before.trans old⟩
    refine (ensureDirs_quiet hardened upper open_).mono ?_ fun _ _ => id
    intro _ w' made
    rw [made]
    exact c.directory dir other upper fresh

/-- Each link leads nowhere when its turn comes, in any order the sort may leave: in a tree in
which the entries before it have been promoted. -/
def LinksDangleInTurn (t : DiskTree) (root : List FileName) (name : FileName) : Prop :=
  ∀ done names rest target,
    Listing t (root ++ [name]) (done ++ (root ++ [name] ++ names) :: rest) →
    t.node (root ++ [name] ++ names) = some (.link target) →
    ∀ u, Committed t root name done u →
      (lookup u true (below (root ++ [name] ++ names) [])).Dangles

theorem Listing.split {src : List FileName} {rest : List (List FileName)}
    (listing : Listing t (root ++ [name]) (done ++ src :: rest)) :
    ∃ f n, src = root ++ [name] ++ (f ++ [n]) ∧ t.node src ≠ none ∧ src ∉ done ∧
      ∀ g, g ≠ [] → g <+: f → root ++ [name] ++ g ∈ done := by
  obtain ⟨names, filled, rfl, stands⟩ := (listing.entries src).mp (by simp)
  obtain ⟨f, n, rfl⟩ := (List.eq_nil_or_concat names).resolve_left filled
  rw [List.concat_eq_append] at stands listing ⊢
  refine ⟨f, n, rfl, stands, fun member => ?_, fun g filled under => ?_⟩
  · exact (List.nodup_append.mp listing.nodup).2.2 _ member _ List.mem_cons_self rfl
  · have shorter : (root ++ [name] ++ g).length < (root ++ [name] ++ (f ++ [n])).length := by
      have len := under.length_le
      simp only [List.length_append, List.length_singleton]
      omega
    have inside : root ++ [name] ++ g <+: root ++ [name] ++ (f ++ [n]) := by
      rw [List.prefix_append_right_inj]
      exact under.trans (List.prefix_append f [n])
    have dir := t.isDir_of_prefix inside
      (fun same => absurd shorter (same ▸ Nat.lt_irrefl _)) stands
    have listed := (listing.entries (root ++ [name] ++ g)).mpr ⟨g, filled, rfl, dir.ne_none⟩
    rcases List.mem_append.mp listed with member | later
    · exact member
    · rcases List.mem_cons.mp later with same | later
      · exact absurd shorter (same ▸ Nat.lt_irrefl _)
      · have sorted := (List.pairwise_append.mp listing.sorted).2.1
        exact absurd (List.rel_of_pairwise_cons sorted later) (Nat.not_le.mpr shorter)

theorem Committed.entries (c : Committed t root name done w.tree)
    (there : t.IsDir (root ++ [name])) (free : NoConflict t root name)
    (turn : LinksDangleInTurn t root name) (succeed : hooks.Succeed) (hardened : Bool)
    {next more : List (List FileName)}
    (listing : Listing t (root ++ [name]) (done ++ (next ++ more))) :
    Ends (commitEntries quietHost hooks options (below (root ++ [name]) [])
      (outputTree root hardened) next) w
      (fun _ w' => Committed t root name (done ++ next) w'.tree) fun _ _ => False := by
  induction next generalizing done w with
  | nil => rw [List.append_nil]; exact c
  | cons src next ih =>
    obtain ⟨f, n, rfl, stands, fresh, above⟩ := Listing.split listing
    have dangle := fun target link => turn done (f ++ [n]) _ target listing link w.tree c
    refine Ends.bind (c.entry there free succeed hardened stands fresh above dangle)
      fun _ w₁ c₁ => ?_
    have rest := ih c₁ (by rwa [List.append_assoc, List.singleton_append])
    rwa [List.append_assoc, List.singleton_append] at rest

theorem makeSafeOutputTree_quiet {outputRoot : OutPath} (mode : HardenedExtractMode)
    (found : lookup w.tree true outputRoot = .found root) (dir : w.tree.IsDir root) :
    Ends (makeSafeOutputTree quietHost outputRoot mode) w
      (fun tree w' => tree = outputTree root (mode ≠ .off) ∧ w'.tree = w.tree)
      fun _ _ => False := by
  unfold makeSafeOutputTree
  rw [ends_get_bind, weaklyCanonical, found]
  simp only
  split
  · next on =>
    refine Ends.bind ((ends_fsCall _ _).mpr (?_ : Ends _ w (fun fd w' => fd = root ∧
      w'.tree = w.tree) _)) fun fd w₁ opened => ?_
    · unfold FileSystem.openRoot FileSystem.call
      rw [ends_get_bind, ends_set_bind]
      change Ends (get >>= fun w => _) w.tick _ _
      rw [ends_get_bind]
      have found' : lookup w.tick.tree true outputRoot = .found root := found
      have dir' : w.tick.tree.IsDir root := dir
      rw [found']
      simp only
      rw [ends_throwIf_bind, if_neg (not_not.mpr dir')]
      exact ⟨rfl, rfl⟩
    · obtain ⟨rfl, same⟩ := opened
      refine ⟨?_, same⟩
      rw [outputTree, if_pos (by simpa using on)]
  · next off =>
    refine ⟨?_, rfl⟩
    rw [outputTree, if_neg (by simpa using off)]

theorem commitTempTree_entries (tempRoot : OutPath) {post : FileSystem → Prop}
    {fail : Failure → FileSystem → Prop} (same : w.tree = t)
    (found : lookup t true options.outputRoot = .found root) (dir : t.IsDir root)
    (succeed : hooks.Succeed) (paths : List (List FileName))
    (run : ∀ w, w.tree = t → Ends (commitEntries quietHost hooks options tempRoot
      (outputTree root (options.hardenedExtractMode ≠ .off)) paths) w (fun _ => post) fail) :
    Ends (commitTempTree quietHost hooks options tempRoot paths) w (fun _ => post) fail := by
  unfold commitTempTree
  rw [← same] at found dir
  refine Ends.bind_returns (makeSafeOutputTree_quiet _ found dir) fun tree w₁ made => ?_
  obtain ⟨rfl, same₁⟩ := made
  refine Ends.bind (run w₁ (same₁.trans same)) fun _ w₂ done => ?_
  refine (flushWith_quiet (succeed _ (.inr rfl)) _ _ w₂).mono ?_ fun _ _ => False.elim
  rintro _ w' rfl
  exact done

/-- The whole commit, from any state over the tree. -/
theorem commitTempTree_committed (there : t.IsDir (root ++ [name])) (free : NoConflict t root name)
    (turn : LinksDangleInTurn t root name) (succeed : hooks.Succeed) (same : w.tree = t)
    (found : lookup t true options.outputRoot = .found root) {paths : List (List FileName)}
    (listing : Listing t (root ++ [name]) paths) :
    Ends (commitTempTree quietHost hooks options (below (root ++ [name]) []) paths) w
      (fun _ w' => Committed t root name paths w'.tree) fun _ _ => False := by
  refine commitTempTree_entries _ same found ( there.prefix (List.prefix_append root [name]))
    succeed paths fun w₁ same₁ => ?_
  have start : Committed t root name [] w₁.tree := by
    rw [same₁]
    exact committed_start
  have whole : Listing t (root ++ [name]) ([] ++ (paths ++ [])) := by rwa [List.append_nil]
  exact start.entries there free turn succeed _ whole

/-- Every entry of the temporary tree has its place below the output root, of which nothing else
has changed; only the directories are still in the temporary tree; and nothing has changed
elsewhere. -/
structure Preserved (t : DiskTree) (root : List FileName) (name : FileName) (u : DiskTree) :
    Prop where
  placed : ∀ q, q ≠ [] → q.head? ≠ some name →
    Placed (t.node (root ++ q)) (t.node (root ++ [name] ++ q)) (u.node (root ++ q))
  moved : ∀ q, ¬t.IsDir (root ++ [name] ++ q) → u.node (root ++ [name] ++ q) = none
  directories : ∀ q, t.IsDir (root ++ [name] ++ q) →
    u.node (root ++ [name] ++ q) = t.node (root ++ [name] ++ q)
  top : u.node root = t.node root
  outside : Tree.SameOutside root t u

theorem Committed.preserved {u : DiskTree} (c : Committed t root name done u)
    (there : t.IsDir (root ++ [name])) (listing : Listing t (root ++ [name]) done) :
    Preserved t root name u where
  placed := by
    intro q filled other
    have placed := c.placed q filled other
    split at placed
    · exact placed
    · next missed =>
      have absent : t.node (root ++ [name] ++ q) = none := by
        by_contra stands
        exact missed ((listing.entries _).mpr ⟨q, filled, rfl, stands⟩)
      rwa [absent]
  moved := by
    intro q leaf
    rw [c.staged]
    split
    · rfl
    · next kept =>
      by_contra stands
      have filled : q ≠ [] := fun empty => leaf (by rwa [empty, List.append_nil])
      exact kept ⟨(listing.entries _).mpr ⟨q, filled, rfl, stands⟩, leaf⟩
  directories q dir := by rw [c.staged, if_neg fun gone => gone.2 dir]
  top := c.top
  outside := c.outside

end Run
end Bseal.Archive
