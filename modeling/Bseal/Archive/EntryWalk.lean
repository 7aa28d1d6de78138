import Bseal.Archive.ArchiveWriter
import Bseal.Archive.Containment
import Mathlib.Data.List.Flatten

/-! Names and texts of the entries of an input tree: what the walk lists, the path that `relative`
gives for an entry and for whatever a link leads to, and the order of the sort. -/
namespace Bseal.Archive
open FileTree

section Text

def IsSegment (c : Bytes) : Prop := c ≠ [] ∧ slash ∉ c

theorem fileName_isSegment (n : FileName) : IsSegment n.1 := ⟨n.2.1, n.2.2.2.2.2⟩

theorem isSegment_of_mem_names {p : List FileName} {c : Bytes} (member : c ∈ below p []) :
    IsSegment c := by
  rw [below, List.append_nil, List.mem_map] at member
  obtain ⟨n, -, rfl⟩ := member
  exact fileName_isSegment n

theorem splitSlash_of_notMem {c : Bytes} (clean : slash ∉ c) : splitSlash c = [c] := by
  induction c with
  | nil => rfl
  | cons b c ih =>
    rw [List.mem_cons, not_or] at clean
    rw [splitSlash, if_neg (Ne.symm clean.1), ih clean.2]

theorem splitSlash_append {c : Bytes} (clean : slash ∉ c) (rest : Bytes) :
    splitSlash (c ++ slash :: rest) = c :: splitSlash rest := by
  induction c with
  | nil => exact if_pos rfl
  | cons b c ih =>
    rw [List.mem_cons, not_or] at clean
    rw [List.cons_append, splitSlash, if_neg (Ne.symm clean.1), ih clean.2]

theorem relativeText_cons (c d : Bytes) (names : OutPath) :
    relativeText (c :: d :: names) = c ++ slash :: relativeText (d :: names) := rfl

theorem relativeText_singleton (c : Bytes) : relativeText [c] = c := List.append_nil c

theorem splitSlash_relativeText {names : OutPath} (filled : names ≠ [])
    (clean : ∀ c ∈ names, IsSegment c) : splitSlash (relativeText names) = names := by
  induction names with
  | nil => exact absurd rfl filled
  | cons c names ih =>
    have first := (clean c List.mem_cons_self).2
    cases names with
    | nil => rw [relativeText_singleton, splitSlash_of_notMem first]
    | cons d names =>
      rw [relativeText_cons, splitSlash_append first, ih (List.cons_ne_nil d names)
        fun c' member => clean c' (List.mem_cons_of_mem c member)]

theorem fileNames_of_segments {names : OutPath} (clean : ∀ c ∈ names, IsSegment c) :
    fileNames names = names := by
  induction names with
  | nil => rfl
  | cons c names ih =>
    have first := (clean c List.mem_cons_self).1
    cases names with
    | nil => rfl
    | cons d names =>
      rw [fileNames, if_neg (by rwa [List.isEmpty_iff]),
        ih fun c' member => clean c' (List.mem_cons_of_mem c member)]
      exact List.cons_ne_nil d names

theorem relativeText_head {names : OutPath} (filled : names ≠ [])
    (clean : ∀ c ∈ names, IsSegment c) :
    relativeText names ≠ [] ∧ (relativeText names).head? ≠ some slash := by
  obtain ⟨c, rest, rfl⟩ := List.exists_cons_of_ne_nil filled
  obtain ⟨notEmpty, noSlash⟩ := clean c List.mem_cons_self
  obtain ⟨b, c, rfl⟩ := List.exists_cons_of_ne_nil notEmpty
  have first : ∃ tail, relativeText ((b :: c) :: rest) = b :: tail := by
    cases rest with
    | nil => exact ⟨c, relativeText_singleton _⟩
    | cons d rest => exact ⟨_, relativeText_cons _ d rest⟩
  obtain ⟨tail, text⟩ := first
  rw [text]
  refine ⟨List.cons_ne_nil _ _, fun same => noSlash ?_⟩
  rw [List.head?_cons, Option.some.injEq] at same
  exact same ▸ List.mem_cons_self

theorem pathComponents_relativeText {names : OutPath} (filled : names ≠ [])
    (clean : ∀ c ∈ names, IsSegment c) : pathComponents (relativeText names) = names := by
  obtain ⟨notEmpty, noRoot⟩ := relativeText_head filled clean
  rw [pathComponents, if_neg noRoot, if_neg (by rwa [List.isEmpty_iff]),
    splitSlash_relativeText filled clean, fileNames_of_segments clean]

theorem genericString_relativeText {names : OutPath} (filled : names ≠ [])
    (clean : ∀ c ∈ names, IsSegment c) :
    genericString (relativeText names) = relativeText names := by
  obtain ⟨c, rest, rfl⟩ := List.exists_cons_of_ne_nil filled
  rw [genericString, pathComponents_relativeText filled clean]
  refine if_neg ?_
  rintro rfl
  exact (clean _ List.mem_cons_self).2 List.mem_cons_self

theorem relativeText_injective {names names' : OutPath} (filled : names ≠ [])
    (filled' : names' ≠ [])
    (clean : ∀ c ∈ names, IsSegment c) (clean' : ∀ c ∈ names', IsSegment c)
    (same : relativeText names = relativeText names') : names = names' := by
  rw [← splitSlash_relativeText filled clean, same, splitSlash_relativeText filled' clean']

theorem relativeText_mono {names names' : OutPath} (under : names <+: names') :
    relativeText names <+: relativeText names' := by
  obtain ⟨rest, rfl⟩ := under
  induction names with
  | nil => exact List.nil_prefix
  | cons c names ih =>
    cases names with
    | nil =>
      cases rest with
      | nil => exact List.prefix_refl _
      | cons d rest =>
        rw [relativeText_singleton]
        exact List.prefix_append c _
    | cons d names =>
      rw [List.cons_append] at ih ⊢
      rw [List.cons_append, relativeText_cons, relativeText_cons]
      exact (List.prefix_append_right_inj c).mpr ((List.prefix_cons_inj slash).mpr ih)

theorem not_metadataPath_dotDot {names : OutPath} (up : dotDot ∈ names)
    (clean : ∀ c ∈ names, IsSegment c) : ¬MetadataPath (relativeText names) := by
  rintro ⟨-, safe⟩
  have parts := pathComponents_relativeText (List.ne_nil_of_mem up) clean
  rw [isSafeRelativePath, parts, Bool.and_eq_true, List.all_eq_true] at safe
  simpa using safe.2 dotDot up

theorem not_metadataPath_dot : ¬MetadataPath (relativeText [dot]) := by decide

end Text

section Relative

theorem lexicallyRelative_under (base : OutPath) {names : OutPath} (filled : names ≠ []) :
    lexicallyRelative (base ++ names) base = names := by
  induction base with
  | nil =>
    obtain ⟨c, cs, rfl⟩ := List.exists_cons_of_ne_nil filled
    rfl
  | cons b base ih =>
    rw [List.cons_append, lexicallyRelative, if_pos rfl, ih]

theorem lexicallyRelative_self (base : OutPath) : lexicallyRelative base base = [dot] := by
  induction base with
  | nil => rfl
  | cons b base ih => rw [lexicallyRelative, if_pos rfl, ih]

theorem lexicallyRelative_outside {path base : OutPath} (out : ¬base <+: path) :
    ∃ k rest, lexicallyRelative path base = List.replicate (k + 1) dotDot ++ rest ∧
      rest <:+ path := by
  induction base generalizing path with
  | nil => exact absurd List.nil_prefix out
  | cons b base ih =>
    cases path with
    | nil => exact ⟨base.length, [], (List.append_nil _).symm, List.suffix_refl _⟩
    | cons c path =>
      rw [lexicallyRelative]
      by_cases same : c = b
      · rw [if_pos same]
        obtain ⟨k, rest, eq, last⟩ := ih fun under => out (by
          rw [same]
          exact (List.prefix_cons_inj b).mpr under)
        exact ⟨k, rest, eq, last.trans (List.suffix_cons c path)⟩
      · rw [if_neg same]
        exact ⟨base.length, c :: path, rfl, List.suffix_refl _⟩

variable {κ α : Type} {t : Tree FileName κ α Bytes} {d p root : List FileName}

theorem lookup_dir (dir : t.IsDir p) (follow : Bool) : lookup t follow (below p []) = .found p := by
  rw [lookup_below t dir]
  rfl

theorem lookup_entry (dir : t.IsDir d) (n : FileName) (follow : Bool) :
    lookup t follow (below (d ++ [n]) []) =
      match t.node (d ++ [n]) with
      | none => .missing d n
      | some (.dir _) => .found (d ++ [n])
      | some (.file _ _) => .found (d ++ [n])
      | some (.link target) =>
        if follow then
          resolve readTarget t follow (kMaxSymlinks - 1) (if (readTarget target).1 then [] else d)
            (readTarget target).2
        else .found (d ++ [n]) := by
  have steps : osSteps [n.1] = [.name n] := by
    rw [osSteps, toStep_fileName, if_neg n.2.2.2.2.1]
    rfl
  rw [below_child, lookup_below t dir, steps]
  change walk readTarget t follow _ d [.name n] = _
  rw [walk]
  rcases t.node (d ++ [n]) with _ | _ | _ | target
  · rfl
  · rfl
  · rfl
  · cases follow
    · rfl
    · simp only [List.append_nil]
      rfl

theorem statusOf_dir (dir : t.IsDir p) : statusOf t (below p []) = .directory := by
  rw [statusOf, lookup_dir dir]
  exact if_pos dir

theorem below_snoc (p : List FileName) (n : FileName) :
    below p [] ++ [n.1] = below (p ++ [n]) [] := by
  rw [below, below, List.append_nil, List.append_nil, List.map_append]
  rfl

theorem leadingComponents_names (e : List FileName) (rest : OutPath) (dir : t.IsDir (e ++ d)) :
    leadingComponents t (below e []) (below d rest) =
      leadingComponents t (below (e ++ d) []) rest := by
  induction d generalizing e with
  | nil => rw [List.append_nil]; rfl
  | cons n d ih =>
    have split : e ++ n :: d = e ++ [n] ++ d := by rw [List.append_assoc]; rfl
    rw [split] at dir ⊢
    have first : below (n :: d) rest = n.1 :: below d rest := rfl
    have upper := dir.prefix (List.prefix_append (e ++ [n]) d)
    rw [first, leadingComponents, below_snoc, statusOf_dir upper]
    exact ih (e ++ [n]) dir

theorem lexicallyNormal_names (p : List FileName) : lexicallyNormal (below p []) = below p [] := by
  have kept : ∀ names : OutPath, (below p []).foldl (fun names c =>
      if c = dot ∨ c = [] then names
      else if c = dotDot then names.dropLast
      else names ++ [c]) names = names ++ below p [] := by
    induction p with
    | nil => exact fun names => (List.append_nil names).symm
    | cons n p ih =>
      intro names
      have first : below (n :: p) [] = n.1 :: below p [] := rfl
      rw [first, List.foldl_cons, if_neg (not_or.mpr ⟨n.2.2.1, n.2.1⟩), if_neg n.2.2.2.1, ih,
        List.append_assoc]
      rfl
  unfold lexicallyNormal
  rw [kept, List.nil_append]
  rcases last : (below p []).getLast? with _ | c
  · rfl
  · have member : c ∈ below p [] := List.mem_of_getLast? last
    rw [below, List.append_nil, List.mem_map] at member
    obtain ⟨n, -, rfl⟩ := member
    refine if_neg ?_
    rintro ⟨same | same | same, -⟩
    · exact n.2.2.1 same
    · exact n.2.1 same
    · exact n.2.2.2.1 same

theorem weaklyCanonical_dir (dir : t.IsDir p) :
    weaklyCanonical t (below p []) = .ok (below p []) := by
  rw [weaklyCanonical, lookup_dir dir]

theorem weaklyCanonical_entry (dir : t.IsDir d) (n : FileName) :
    weaklyCanonical t (below (d ++ [n]) []) =
      match lookup t true (below (d ++ [n]) []) with
      | .found p => .ok (below p [])
      | .failed => .error eloop
      | .missing _ _ | .notFound => .ok (below (d ++ [n]) []) := by
  have dangling (gone : statusOf t (below (d ++ [n]) []) = .notFound) :
      leadingComponents t [] (below (d ++ [n]) []) = .ok (below d [], [n.1]) := by
    have along := leadingComponents_names (t := t) [] [n.1] dir
    rw [List.nil_append] at along
    rw [below_child]
    refine along.trans ?_
    rw [leadingComponents, below_snoc, gone]
  have normal : lexicallyNormal (below d [n.1]) = below (d ++ [n]) [] := by
    rw [← below_child, lexicallyNormal_names]
  unfold weaklyCanonical
  rcases here : lookup t true (below (d ++ [n]) []) with p | _ | _ | _
  · rfl
  · rw [dangling (by rw [statusOf, here])]
    simp only
    rw [lookup_dir dir]
    exact congrArg Except.ok normal
  · rw [dangling (by rw [statusOf, here])]
    simp only
    rw [lookup_dir dir]
    exact congrArg Except.ok normal
  · rfl

theorem relativeTo_entry (dir : t.IsDir d) (n : FileName) (top : t.IsDir root) :
    relativeTo t (below (d ++ [n]) []) (below root []) =
      match lookup t true (below (d ++ [n]) []) with
      | .found p => .ok (lexicallyRelative (below p []) (below root []))
      | .failed => .error eloop
      | .missing _ _ | .notFound =>
        .ok (lexicallyRelative (below (d ++ [n]) []) (below root [])) := by
  rw [relativeTo, weaklyCanonical_entry dir]
  rcases lookup t true (below (d ++ [n]) []) with p | _ | _ | _ <;>
    simp only [weaklyCanonical_dir top]

/-- A path that `relative` makes an archive path of leads below the root. -/
theorem under_of_metadataPath (p : List FileName)
    (safe : MetadataPath (relativeText (lexicallyRelative (below p []) (below root [])))) :
    ∃ names, names ≠ [] ∧ p = root ++ names ∧
      lexicallyRelative (below p []) (below root []) = names.map Subtype.val := by
  by_cases under : root <+: p
  · obtain ⟨names, rfl⟩ := under
    have split : below (root ++ names) [] = below root [] ++ below names [] := by
      rw [below, below, below, List.append_nil, List.append_nil, List.append_nil, List.map_append]
    have whole : names.map Subtype.val = below names [] := (List.append_nil _).symm
    by_cases none : names = []
    · subst none
      rw [List.append_nil, lexicallyRelative_self] at safe
      exact absurd safe not_metadataPath_dot
    · refine ⟨names, none, rfl, ?_⟩
      rw [split, whole]
      exact lexicallyRelative_under _
        (by rw [← whole]; exact fun same => none (List.map_eq_nil_iff.mp same))
  · have out : ¬below root [] <+: below p [] := by
      rw [below, below, List.append_nil, List.append_nil]
      intro shown
      exact under ((List.prefix_map_iff_of_injective Subtype.val_injective).mp shown)
    obtain ⟨k, rest, eq, last⟩ := lexicallyRelative_outside out
    rw [eq] at safe
    refine absurd safe (not_metadataPath_dotDot (List.mem_append_left _ ?_) ?_)
    · exact List.mem_replicate.mpr ⟨Nat.succ_ne_zero k, rfl⟩
    · intro c member
      rcases List.mem_append.mp member with up | inner
      · rw [List.eq_of_mem_replicate up]
        exact ⟨by decide, by decide⟩
      · exact isSegment_of_mem_names (last.subset inner)

end Relative

section Walk
variable (t : SourceTree) {options : ArchiveWriterOptions} {root : List FileName}

theorem mem_walk (fuel : Nat) (d p : List FileName) :
    p ∈ t.walk fuel d ↔ ∃ names, names ≠ [] ∧ names.length ≤ fuel ∧ p = d ++ names ∧
      t.tree.node p ≠ none := by
  induction fuel generalizing d p with
  | zero =>
    refine iff_of_false List.not_mem_nil ?_
    rintro ⟨names, filled, short, -⟩
    exact filled (List.length_eq_zero_iff.mp (Nat.le_zero.mp short))
  | succ fuel ih =>
    rw [SourceTree.walk, List.mem_flatMap]
    constructor
    · rintro ⟨n, listed, member⟩
      rcases List.mem_cons.mp member with rfl | deeper
      · exact ⟨[n], List.cons_ne_nil _ _, Nat.succ_le_succ (Nat.zero_le _), rfl,
          (t.listed d n).mp listed⟩
      · split at deeper
        · obtain ⟨names, -, short, rfl, there⟩ := (ih _ _).mp deeper
          refine ⟨n :: names, List.cons_ne_nil _ _, Nat.succ_le_succ short, ?_, there⟩
          rw [List.append_assoc]
          rfl
        · exact absurd deeper List.not_mem_nil
    · rintro ⟨names, filled, short, rfl, there⟩
      obtain ⟨n, names, rfl⟩ := List.exists_cons_of_ne_nil filled
      have split : d ++ n :: names = d ++ [n] ++ names := by rw [List.append_assoc]; rfl
      rw [split] at there ⊢
      have first : t.tree.node (d ++ [n]) ≠ none := by
        intro absent
        exact there <| t.tree.none_of_prefix (List.prefix_append _ _) absent
      refine ⟨n, (t.listed d n).mpr first, ?_⟩
      by_cases none : names = []
      · rw [none, List.append_nil]
        exact List.mem_cons_self
      · have dir : t.tree.IsDir (d ++ [n]) :=
          t.tree.isDir_of_prefix (List.prefix_append _ _)
            (fun same => none (List.append_right_eq_self.mp same.symm)) there
        rw [if_pos dir]
        exact List.mem_cons_of_mem _
          ((ih _ _).mpr ⟨names, none, Nat.le_of_succ_le_succ short, rfl, there⟩)

theorem walk_nodup (fuel : Nat) (d : List FileName) : (t.walk fuel d).Nodup := by
  induction fuel generalizing d with
  | zero => exact List.nodup_nil
  | succ fuel ih =>
    have under : ∀ n p, p ∈ (d ++ [n]) ::
        (if t.tree.IsDir (d ++ [n]) then t.walk fuel (d ++ [n]) else []) → d ++ [n] <+: p := by
      intro n p member
      rcases List.mem_cons.mp member with rfl | deeper
      · exact List.prefix_refl _
      · split at deeper
        · obtain ⟨names, -, -, rfl, -⟩ := (mem_walk t _ _ _).mp deeper
          exact List.prefix_append _ _
        · exact absurd deeper List.not_mem_nil
    rw [SourceTree.walk, List.nodup_flatMap]
    constructor
    · intro n _
      split
      · refine List.nodup_cons.mpr ⟨fun again => ?_, ih _⟩
        obtain ⟨names, filled, -, same, -⟩ := (mem_walk t _ _ _).mp again
        exact filled (List.append_right_eq_self.mp same.symm)
      · exact List.nodup_singleton _
    · refine (t.nodup d).imp fun {n m} other p left right => other ?_
      have short : (d ++ [n]).length = (d ++ [m]).length := by
        rw [List.length_append, List.length_append]
        rfl
      have same := List.prefix_of_prefix_length_le (under n p left) (under m p right)
        (Nat.le_of_eq short)
      exact (List.singleton_inj.mp (List.append_cancel_left (same.eq_of_length short)))

theorem inTurn_sublist (visit : FileName → List (List FileName) × Bool) (names : List FileName) :
    (SourceTree.inTurn visit names).1.Sublist (names.flatMap fun n => (visit n).1) := by
  induction names with
  | nil => exact List.Sublist.refl _
  | cons n names ih =>
    rw [List.flatMap_cons, SourceTree.inTurn]
    split
    · exact List.sublist_append_left _ _
    · exact (List.Sublist.refl _).append ih

/-- The iterator finds nothing that is not there, and everything at most once. -/
theorem iterate_sublist (fuel : Nat) (d : List FileName) :
    (t.iterate fuel d).1.Sublist (t.walk fuel d) := by
  induction fuel generalizing d with
  | zero => exact List.Sublist.refl _
  | succ fuel ih =>
    have listed : ((t.reading d).entries (t.listing d)).Sublist (t.listing d) := by
      cases t.reading d with
      | whole => exact List.Sublist.refl _
      | denied count | failed count => exact List.take_sublist _ _
    rw [SourceTree.walk, SourceTree.iterate]
    refine (inTurn_sublist _ _).trans ((listed.flatMap _).trans
      (List.Sublist.flatMap_right (t.listing d) fun n _ => ?_))
    split
    · exact (ih _).cons_cons _
    · exact List.Sublist.refl _

theorem inTurn_of_fine {visit : FileName → List (List FileName) × Bool} (names : List FileName)
    (fine : ∀ n, (visit n).2 = false) :
    SourceTree.inTurn visit names = (names.flatMap fun n => (visit n).1, false) := by
  induction names with
  | nil => rfl
  | cons n names ih => rw [SourceTree.inTurn, if_neg (by rw [fine n]; exact Bool.false_ne_true), ih,
      List.flatMap_cons]

/-- Where every directory can be read, the iterator finds everything. -/
theorem iterate_of_whole (readable : ∀ d, t.reading d = .whole) (fuel : Nat) (d : List FileName) :
    t.iterate fuel d = (t.walk fuel d, false) := by
  induction fuel generalizing d with
  | zero => rfl
  | succ fuel ih =>
    rw [SourceTree.iterate, SourceTree.walk, readable d]
    simp only [ih]
    rw [inTurn_of_fine _ fun n => by split <;> rfl]
    refine Prod.ext (List.flatMap_congr fun n _ => ?_) rfl
    split <;> rfl

theorem of_mem_walkedEntries {e : DirectoryEntry} (member : e ∈ walkedEntries t options root) :
    (∃ names, names ≠ [] ∧ e.path = root ++ names) ∧
      (∃ x, t.tree.node e.path = some x ∧ e.type = SourceNode.type x) ∧
      (e.type = .symlink → options.includeSymlinks = true) := by
  obtain ⟨found, kept⟩ := List.mem_filter.mp member
  obtain ⟨p, inside, same⟩ := List.mem_filterMap.mp found
  obtain ⟨names, filled, -, rfl, -⟩ :=
    (mem_walk t _ _ _).mp ((iterate_sublist t _ _).subset inside)
  rw [SourceTree.entryAt, Option.map_eq_some_iff] at same
  obtain ⟨x, here, rfl⟩ := same
  refine ⟨⟨names, filled, rfl⟩, ⟨x, here, rfl⟩, fun link => ?_⟩
  rw [link] at kept
  simpa using kept

theorem mem_walkedEntries {p : List FileName} {x : SourceNode} (here : t.tree.node p = some x)
    (included : SourceNode.type x = .symlink → options.includeSymlinks = true) :
    (⟨p, SourceNode.type x⟩ : DirectoryEntry) ∈ walkedEntries t options root ↔
      p ∈ (t.iterate (t.height + 1) root).1 := by
  have entry : t.entryAt p = some ⟨p, SourceNode.type x⟩ := by
    rw [SourceTree.entryAt, here, Option.map_some]
  rw [walkedEntries, List.mem_filter, List.mem_filterMap]
  constructor
  · rintro ⟨⟨q, inside, same⟩, -⟩
    rw [SourceTree.entryAt, Option.map_eq_some_iff] at same
    obtain ⟨_, -, same⟩ := same
    obtain rfl : q = p := congrArg DirectoryEntry.path same
    exact inside
  · refine fun inside => ⟨⟨p, inside, entry⟩, ?_⟩
    rcases kind : SourceNode.type x with _ | _ | _ | _
    all_goals simp [kind] at included ⊢
    exact included

theorem walkedEntries_paths_nodup :
    ((walkedEntries t options root).map DirectoryEntry.path).Nodup := by
  have paths : ∀ l : List (List FileName),
      ((l.filterMap t.entryAt).map DirectoryEntry.path).Sublist l := by
    intro l
    induction l with
    | nil => exact List.Sublist.refl _
    | cons p l ih =>
      rcases here : t.tree.node p with _ | x
      · rw [List.filterMap_cons_none (by rw [SourceTree.entryAt, here]; rfl)]
        exact ih.cons p
      · rw [List.filterMap_cons_some (by rw [SourceTree.entryAt, here]; rfl)]
        exact ih.cons_cons p
  exact ((walk_nodup t _ _).sublist (iterate_sublist t _ _)).sublist
    ((List.filter_sublist.map DirectoryEntry.path).trans (paths _))

end Walk

section Order
variable {t : SourceTree} {root : List FileName} {entries sorted : List DirectoryEntry}

theorem withKeys_ok {keyed : List (Bytes × DirectoryEntry)}
    (made : withKeys t root entries = .ok keyed) :
    keyed.map Prod.snd = entries ∧ ∀ k ∈ keyed, sortKey t root k.2 = .ok k.1 := by
  induction entries generalizing keyed with
  | nil =>
    cases made
    exact ⟨rfl, fun k member => absurd member List.not_mem_nil⟩
  | cons e entries ih =>
    rw [withKeys, Result.bind_eq_ok] at made
    obtain ⟨key, first, made⟩ := made
    rw [Result.bind_eq_ok] at made
    obtain ⟨rest, made, same⟩ := made
    cases same
    obtain ⟨entries_, keys⟩ := ih made
    refine ⟨by rw [List.map_cons, entries_], fun k member => ?_⟩
    rcases List.mem_cons.mp member with rfl | member
    · exact first
    · exact keys k member

instance : Std.Total KeyLe := ⟨fun a b => List.le_total a.1 b.1⟩

instance : IsTrans (Bytes × DirectoryEntry) KeyLe := ⟨fun _ _ _ ab bc => List.le_trans ab bc⟩

theorem sortEntries_ok (made : sortEntries t root entries = .ok sorted) :
    sorted.Perm entries ∧ sorted.Pairwise fun a b => ∀ ka kb,
      sortKey t root a = .ok ka → sortKey t root b = .ok kb → ka ≤ kb := by
  unfold sortEntries at made
  split at made
  · next few =>
    cases made
    refine ⟨List.Perm.refl _, ?_⟩
    match entries, few with
    | [], _ => exact List.Pairwise.nil
    | [e], _ => exact List.pairwise_singleton _ e
  · rw [Result.bind_eq_ok] at made
    obtain ⟨keyed, made, same⟩ := made
    cases same
    obtain ⟨rfl, keys⟩ := withKeys_ok made
    have perm := List.perm_insertionSort KeyLe keyed
    refine ⟨perm.map Prod.snd, List.pairwise_map.mpr ?_⟩
    refine (List.pairwise_insertionSort KeyLe keyed).imp_of_mem fun {a b} left right le => ?_
    intro ka kb first second
    rw [keys a (perm.subset left)] at first
    rw [keys b (perm.subset right)] at second
    cases first
    cases second
    exact le

end Order
end Bseal.Archive
