import Bseal.Archive.PathLookup
import Bseal.Archive.SafeOutputTree

/-! Destinations as the system reads them, up to their first NUL. The last component read may be a
name, a dot, a slash or `..`; those before it are names and dots. -/
namespace Bseal.Archive
open FileTree

def Downward (path : OutPath) : Prop := ∀ c ∈ path, c ≠ [] ∧ c ≠ dotDot ∧ slash ∉ c

def readNames (path : OutPath) : List FileName := namesIn (cutNames path)

structure Reads (path front : OutPath) (last : Bytes) : Prop where
  plain : Plain front
  read : cutNames path = front ++ [last]
  clean : (0 : Byte) ∉ last
  parent : cutNames path.parent = front ∨ cutNames path.parent = front ++ [last]

section Cut
variable {path : OutPath}

theorem cutNames_clean : ∀ c ∈ cutNames path, (0 : Byte) ∉ c := by
  induction path with
  | nil => exact fun _ member => absurd member List.not_mem_nil
  | cons c cs ih =>
    rw [cutNames, List.forall_mem_cons]
    refine ⟨zero_notMem_cutNul c, ?_⟩
    split
    · exact fun _ member => absurd member List.not_mem_nil
    · exact ih

theorem cutNames_of_clean (clean : ∀ c ∈ path, (0 : Byte) ∉ c) : cutNames path = path := by
  induction path with
  | nil => rfl
  | cons c cs ih =>
    obtain ⟨here, rest⟩ := List.forall_mem_cons.mp clean
    rw [cutNames, if_neg here, cutNul_of_notMem here, ih rest]

theorem cutNames_concat (front : OutPath) (c : Bytes) :
    cutNames (front ++ [c]) = cutNames front ∨
      cutNames (front ++ [c]) = cutNames front ++ [cutNul c] := by
  induction front with
  | nil =>
    refine .inr ?_
    change cutNames [c] = [cutNul c]
    rw [cutNames]
    split <;> rfl
  | cons b front ih =>
    rw [List.cons_append, cutNames, cutNames]
    split
    · exact .inl rfl
    · exact ih.imp (congrArg (cutNul b :: ·)) (congrArg (cutNul b :: ·))

theorem cutNames_mono {front : OutPath} (under : front <+: path) :
    cutNames front <+: cutNames path := by
  obtain ⟨rest, rfl⟩ := under
  induction front with
  | nil => exact List.nil_prefix
  | cons c cs ih =>
    rw [List.cons_append, cutNames, cutNames, List.cons_prefix_cons]
    refine ⟨rfl, ?_⟩
    split
    · exact List.prefix_refl _
    · exact ih

theorem cutNames_below (root : List FileName) (path : OutPath) :
    cutNames (below root path) = below root (cutNames path) := by
  induction root with
  | nil => rfl
  | cons n root ih =>
    change cutNames (n.1 :: below root path) = n.1 :: below root (cutNames path)
    rw [cutNames, if_neg n.2.2.2.2.1, cutNul_fileName, ih]

theorem lookup_cutNames {κ α : Type} (t : Tree FileName κ α Bytes) (follow : Bool)
    (path : OutPath) : lookup t follow (cutNames path) = lookup t follow path := by
  rw [lookup, osSteps_clean cutNames_clean, ← osSteps_cutNames]
  rfl

theorem statusOf_cutNames {κ α : Type} (t : Tree FileName κ α Bytes) (path : OutPath) :
    statusOf t (cutNames path) = statusOf t path := by
  rw [statusOf, statusOf, lookup_cutNames]

theorem readNames_mono {front : OutPath} (under : front <+: path) :
    readNames front <+: readNames path := by
  obtain ⟨rest, whole⟩ := cutNames_mono under
  rw [readNames, readNames, ← whole, namesIn_append]
  exact List.prefix_append _ _

theorem below_path (root : List FileName) (path : OutPath) :
    below root [] ++ path = below root path := by
  rw [below, below, List.append_nil]

theorem namesIn_below (root : List FileName) (path : OutPath) :
    namesIn (below root path) = root ++ namesIn path := by
  rw [← below_path, namesIn_append, namesIn_names]

theorem readNames_below (root : List FileName) (path : OutPath) :
    readNames (below root path) = root ++ readNames path := by
  rw [readNames, cutNames_below, namesIn_below, readNames]

theorem plain_below {path : OutPath} (root : List FileName) (plain : Plain path) :
    Plain (below root path) :=
  below_path root path ▸ (plain_names root).append plain

theorem Downward.of_prefix {front : OutPath} (down : Downward path) (under : front <+: path) :
    Downward front :=
  fun c member => down c (under.subset member)

theorem Downward.parent (down : Downward path) : Downward path.parent :=
  down.of_prefix (List.dropLast_prefix path)

theorem Downward.below (down : Downward path) (root : List FileName) :
    Downward (below root path) := by
  intro c member
  rcases List.mem_append.mp member with member | member
  · obtain ⟨n, -, rfl⟩ := List.mem_map.mp member
    exact ⟨n.2.1, n.2.2.2.1, n.2.2.2.2.2⟩
  · exact down c member

theorem downward_names (p : List FileName) : Downward (Archive.below p []) := by
  have empty : Downward [] := fun _ member => absurd member List.not_mem_nil
  exact empty.below p

theorem Downward.getLast (down : Downward path) : path.getLast? ≠ some [] :=
  fun last => (down [] (List.mem_of_getLast? last)).1 rfl

theorem Downward.plain (down : Downward path) (clean : ∀ c ∈ path, (0 : Byte) ∉ c) :
    Plain path := by
  intro c member
  obtain ⟨filled, level, slashless⟩ := down c member
  rw [or_iff_not_imp_right]
  exact fun other => ⟨filled, other, level, clean c member, slashless⟩

theorem Downward.reads (down : Downward path) (filled : path ≠ []) :
    ∃ front last, Reads path front last := by
  induction path with
  | nil => exact absurd rfl filled
  | cons c cs ih =>
    obtain ⟨here, rest⟩ := List.forall_mem_cons.mp down
    by_cases nul : (0 : Byte) ∈ c
    · refine ⟨[], cutNul c, fun _ member => absurd member List.not_mem_nil, ?_,
        zero_notMem_cutNul c, ?_⟩
      · rw [cutNames, if_pos nul, List.nil_append]
      · cases cs with
        | nil => exact .inl rfl
        | cons d ds =>
          refine .inr ?_
          rw [OutPath.parent, List.dropLast_cons_cons, cutNames, if_pos nul, List.nil_append]
    · have one : Plain [c] := Downward.plain (fun d member => List.mem_singleton.mp member ▸ here)
        fun d member => List.mem_singleton.mp member ▸ nul
      cases cs with
      | nil =>
        refine ⟨[], c, fun _ member => absurd member List.not_mem_nil, ?_, nul, .inl rfl⟩
        rw [cutNames, if_neg nul, cutNul_of_notMem nul]
        rfl
      | cons d ds =>
        obtain ⟨front, last, r⟩ := ih rest (List.cons_ne_nil d ds)
        refine ⟨c :: front, last, one.append r.plain, ?_, r.clean, ?_⟩
        · rw [cutNames, if_neg nul, cutNul_of_notMem nul, r.read, List.cons_append]
        · rw [OutPath.parent, List.dropLast_cons_cons, cutNames, if_neg nul, cutNul_of_notMem nul]
          exact r.parent.imp (congrArg (c :: ·)) (congrArg (c :: ·))

end Cut

theorem cutNames_names (p : List FileName) : cutNames (below p []) = below p [] :=
  cutNames_of_clean (plain_names p).clean

theorem bare_names (p : List FileName) : (below p []).bare = below p [] := by
  rw [OutPath.bare, cutNames_names, if_neg (downward_names p).getLast]

theorem eq_of_toStep {c : Bytes} (clean : (0 : Byte) ∉ c) {n : FileName}
    (step : toStep c = .name n) : c = n.1 := by
  unfold toStep at step
  simp only [cutNul_of_notMem clean] at step
  split at step
  · cases step
    rfl
  · split at step <;> cases step

theorem namesIn_other (front : OutPath) {c : Bytes} (other : ∀ n, toStep c ≠ .name n) :
    namesIn (front ++ [c]) = namesIn front := by
  have unnamed : ¬IsFileName c := fun name => other ⟨c, name⟩ (toStep_fileName ⟨c, name⟩)
  have none : namesIn [c] = [] := List.filterMap_cons_none (dif_neg unnamed)
  rw [namesIn_append, none, List.append_nil]

theorem toStep_nil : toStep [] = .self := by decide

theorem unnamed_nil (n : FileName) : toStep [] ≠ .name n := by
  rw [toStep_nil]
  intro same
  cases same

theorem readNames_dot (front : OutPath) : readNames (front ++ [dot]) = readNames front := by
  rcases cutNames_concat front dot with same | same
  · rw [readNames, same, readNames]
  · rw [readNames, same, cutNul_of_notMem zero_notMem_dot, namesIn_dot, readNames]

section Reads
variable {t : DiskTree} {path front : OutPath} {last : Bytes} {f d : List FileName} {n : FileName}

theorem Reads.filled (r : Reads path front last) : path ≠ [] := by
  rintro rfl
  exact List.append_ne_nil_of_right_ne_nil front (List.cons_ne_nil last []) r.read.symm

theorem Reads.below (r : Reads path front last) (root : List FileName) :
    Reads (below root path) (below root front) last where
  plain := plain_below root r.plain
  read := by rw [cutNames_below, r.read, ← below_path, ← List.append_assoc, below_path]
  clean := r.clean
  parent := by
    rw [show OutPath.parent (Archive.below root path) = Archive.below root path.parent from
      parent_below r.filled, cutNames_below]
    refine r.parent.imp (fun same => by rw [same]) fun same => ?_
    rw [same, ← below_path, ← List.append_assoc, below_path]

theorem Reads.lookup_eq (r : Reads path front last) (follow : Bool) :
    lookup t follow path = lookup t follow (front ++ [last]) := by
  rw [← lookup_cutNames, r.read]

theorem Reads.readNames_name (r : Reads path front last) (step : toStep last = .name n) :
    readNames path = namesIn front ++ [n] := by
  rw [readNames, r.read, eq_of_toStep r.clean step, namesIn_name]

theorem Reads.readNames_other (r : Reads path front last) (other : ∀ n, toStep last ≠ .name n) :
    readNames path = namesIn front := by
  rw [readNames, r.read, namesIn_other front other]

theorem Reads.lookup_name (r : Reads path front last) (step : toStep last = .name n)
    (follow : Bool) :
    lookup t follow path = lookup t follow (Archive.below (readNames path) []) := by
  rw [r.lookup_eq, r.readNames_name step, eq_of_toStep r.clean step, Archive.lookup_name r.plain]

theorem Reads.missing (r : Reads path front last) (other : ∀ n, toStep last ≠ .name n)
    (follow : Bool) (d : List FileName) (n : FileName) : lookup t follow path ≠ .missing d n := by
  rw [r.lookup_eq]
  exact lookup_end_missing r.plain r.clean other d n

theorem Reads.front_found (r : Reads path front last) {follow : Bool} {q : List FileName}
    (led : (lookup t follow path).place = some q) :
    ∃ d, lookup t true front = .found d ∧ t.IsDir d :=
  lookup_end_front r.plain r.clean (r.lookup_eq (t := t) follow ▸ led)

/-- Where the link at the end leads somewhere, there is a link. -/
theorem Reads.found_place (r : Reads path front last) {q : List FileName}
    (found : lookup t true path = .found q) : ∃ p, lookup t false path = .found p := by
  obtain ⟨x, parent, dir⟩ := r.front_found (by rw [found]; rfl)
  by_cases named : ∃ m, toStep last = .name m
  · obtain ⟨m, step⟩ := named
    have place := lookup_snoc (found_names r.plain parent) dir m
    rw [r.lookup_name step, r.readNames_name step] at found ⊢
    split at place
    · rw [lookup_missing_follow place] at found
      cases found
    · exact ⟨_, place⟩
  · rw [r.lookup_eq]
    exact lookup_end_found r.plain r.clean (not_exists.mp named) parent dir

theorem missing_front (under : f <+: namesIn front)
    (missing : lookup t false (below f []) = .missing d n) (plain : Plain front)
    (q : List FileName) : lookup t true front ≠ .found q := by
  intro found
  obtain ⟨x, here⟩ := lookup_prefix under (found_names plain found)
  rw [lookup_missing_follow missing] at here
  cases here

theorem readNames_missing (down : Downward path) (under : f <+: readNames path)
    (missing : lookup t false (below f []) = .missing d n) (q : List FileName) :
    lookup t false path ≠ .found q := by
  intro found
  by_cases filled : path = []
  · subst filled
    obtain rfl := List.prefix_nil.mp under
    rw [lookup_names] at missing
    cases missing
  obtain ⟨front, last, r⟩ := down.reads filled
  obtain ⟨x, here, -⟩ := r.front_found (by rw [found]; rfl)
  by_cases named : ∃ m, toStep last = .name m
  · obtain ⟨m, step⟩ := named
    rw [r.readNames_name step] at under
    rcases List.prefix_concat_iff.mp under with rfl | inner
    · rw [r.lookup_name step, r.readNames_name step, missing] at found
      cases found
    · exact missing_front inner missing r.plain x here
  · rw [r.readNames_other (not_exists.mp named)] at under
    exact missing_front under missing r.plain x here

theorem missing_readNames (down : Downward path) (missing : lookup t false path = .missing d n) :
    lookup t false (below (readNames path) []) = .missing d n := by
  by_cases filled : path = []
  · subst filled
    rw [show lookup t false [] = .found [] from rfl] at missing
    cases missing
  obtain ⟨front, last, r⟩ := down.reads filled
  by_cases named : ∃ m, toStep last = .name m
  · obtain ⟨m, step⟩ := named
    rwa [r.lookup_name step] at missing
  · exact absurd missing (r.missing (not_exists.mp named) false d n)

theorem statusOf_readNames (down : Downward path) (under : f <+: readNames path)
    (missing : lookup t false (below f []) = .missing d n) : statusOf t path = .notFound := by
  by_cases filled : path = []
  · subst filled
    obtain rfl := List.prefix_nil.mp under
    rw [lookup_names] at missing
    cases missing
  obtain ⟨front, last, r⟩ := down.reads filled
  by_cases named : ∃ m, toStep last = .name m
  · obtain ⟨m, step⟩ := named
    rw [statusOf, r.lookup_name step, ← statusOf]
    exact statusOf_behind_missing under missing
  · rw [r.readNames_other (not_exists.mp named)] at under
    rw [← statusOf_cutNames, r.read]
    exact statusOf_end_notFound r.plain r.clean (statusOf_missing r.plain under missing)

theorem Reads.readNames_le (r : Reads path front last) (n : FileName) :
    ∃ m, readNames path <+: namesIn front ++ [m] := by
  by_cases named : ∃ m, toStep last = .name m
  · obtain ⟨m, step⟩ := named
    exact ⟨m, by rw [r.readNames_name step]⟩
  · refine ⟨n, ?_⟩
    rw [r.readNames_other (not_exists.mp named)]
    exact List.prefix_append _ _

theorem Reads.parent_eq (r : Reads path front last) : OutPath.parent (cutNames path) = front := by
  rw [r.read]
  exact List.dropLast_concat

theorem Reads.bare_eq (r : Reads path front last) :
    path.bare = if last = [] then front else front ++ [last] := by
  rw [OutPath.bare, r.read, List.getLast?_concat, List.dropLast_concat]
  simp only [Option.some.injEq]

end Reads
end Bseal.Archive
