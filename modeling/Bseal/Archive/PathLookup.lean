import Bseal.Archive.EntryWalk
import Bseal.Archive.LexicalPaths
import Bseal.Lib.PathResolution

/-! Where the system's lookup of a path of file names leads, name by name, and what dots among the
names change. -/
namespace Bseal.Archive
open FileTree

section Names
variable {κ α : Type} {t : Tree FileName κ α Bytes} {follow : Bool}

theorem osSteps_names (p : List FileName) : osSteps (below p []) = p.map .name := by
  rw [below, osSteps_append_names, osSteps, List.append_nil]

theorem lookup_names (t : Tree FileName κ α Bytes) (follow : Bool) (p : List FileName) :
    lookup t follow (below p []) = resolve readTarget t follow kMaxSymlinks [] (p.map .name) := by
  rw [lookup, osSteps_names]

theorem lookup_append (t : Tree FileName κ α Bytes) (follow : Bool) (p : List FileName)
    {more : List FileName} (filled : more ≠ []) :
    (lookup t true (below p [])).Then readTarget t follow kMaxSymlinks (more.map .name)
      (lookup t follow (below (p ++ more) [])) := by
  rw [lookup_names, lookup_names, List.map_append]
  exact resolve_append _ (fun none => filled (List.map_eq_nil_iff.mp none)) _ t.root

theorem resolve_name (t : Tree FileName κ α Bytes) (k : Nat) (d : List FileName) (n : FileName) :
    resolve readTarget t false k d [.name n] =
      if t.node (d ++ [n]) = none then .missing d n else .found (d ++ [n]) := by
  have one : ∀ again, walk readTarget t false again d [.name n] =
      if t.node (d ++ [n]) = none then .missing d n else .found (d ++ [n]) := by
    intro again
    rw [walk]
    rcases t.node (d ++ [n]) with _ | _ | _ | _ <;> rfl
  cases k with
  | zero => exact one _
  | succ k => exact one _

theorem lookup_snoc {p d : List FileName} (found : lookup t true (below p []) = .found d)
    (dir : t.IsDir d) (n : FileName) :
    lookup t false (below (p ++ [n]) []) =
      if t.node (d ++ [n]) = none then .missing d n else .found (d ++ [n]) := by
  have next := lookup_append t false p (List.cons_ne_nil n [])
  rw [found] at next
  obtain ⟨-, k, -, same⟩ := next.resolve_right fun leaf => leaf.1 dir
  rw [same, List.map_singleton, resolve_name]

theorem lookup_snoc_cases {p : List FileName} (n : FileName) {q : List FileName}
    (led : (lookup t false (below (p ++ [n]) [])).place = some q) :
    ∃ d, lookup t true (below p []) = .found d ∧ t.IsDir d ∧ q = d ++ [n] := by
  have next := lookup_append t false p (List.cons_ne_nil n [])
  rcases parent : lookup t true (below p []) with d | _ | _ | _
  · rw [parent] at next
    rcases next with ⟨dir, -⟩ | ⟨-, gone⟩
    · refine ⟨d, rfl, dir, ?_⟩
      rw [lookup_snoc parent dir] at led
      split at led <;> exact (Option.some.inj led).symm
    · rw [gone] at led
      cases led
  all_goals
    rw [parent] at next
    change lookup t false (below (p ++ [n]) []) = _ at next
    rw [next] at led
    cases led

theorem lookup_front {p more : List FileName} (filled : more ≠ []) {q : List FileName}
    (found : (lookup t follow (below (p ++ more) [])).place = some q) :
    ∃ d, lookup t true (below p []) = .found d ∧ t.IsDir d := by
  have next := lookup_append t follow p filled
  rcases parent : lookup t true (below p []) with d | _ | _ | _
  · rw [parent] at next
    rcases next with ⟨dir, -⟩ | ⟨-, gone⟩
    · exact ⟨d, rfl, dir⟩
    · rw [gone] at found
      cases found
  all_goals
    rw [parent] at next
    change lookup t follow (below (p ++ more) []) = _ at next
    rw [next] at found
    cases found

theorem lookup_prefix {f p : List FileName} (under : f <+: p) {q : List FileName}
    (found : lookup t true (below p []) = .found q) :
    ∃ d, lookup t true (below f []) = .found d := by
  obtain ⟨more, rfl⟩ := under
  by_cases filled : more = []
  · subst filled
    exact ⟨q, by rwa [List.append_nil] at found⟩
  · obtain ⟨d, here, -⟩ := lookup_front filled (by rw [found]; rfl)
    exact ⟨d, here⟩

theorem lookup_snoc_dir {p d : List FileName} (found : lookup t true (below p []) = .found d)
    {n : FileName} (dir : t.IsDir (d ++ [n])) (follow : Bool) :
    lookup t follow (below (p ++ [n]) []) = .found (d ++ [n]) := by
  have next := lookup_append t follow p (List.cons_ne_nil n [])
  rw [found] at next
  have upper := dir.prefix (List.prefix_append d [n])
  obtain ⟨-, k, -, same⟩ := next.resolve_right fun leaf => leaf.1 upper
  rw [same]
  have along := resolve_names readTarget t follow k d [n] [] dir
  rw [List.append_nil] at along
  rw [along]
  cases k <;> rfl

theorem lookup_below_empty {p d more : List FileName} {m : FileName}
    (found : lookup t true (below p []) = .found d) (absent : t.node (d ++ [m]) = none)
    (q : List FileName) : lookup t follow (below (p ++ m :: more) []) ≠ .found q := by
  intro whole
  have next := lookup_append t follow p (List.cons_ne_nil m more)
  rw [found, whole] at next
  rcases next with ⟨-, k, -, same⟩ | ⟨-, gone⟩
  · have one : ∀ again, walk readTarget t follow again d (.name m :: more.map .name) ≠
      .found q := by
      intro again
      rw [walk, absent]
      intro found
      simp only at found
      split at found <;> cases found
    cases k with
    | zero => exact one _ same.symm
    | succ k => exact one _ same.symm
  · cases gone

theorem lookup_missing_follow {p d : List FileName} {n : FileName}
    (missing : lookup t false (below p []) = .missing d n) :
    lookup t true (below p []) = .missing d n := by
  rcases p.eq_nil_or_concat with rfl | ⟨f, m, rfl⟩
  · rw [lookup_names] at missing
    cases missing
  · rw [List.concat_eq_append] at missing ⊢
    obtain ⟨d', parent, dir, same⟩ := lookup_snoc_cases m (by rw [missing]; rfl)
    rw [lookup_snoc parent dir] at missing
    split at missing
    · next absent =>
      obtain ⟨rfl, rfl⟩ := Outcome.missing.inj missing
      have next := lookup_append t true f (List.cons_ne_nil m [])
      rw [parent] at next
      obtain ⟨-, k, -, whole⟩ := next.resolve_right fun leaf => leaf.1 dir
      rw [whole, List.map_singleton]
      have one : ∀ again, walk readTarget t true again d' [.name m] = .missing d' m := by
        intro again
        rw [walk, absent]
        rfl
      cases k with
      | zero => exact one _
      | succ k => exact one _
    · cases missing

theorem missing_snoc {p d : List FileName} {n : FileName}
    (missing : lookup t false (below p []) = .missing d n) :
    ∃ f, p = f ++ [n] ∧ lookup t true (below f []) = .found d ∧ t.IsDir d ∧
      t.node (d ++ [n]) = none := by
  rcases p.eq_nil_or_concat with rfl | ⟨f, m, rfl⟩
  · rw [lookup_names] at missing
    cases missing
  · rw [List.concat_eq_append] at missing ⊢
    obtain ⟨d', parent, dir, -⟩ := lookup_snoc_cases m (by rw [missing]; rfl)
    rw [lookup_snoc parent dir] at missing
    split at missing
    · next absent =>
      obtain ⟨rfl, rfl⟩ := Outcome.missing.inj missing
      exact ⟨f, rfl, parent, dir, absent⟩
    · cases missing

theorem statusOf_found {path : OutPath} {q : List FileName}
    (found : lookup t true path = .found q) :
    statusOf t path = if t.IsDir q then .directory else .other := by
  rw [statusOf, found]

theorem statusOf_directory {path : OutPath} (isDir : statusOf t path = .directory) :
    ∃ q, lookup t true path = .found q ∧ t.IsDir q := by
  rcases led : lookup t true path with q | _ | _ | _
  · rw [statusOf_found led] at isDir
    split at isDir
    · next dir => exact ⟨q, rfl, dir⟩
    · cases isDir
  all_goals
    rw [statusOf, led] at isDir
    cases isDir

theorem lookup_clear {p q : List FileName}
    (clear : ∀ f, f <+: p → ∀ target, t.node f ≠ some (.link target))
    (found : lookup t follow (below p []) = .found q) : q = p := by
  have leads := resolve_leads readTarget t follow kMaxSymlinks [] (p.map .name)
  rw [← lookup_names, found] at leads
  have lexical := leads.lexical (fun front m rest split target => ?_) rfl
  · rwa [lexical_names, List.nil_append] at lexical
  · obtain ⟨f, f', whole, head, tail⟩ := List.map_eq_append_iff.mp split
    obtain ⟨m', f'', rfl, last, -⟩ := List.map_eq_cons_iff.mp tail
    obtain rfl := FileTree.Step.name.inj last
    rw [← head, lexical_names, List.nil_append]
    exact clear (f ++ [m']) ⟨f'', by rw [whole, List.append_assoc]; rfl⟩ target

theorem lookup_physical {p q : List FileName}
    (clear : ∀ f, f <+: p → f ≠ p → ∀ target, t.node f ≠ some (.link target))
    (found : lookup t false (below p []) = .found q) : q = p := by
  rcases p.eq_nil_or_concat with rfl | ⟨f, n, rfl⟩
  · rw [lookup_names] at found
    exact (Outcome.found.inj found).symm
  · rw [List.concat_eq_append] at clear found ⊢
    obtain ⟨d, parent, -, rfl⟩ := lookup_snoc_cases n (by rw [found]; rfl)
    rw [lookup_clear (fun g under => clear g (under.trans (List.prefix_append f [n])) ?_) parent]
    rintro rfl
    simpa using under.length_le

theorem statusOf_behind_missing {f p d : List FileName} {n : FileName} (under : f <+: p)
    (missing : lookup t false (below f []) = .missing d n) :
    statusOf t (below p []) = .notFound := by
  have free := lookup_missing_follow missing
  obtain ⟨more, rfl⟩ := under
  by_cases filled : more = []
  · rw [filled, List.append_nil, statusOf, free]
  · have next := lookup_append t true f filled
    rw [free] at next
    rw [statusOf, show lookup t true (below (f ++ more) []) = .notFound from next]

end Names

section Dots
variable {κ α : Type} {t : Tree FileName κ α Bytes} {follow : Bool} {path : OutPath}

def Plain (path : OutPath) : Prop := ∀ c ∈ path, IsFileName c ∨ c = dot

theorem Plain.clean (plain : Plain path) : ∀ c ∈ path, (0 : Byte) ∉ c := by
  intro c member
  rcases plain c member with name | rfl
  · exact name.2.2.2.1
  · decide

theorem Plain.down (plain : Plain path) : dotDot ∉ path := by
  intro member
  rcases plain dotDot member with name | same
  · exact name.2.2.1 rfl
  · exact absurd same (by decide)

theorem Plain.of_prefix {front : OutPath} (plain : Plain path) (under : front <+: path) :
    Plain front :=
  fun c member => plain c (under.subset member)

theorem Plain.parent (plain : Plain path) : Plain path.parent :=
  plain.of_prefix (List.dropLast_prefix path)

theorem plain_names (p : List FileName) : Plain (below p []) := by
  intro c member
  rw [below, List.append_nil, List.mem_map] at member
  obtain ⟨n, -, rfl⟩ := member
  exact .inl n.2

theorem Plain.append {rest : OutPath} (plain : Plain path) (plain' : Plain rest) :
    Plain (path ++ rest) :=
  fun c member => (List.mem_append.mp member).elim (plain c) (plain' c)

theorem namesIn_append (front rest : OutPath) :
    namesIn (front ++ rest) = namesIn front ++ namesIn rest :=
  List.filterMap_append

theorem namesIn_name (front : OutPath) (n : FileName) :
    namesIn (front ++ [n.1]) = namesIn front ++ [n] := by
  rw [namesIn_append]
  congr 1
  exact List.filterMap_cons_some (dif_pos n.2)

theorem namesIn_dot (front : OutPath) : namesIn (front ++ [dot]) = namesIn front := by
  rw [namesIn_append]
  exact List.append_nil _

theorem namesIn_names (p : List FileName) : namesIn (below p []) = p := by
  induction p using List.reverseRecOn with
  | nil => rfl
  | append_singleton p n ih => rw [← below_snoc, namesIn_name, ih]

theorem osSteps_clean (clean : ∀ c ∈ path, (0 : Byte) ∉ c) : osSteps path = path.map toStep := by
  induction path with
  | nil => rfl
  | cons c path ih =>
    obtain ⟨here, rest⟩ := List.forall_mem_cons.mp clean
    rw [osSteps, if_neg here, ih rest, List.map_cons]

theorem lookup_name (plain : Plain path) (n : FileName) :
    lookup t follow (path ++ [n.1]) = lookup t follow (below (namesIn path ++ [n]) []) := by
  have whole : Plain (path ++ [n.1]) :=
    plain.append fun c member => List.mem_singleton.mp member ▸ .inl n.2
  have last : ((path ++ [n.1]).map toStep).getLast? = some (.name n) := by
    rw [List.map_append, List.map_singleton, toStep_fileName, List.getLast?_concat]
  rw [lookup_names, lookup, osSteps_clean whole.clean, resolve_moves _ _ _ _ _ _ n last,
    moves_down whole.clean whole.down, namesIn_name]

/-- A last component takes its step from where the components before it lead. -/
theorem lookup_end (plain : Plain path) {c : Bytes} (clean : (0 : Byte) ∉ c) :
    (lookup t true path).Then readTarget t follow kMaxSymlinks [toStep c]
      (lookup t follow (path ++ [c])) := by
  have whole : ∀ d ∈ path ++ [c], (0 : Byte) ∉ d := fun d member =>
    (List.mem_append.mp member).elim (plain.clean d) fun last => List.mem_singleton.mp last ▸ clean
  rw [lookup, lookup, osSteps_clean plain.clean, osSteps_clean whole, List.map_append]
  exact resolve_append _ (List.cons_ne_nil _ _) _ t.root

theorem lookup_end_front (plain : Plain path) {c : Bytes} (clean : (0 : Byte) ∉ c)
    {q : List FileName} (led : (lookup t follow (path ++ [c])).place = some q) :
    ∃ d, lookup t true path = .found d ∧ t.IsDir d := by
  have next := @lookup_end _ _ t follow _ plain c clean
  rcases parent : lookup t true path with d | _ | _ | _
  · rw [parent] at next
    rcases next with ⟨dir, -⟩ | ⟨-, gone⟩
    · exact ⟨d, rfl, dir⟩
    · rw [gone] at led
      cases led
  all_goals
    rw [parent] at next
    change lookup t follow (path ++ [c]) = _ at next
    rw [next] at led
    cases led

theorem lookup_end_found (plain : Plain path) {c : Bytes} (clean : (0 : Byte) ∉ c)
    (other : ∀ n, toStep c ≠ .name n) {d : List FileName} (found : lookup t true path = .found d)
    (dir : t.IsDir d) : ∃ q, lookup t follow (path ++ [c]) = .found q := by
  have next := @lookup_end _ _ t follow _ plain c clean
  rw [found] at next
  obtain ⟨-, k, -, same⟩ := next.resolve_right fun leaf => leaf.1 dir
  rcases step : toStep c with _ | _ | m
  · rw [step] at same
    exact ⟨d, same.trans (by cases k <;> rfl)⟩
  · rw [step] at same
    exact ⟨d.dropLast, same.trans (by cases k <;> rfl)⟩
  · exact absurd step (other m)

theorem lookup_end_missing (plain : Plain path) {c : Bytes} (clean : (0 : Byte) ∉ c)
    (other : ∀ n, toStep c ≠ .name n) (d : List FileName) (n : FileName) :
    lookup t follow (path ++ [c]) ≠ .missing d n := by
  intro missing
  obtain ⟨q, parent, dir⟩ := lookup_end_front plain clean (by rw [missing]; rfl)
  obtain ⟨p, found⟩ := @lookup_end_found _ _ t follow _ plain c clean other q parent dir
  cases found.symm.trans missing

theorem statusOf_end_notFound (plain : Plain path) {c : Bytes} (clean : (0 : Byte) ∉ c)
    (gone : statusOf t path = .notFound) : statusOf t (path ++ [c]) = .notFound := by
  have next := @lookup_end _ _ t true _ plain c clean
  rw [statusOf] at gone ⊢
  rcases parent : lookup t true path with d | _ | _ | _
  · rw [parent] at gone
    simp only at gone
    split at gone <;> cases gone
  · rw [parent] at next
    rw [show lookup t true (path ++ [c]) = .notFound from next]
  · rw [parent] at next
    rw [show lookup t true (path ++ [c]) = .notFound from next]
  · rw [parent] at gone
    cases gone

theorem lookup_self_found (plain : Plain path) {c : Bytes} (clean : (0 : Byte) ∉ c)
    (stays : toStep c = .self) {q : List FileName} :
    lookup t follow (path ++ [c]) = .found q ↔ lookup t true path = .found q ∧ t.IsDir q := by
  have stay : ∀ (k : Nat) (d : List FileName),
      resolve readTarget t follow k d [.self] = .found d := fun k d => by cases k <;> rfl
  have next := @lookup_end _ _ t follow _ plain c clean
  rw [stays] at next
  constructor
  · intro found
    obtain ⟨d, parent, dir⟩ := lookup_end_front plain clean (by rw [found]; rfl)
    rw [parent, found] at next
    obtain ⟨-, k, -, same⟩ := next.resolve_right fun leaf => leaf.1 dir
    rw [stay] at same
    cases same
    exact ⟨parent, dir⟩
  · rintro ⟨parent, dir⟩
    rw [parent] at next
    obtain ⟨-, k, -, same⟩ := next.resolve_right fun leaf => leaf.1 dir
    rw [same, stay]

theorem toStep_dot : toStep dot = .self := by decide

theorem unnamed_dot (n : FileName) : toStep dot ≠ .name n := by
  rw [toStep_dot]
  intro same
  cases same

theorem zero_notMem_dot : (0 : Byte) ∉ dot := by decide

theorem found_names (plain : Plain path) {q : List FileName}
    (found : lookup t true path = .found q) :
    lookup t true (below (namesIn path) []) = .found q := by
  induction path using List.reverseRecOn generalizing q with
  | nil => exact found
  | append_singleton front c ih =>
    have upper := plain.of_prefix (List.prefix_append front [c])
    rcases plain c (List.mem_append_right _ List.mem_cons_self) with name | rfl
    · rw [show front ++ [c] = front ++ [(⟨c, name⟩ : FileName).1] from rfl] at found ⊢
      rw [namesIn_name, ← lookup_name upper]
      exact found
    · rw [namesIn_dot]
      exact ih upper ((lookup_self_found upper zero_notMem_dot toStep_dot).mp found).1

theorem found_of_names (plain : Plain path) {q : List FileName}
    (found : lookup t true (below (namesIn path) []) = .found q) (dir : t.IsDir q) :
    lookup t true path = .found q := by
  induction path using List.reverseRecOn generalizing q with
  | nil => exact found
  | append_singleton front c ih =>
    have upper := plain.of_prefix (List.prefix_append front [c])
    rcases plain c (List.mem_append_right _ List.mem_cons_self) with name | rfl
    · rw [show front ++ [c] = front ++ [(⟨c, name⟩ : FileName).1] from rfl] at found ⊢
      rw [namesIn_name] at found
      rw [lookup_name upper]
      exact found
    · rw [namesIn_dot] at found
      refine (lookup_self_found upper zero_notMem_dot toStep_dot).mpr ⟨ih upper found dir, dir⟩

theorem lookup_parent (plain : Plain path) (n : FileName) {q : List FileName}
    (led : (lookup t false (path ++ [n.1])).place = some q) :
    ∃ d, lookup t true path = .found d ∧ t.IsDir d ∧ q = d ++ [n] := by
  rw [lookup_name plain] at led
  obtain ⟨d, parent, dir, same⟩ := lookup_snoc_cases n led
  exact ⟨d, found_of_names plain parent dir, dir, same⟩

theorem statusOf_missing (plain : Plain path) {f d : List FileName} {n : FileName}
    (under : f <+: namesIn path) (missing : lookup t false (below f []) = .missing d n) :
    statusOf t path = .notFound := by
  induction path using List.reverseRecOn with
  | nil => exact statusOf_behind_missing under missing
  | append_singleton front c ih =>
    have upper := plain.of_prefix (List.prefix_append front [c])
    rcases plain c (List.mem_append_right _ List.mem_cons_self) with name | rfl
    · rw [show front ++ [c] = front ++ [(⟨c, name⟩ : FileName).1] from rfl] at under ⊢
      rw [namesIn_name] at under
      rw [statusOf, lookup_name upper, ← statusOf]
      exact statusOf_behind_missing under missing
    · rw [namesIn_dot] at under
      exact statusOf_end_notFound upper zero_notMem_dot (ih upper under)

end Dots
end Bseal.Archive
