import Bseal.Lib.FileTree

/-! How paths are resolved piece by piece, and in a tree that holds less. -/
namespace FileTree
variable {ν κ α τ : Type}

def Tree.Sub (u t : Tree ν κ α τ) : Prop := ∀ p x, u.node p = some x → t.node p = some x

theorem Tree.Sub.isDir {u t : Tree ν κ α τ} (sub : u.Sub t) {p : List ν} (dir : u.IsDir p) :
    t.IsDir p := by
  obtain ⟨a, here⟩ := dir
  exact ⟨a, sub p _ here⟩

theorem Tree.Sub.trans {u t v : Tree ν κ α τ} (first : u.Sub t) (second : t.Sub v) : u.Sub v :=
  fun p x here => second p x (first p x here)

theorem Tree.sub_erase [DecidableEq ν] (t : Tree ν κ α τ) (p : List ν) : (t.erase p).Sub t := by
  intro q x here
  unfold erase at here
  split at here
  · exact here
  · simp only at here
    split at here
    · cases here
    · exact here

theorem Tree.sub_clear [DecidableEq ν] (t : Tree ν κ α τ) (p : List ν) : (t.clear p).Sub t := by
  intro q x here
  rw [t.clear_node] at here
  split at here
  · cases here
  · exact here

theorem Tree.sub_put [DecidableEq ν] (t : Tree ν κ α τ) (d : List ν) (n : ν) (x : Node κ α τ) :
    t.Sub (t.put d n x) := by
  intro p y here
  by_cases new : p = d ++ [n]
  · rw [put, dif_neg]
    · exact here
    · rintro ⟨-, absent⟩
      rw [← new, here] at absent
      cases absent
  · rw [t.put_node_of_ne x new]
    exact here

section Front
variable (reads : τ → Bool × List (Step ν)) (t : Tree ν κ α τ) (follow : Bool)

def Outcome.Then (limit : Nat) (rest : List (Step ν)) : Outcome ν → Outcome ν → Prop
  | .found q, o =>
    (t.IsDir q ∧ ∃ k ≤ limit, o = resolve reads t follow k q rest) ∨ (¬t.IsDir q ∧ o = .notFound)
  | .missing _ _, o | .notFound, o => o = .notFound
  | .failed, o => o = .failed

variable {reads t follow}

theorem Outcome.Then.mono {limit limit' : Nat} {rest : List (Step ν)} {o o' : Outcome ν}
    (next : o.Then reads t follow limit rest o') (more : limit ≤ limit') :
    o.Then reads t follow limit' rest o' := by
  cases o with
  | found q =>
    rcases next with ⟨dir, k, le, same⟩ | leaf
    · exact .inl ⟨dir, k, le.trans more, same⟩
    · exact .inr leaf
  | missing | notFound | failed => exact next

theorem walk_append {limit : Nat} {rest : List (Step ν)} (more : rest ≠ [])
    {again again' : List ν → List (Step ν) → Outcome ν}
    (same : ∀ cur, t.IsDir cur →
      ∃ k ≤ limit, walk reads t follow again' cur rest = resolve reads t follow k cur rest)
    (after : ∀ cur front, t.IsDir cur →
      (again cur front).Then reads t follow limit rest (again' cur (front ++ rest)))
    (front : List (Step ν)) {cur : List ν} (dir : t.IsDir cur) :
    (walk reads t true again cur front).Then reads t follow limit rest
      (walk reads t follow again' cur (front ++ rest)) := by
  induction front generalizing cur with
  | nil => exact .inl ⟨dir, same cur dir⟩
  | cons step front ih =>
    cases step with
    | self => exact ih dir
    | up => exact ih dir.dropLast
    | name n =>
      have behind : (front ++ rest).isEmpty = false := by
        rw [List.isEmpty_eq_false_iff]
        exact List.append_ne_nil_of_right_ne_nil front more
      rw [List.cons_append, walk, walk, behind]
      rcases here : t.node (cur ++ [n]) with _ | a | ⟨a, content⟩ | target
      · cases front <;> rfl
      · exact ih ⟨a, here⟩
      · cases front with
        | nil =>
          refine .inr ⟨?_, rfl⟩
          rintro ⟨b, there⟩
          rw [here] at there
          cases there
        | cons => rfl
      · simp only [Bool.not_true, Bool.and_false, Bool.false_and, Bool.false_eq_true, if_false]
        rw [← List.append_assoc]
        refine after _ _ ?_
        split
        · exact t.root
        · exact dir

theorem resolve_append (limit : Nat) {rest : List (Step ν)} (more : rest ≠ [])
    (front : List (Step ν)) {cur : List ν} (dir : t.IsDir cur) :
    (resolve reads t true limit cur front).Then reads t follow limit rest
      (resolve reads t follow limit cur (front ++ rest)) := by
  induction limit generalizing cur front with
  | zero =>
    refine walk_append more (fun cur _ => ⟨0, le_rfl, rfl⟩) ?_ front dir
    exact fun _ _ _ => rfl
  | succ limit ih =>
    exact walk_append more (fun cur _ => ⟨limit + 1, le_rfl, rfl⟩)
      (fun cur front dir => (ih front dir).mono (Nat.le_succ limit)) front dir

end Front

section Moves
variable (reads : τ → Bool × List (Step ν)) (t : Tree ν κ α τ) (follow : Bool)

theorem moves_append (front rest : List (Step ν)) :
    moves (front ++ rest) = moves front ++ moves rest :=
  List.filter_append _ _

theorem moves_moves (steps : List (Step ν)) : moves (moves steps) = moves steps := by
  unfold moves
  rw [List.filter_filter]
  simp only [Bool.and_self]

theorem getLast?_moves {steps : List (Step ν)} {n : ν} (last : steps.getLast? = some (.name n)) :
    (moves steps).getLast? = some (.name n) := by
  obtain ⟨front, rfl⟩ := List.getLast?_eq_some_iff.mp last
  rw [moves_append]
  exact List.getLast?_concat ..

theorem walk_moves {again : List ν → List (Step ν) → Outcome ν}
    (after : ∀ cur steps n, steps.getLast? = some (.name n) →
      again cur steps = again cur (moves steps))
    (cur : List ν) (steps : List (Step ν)) (n : ν) (last : steps.getLast? = some (.name n)) :
    walk reads t follow again cur steps = walk reads t follow again cur (moves steps) := by
  induction steps generalizing cur with
  | nil => cases last
  | cons step rest ih =>
    by_cases single : rest = []
    · subst single
      obtain rfl := Option.some.inj last
      rfl
    have later : rest.getLast? = some (.name n) := by
      rwa [List.getLast?_cons_of_ne_nil single] at last
    have some : moves rest ≠ [] := by
      intro none
      have there := getLast?_moves later
      rw [none] at there
      cases there
    cases step with
    | self => exact ih cur later
    | up => exact ih cur.dropLast later
    | name m =>
      change walk reads t follow again cur (.name m :: rest) =
        walk reads t follow again cur (.name m :: moves rest)
      have more : rest.isEmpty = false := List.isEmpty_eq_false_iff.mpr single
      have more' : (moves rest).isEmpty = false := List.isEmpty_eq_false_iff.mpr some
      rw [walk, walk, more, more']
      rcases t.node (cur ++ [m]) with _ | a | ⟨a, content⟩ | target
      · rfl
      · exact ih _ later
      · rfl
      · have ends : ∀ steps : List (Step ν), steps.getLast? = .some (.name n) →
            ((reads target).2 ++ steps).getLast? = .some (.name n) := by
          intro steps there
          rw [List.getLast?_append, there]
          rfl
        simp only [Bool.false_and, Bool.false_eq_true, if_false]
        rw [after _ _ n (ends rest later), after _ _ n (ends _ (getLast?_moves later)),
          moves_append, moves_append, moves_moves]

theorem resolve_moves (limit : Nat) (cur : List ν) (steps : List (Step ν)) (n : ν)
    (last : steps.getLast? = some (.name n)) :
    resolve reads t follow limit cur steps = resolve reads t follow limit cur (moves steps) := by
  induction limit generalizing cur steps n with
  | zero => exact walk_moves reads t follow (fun _ _ _ _ => rfl) cur steps n last
  | succ limit ih => exact walk_moves reads t follow ih cur steps n last

end Moves

section Sub
variable {reads : τ → Bool × List (Step ν)} {t u : Tree ν κ α τ} {follow : Bool}

theorem walk_of_sub (sub : u.Sub t) {again again' : List ν → List (Step ν) → Outcome ν}
    {q : List ν}
    (after : ∀ cur steps, again cur steps = .found q → again' cur steps = .found q)
    (cur : List ν) (steps : List (Step ν))
    (found : walk reads u follow again cur steps = .found q) :
    walk reads t follow again' cur steps = .found q := by
  induction steps generalizing cur with
  | nil => exact found
  | cons step rest ih =>
    cases step with
    | self => exact ih cur found
    | up => exact ih _ found
    | name n =>
      rw [walk] at found ⊢
      rcases here : u.node (cur ++ [n]) with _ | x
      · rw [here] at found
        simp only at found
        split at found <;> cases found
      · rw [here] at found
        rw [sub _ x here]
        rcases x with a | ⟨a, content⟩ | target
        · exact ih _ found
        · exact found
        · simp only at found ⊢
          split at found
          · next stays =>
            rw [if_pos stays]
            exact found
          · next goes =>
            rw [if_neg goes]
            exact after _ _ found

theorem resolve_of_sub (sub : u.Sub t) {q : List ν} (limit : Nat) (cur : List ν)
    (steps : List (Step ν)) (found : resolve reads u follow limit cur steps = .found q) :
    resolve reads t follow limit cur steps = .found q := by
  induction limit generalizing cur steps with
  | zero => exact walk_of_sub sub (fun _ _ found => by cases found) cur steps found
  | succ limit ih => exact walk_of_sub sub ih cur steps found

end Sub

section Below
variable {reads : τ → Bool × List (Step ν)} {t u : Tree ν κ α τ} {follow : Bool} {root : List ν}

def Outcome.Dangles : Outcome ν → Prop
  | .missing _ _ | .notFound => True
  | .found _ | .failed => False

theorem dangles_free (cur : List ν) (n : ν) (rest : List (Step ν)) :
    (if rest.isEmpty then Outcome.missing cur n else .notFound).Dangles := by
  split <;> trivial

variable (contained : Contained reads t root)
include contained

theorem walk_dangles
    (kept : ∀ p, root <+: p → u.node p = t.node p ∨ u.node p = none ∧ ¬t.IsDir p)
    {again again' : List ν → List (Step ν) → Outcome ν}
    (after : ∀ cur steps, root <+: cur → .up ∉ steps → (again cur steps).Dangles →
      (again' cur steps).Dangles)
    {cur : List ν} (inside : root <+: cur) {steps : List (Step ν)} (down : .up ∉ steps)
    (dangles : (walk reads t follow again cur steps).Dangles) :
    (walk reads u follow again' cur steps).Dangles := by
  induction steps generalizing cur with
  | nil => exact dangles
  | cons step rest ih =>
    rw [List.mem_cons, not_or] at down
    cases step with
    | self => exact ih inside down.2 dangles
    | up => exact absurd rfl down.1
    | name n =>
      have under : root <+: cur ++ [n] := inside.trans (List.prefix_append cur [n])
      rw [walk] at dangles ⊢
      rcases kept (cur ++ [n]) under with same | ⟨gone, -⟩
      · rw [same]
        rcases here : t.node (cur ++ [n]) with _ | a | ⟨a, content⟩ | target
        · exact dangles_free cur n rest
        · rw [here] at dangles
          exact ih under down.2 dangles
        · rw [here] at dangles
          simp only at dangles ⊢
          split at dangles
          · exact dangles.elim
          · next more =>
            rw [if_neg more]
            trivial
        · rw [here] at dangles
          obtain ⟨relative, down'⟩ := contained _ target under here
          simp only at dangles ⊢
          split at dangles
          · exact dangles.elim
          · next goes =>
            rw [if_neg goes]
            rw [relative] at dangles ⊢
            refine after _ _ inside (fun up => ?_) dangles
            exact (List.mem_append.mp up).elim down' down.2
      · rw [gone]
        exact dangles_free cur n rest

theorem resolve_dangles
    (kept : ∀ p, root <+: p → u.node p = t.node p ∨ u.node p = none ∧ ¬t.IsDir p) (limit : Nat)
    {cur : List ν} (inside : root <+: cur) {steps : List (Step ν)} (down : .up ∉ steps)
    (dangles : (resolve reads t follow limit cur steps).Dangles) :
    (resolve reads u follow limit cur steps).Dangles := by
  induction limit generalizing cur steps with
  | zero => exact walk_dangles contained kept (fun _ _ _ _ => id) inside down dangles
  | succ limit ih =>
    exact walk_dangles contained kept (fun _ _ here clean => ih here clean) inside down dangles

end Below

end FileTree
