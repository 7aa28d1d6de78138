import Mathlib.Data.List.Basic
import Mathlib.Data.List.Infix
import Mathlib.Logic.Function.Basic

/-! File trees, their updates and the resolution of paths in them. A tree maps the physical
paths, lists of names below the root, to what is there; a link holds a target that `reads`
takes apart. -/
namespace FileTree

inductive Step (ν : Type) where
  | self
  | up
  | name (n : ν)
  deriving DecidableEq

inductive Node (κ α τ : Type) where
  | dir (attr : α)
  | file (attr : α) (content : κ)
  | link (target : τ)
  deriving DecidableEq

/-- What stands somewhere stands in a directory. -/
structure Tree (ν κ α τ : Type) where
  node : List ν → Option (Node κ α τ)
  root : ∃ a, node [] = some (.dir a)
  closed : ∀ p n, node (p ++ [n]) ≠ none → ∃ a, node p = some (.dir a)

variable {ν κ α τ : Type}

def Node.isDir : Node κ α τ → Bool
  | .dir _ => true
  | _ => false

theorem Node.isDir_iff {x : Node κ α τ} : x.isDir = true ↔ ∃ a, x = .dir a := by
  cases x <;> simp [Node.isDir]

def Node.isLink : Node κ α τ → Bool
  | .link _ => true
  | _ => false

namespace Tree
variable (t : Tree ν κ α τ)

theorem ext_node {t u : Tree ν κ α τ} (same : ∀ p, t.node p = u.node p) : t = u := by
  obtain ⟨node, root, closed⟩ := t
  obtain ⟨node', root', closed'⟩ := u
  obtain rfl : node = node' := funext same
  rfl

def IsDir (p : List ν) : Prop := ∃ a, t.node p = some (.dir a)

theorem isDir_iff (p : List ν) : t.IsDir p ↔ (t.node p).any Node.isDir = true := by
  unfold IsDir
  rcases here : t.node p with _ | _ | _ | _ <;> simp [Node.isDir]

instance (p : List ν) : Decidable (t.IsDir p) := decidable_of_iff _ (t.isDir_iff p).symm

theorem isDir_of_prefix {p q : List ν} (under : p <+: q) (strict : p ≠ q)
    (there : t.node q ≠ none) :
    t.IsDir p := by
  obtain ⟨rest, rfl⟩ := under
  induction rest using List.reverseRecOn with
  | nil => exact absurd (List.append_nil p).symm strict
  | append_singleton rest n ih =>
    rw [← List.append_assoc] at there
    obtain ⟨a, parent⟩ := t.closed _ _ there
    cases rest with
    | nil => exact ⟨a, by rw [← parent, List.append_nil]⟩
    | cons m rest => exact ih (by simp) (by rw [parent]; exact Option.some_ne_none _)

theorem IsDir.ne_none {t : Tree ν κ α τ} {p : List ν} (dir : t.IsDir p) : t.node p ≠ none := by
  obtain ⟨a, here⟩ := dir
  rw [here]
  exact Option.some_ne_none _

theorem IsDir.prefix {t : Tree ν κ α τ} {p q : List ν} (dir : t.IsDir q) (under : p <+: q) :
    t.IsDir p := by
  by_cases same : p = q
  · exact same ▸ dir
  · exact t.isDir_of_prefix under same dir.ne_none

theorem IsDir.dropLast {t : Tree ν κ α τ} {p : List ν} (dir : t.IsDir p) : t.IsDir p.dropLast :=
  dir.prefix (List.dropLast_prefix p)

theorem none_of_prefix {p q : List ν} (under : p <+: q) (absent : t.node p = none) :
    t.node q = none := by
  by_contra there
  by_cases same : p = q
  · exact there (same ▸ absent)
  · exact (t.isDir_of_prefix under same there).ne_none absent

/-- The trees differ at `root` and below only. -/
def SameOutside (root : List ν) (t u : Tree ν κ α τ) : Prop :=
  ∀ p, ¬root <+: p → t.node p = u.node p

theorem SameOutside.refl (root : List ν) : SameOutside root t t := fun _ _ => rfl

variable {t} in
theorem SameOutside.trans {root : List ν} {u v : Tree ν κ α τ} (first : SameOutside root t u)
    (second : SameOutside root u v) : SameOutside root t v :=
  fun p out => (first p out).trans (second p out)

def empty (a : α) : Tree ν κ α τ where
  node p := if p.isEmpty then some (.dir a) else none
  root := ⟨a, rfl⟩
  closed p n there := by
    rw [if_neg (by simp)] at there
    exact absurd rfl there

variable [DecidableEq ν]

def directories (a : α) (paths : List (List ν)) : Tree ν κ α τ where
  node q := if q = [] ∨ ∃ p ∈ paths, q <+: p then some (.dir a) else none
  root := ⟨a, if_pos (.inl rfl)⟩
  closed q n there := by
    refine ⟨a, if_pos ?_⟩
    by_contra off
    refine there (if_neg ?_)
    rintro (empty | ⟨p, member, under⟩)
    · exact absurd empty (by simp)
    · exact off (.inr ⟨p, member, (List.prefix_append q [n]).trans under⟩)

theorem directories_node (a : α) {paths : List (List ν)} {p q : List ν} (member : p ∈ paths)
    (under : q <+: p) : (directories a paths : Tree ν κ α τ).node q = some (.dir a) :=
  if_pos (.inr ⟨p, member, under⟩)

theorem directories_only (a : α) (paths : List (List ν)) {q : List ν} {x : Node κ α τ}
    (here : (directories a paths : Tree ν κ α τ).node q = some x) : x = .dir a := by
  unfold directories at here
  simp only at here
  split at here
  · exact (Option.some.inj here).symm
  · cases here

def put (d : List ν) (n : ν) (x : Node κ α τ) : Tree ν κ α τ :=
  if here : t.IsDir d ∧ t.node (d ++ [n]) = none then
    { node := Function.update t.node (d ++ [n]) (some x)
      root := by rw [Function.update_of_ne (by simp)]; exact t.root
      closed := by
        intro p m there
        have parent : t.IsDir p := by
          by_cases new : p ++ [m] = d ++ [n]
          · rw [List.append_inj_left' new rfl]
            exact here.1
          · rw [Function.update_of_ne new] at there
            exact t.closed p m there
        have old : p ≠ d ++ [n] := by
          rintro rfl
          exact parent.ne_none here.2
        rw [Function.update_of_ne old]
        exact parent }
  else t

theorem put_node {d : List ν} {n : ν} (x : Node κ α τ) (isDir : t.IsDir d)
    (absent : t.node (d ++ [n]) = none) :
    (t.put d n x).node = Function.update t.node (d ++ [n]) (some x) := by
  rw [put, dif_pos ⟨isDir, absent⟩]

theorem put_node_of_ne {d : List ν} {n : ν} (x : Node κ α τ) {p : List ν} (other : p ≠ d ++ [n]) :
    (t.put d n x).node p = t.node p := by
  unfold put
  split
  · exact Function.update_of_ne other _ _
  · rfl

variable {t} in
theorem IsDir.put {p : List ν} (dir : t.IsDir p) (d : List ν) (n : ν) (x : Node κ α τ) :
    (t.put d n x).IsDir p := by
  by_cases new : p = d ++ [n]
  · subst new
    rw [Tree.put, dif_neg fun here => dir.ne_none here.2]
    exact dir
  · unfold IsDir
    rw [put_node_of_ne t x new]
    exact dir

def modify (p : List ν) (f : Node κ α τ → Node κ α τ) (keeps : ∀ x, (f x).isDir = x.isDir) :
    Tree ν κ α τ where
  node := Function.update t.node p ((t.node p).map f)
  root := by
    by_cases here : [] = p
    · subst here
      obtain ⟨a, there⟩ := t.root
      rw [Function.update_self, there]
      obtain ⟨b, changed⟩ := Node.isDir_iff.mp (keeps (.dir a))
      exact ⟨b, congrArg some changed⟩
    · rw [Function.update_of_ne here]
      exact t.root
  closed := by
    intro q n there
    have old : t.node (q ++ [n]) ≠ none := by
      by_cases here : q ++ [n] = p
      · rw [here, Function.update_self, Option.map_eq_none_iff.ne] at there
        rwa [here]
      · rwa [Function.update_of_ne here] at there
    obtain ⟨a, parent⟩ := t.closed q n old
    by_cases here : q = p
    · subst here
      rw [Function.update_self, parent]
      obtain ⟨b, changed⟩ := Node.isDir_iff.mp (keeps (.dir a))
      exact ⟨b, congrArg some changed⟩
    · rw [Function.update_of_ne here]
      exact ⟨a, parent⟩

theorem modify_node (p : List ν) (f : Node κ α τ → Node κ α τ)
    (keeps : ∀ x, (f x).isDir = x.isDir) :
    (t.modify p f keeps).node = Function.update t.node p ((t.node p).map f) := rfl

theorem isDir_modify {p : List ν} (f : Node κ α τ → Node κ α τ)
    (keeps : ∀ x, (f x).isDir = x.isDir) (q : List ν) :
    (t.modify p f keeps).IsDir q ↔ t.IsDir q := by
  rw [isDir_iff, isDir_iff, modify_node]
  by_cases here : q = p
  · subst here
    rw [Function.update_self]
    cases t.node q with
    | none => rfl
    | some x => exact Bool.eq_iff_iff.mp (keeps x)
  · rw [Function.update_of_ne here]

theorem modify_modify (p : List ν) (f g : Node κ α τ → Node κ α τ)
    (keeps : ∀ x, (f x).isDir = x.isDir) (keeps' : ∀ x, (g x).isDir = x.isDir) :
    (t.modify p f keeps).modify p g keeps' =
      t.modify p (g ∘ f) fun x => (keeps' (f x)).trans (keeps x) := by
  refine ext_node fun q => ?_
  rw [modify_node, modify_node, modify_node, Function.update_idem, Function.update_self,
    Option.map_map]

theorem put_modify {d : List ν} {n : ν} (x : Node κ α τ) (isDir : t.IsDir d)
    (absent : t.node (d ++ [n]) = none) (f : Node κ α τ → Node κ α τ)
    (keeps : ∀ x, (f x).isDir = x.isDir) :
    (t.put d n x).modify (d ++ [n]) f keeps = t.put d n (f x) := by
  refine ext_node fun q => ?_
  rw [modify_node, put_node t _ isDir absent, put_node t _ isDir absent, Function.update_idem,
    Function.update_self]
  rfl

/-- Nothing is left at `p` and below, unless `p` is the root. -/
def erase (p : List ν) : Tree ν κ α τ :=
  if root : p = [] then t
  else
    { node := fun q => if p <+: q then none else t.node q
      root := by
        rw [if_neg (by rwa [List.prefix_nil])]
        exact t.root
      closed := by
        intro q n there
        have out : ¬p <+: q ++ [n] := fun under => there (if_pos under)
        rw [if_neg out] at there
        rw [if_neg fun under => out (under.trans (List.prefix_append q [n]))]
        exact t.closed q n there }

theorem erase_node {p : List ν} (below : p ≠ []) (q : List ν) :
    (t.erase p).node q = if p <+: q then none else t.node q := by
  rw [erase, dif_neg below]

theorem erase_gone {p q : List ν} (stands : t.node q ≠ none)
    (gone : (t.erase p).node q = none) : p <+: q := by
  by_cases top : p = []
  · exact top ▸ List.nil_prefix
  · rw [t.erase_node top] at gone
    by_contra out
    rw [if_neg out] at gone
    exact stands gone

def clear (p : List ν) : Tree ν κ α τ where
  node q := if p <+: q ∧ q ≠ p then none else t.node q
  root := by
    rw [if_neg fun below => below.2 (List.prefix_nil.mp below.1).symm]
    exact t.root
  closed := by
    intro q n there
    have out : ¬p <+: q := by
      intro under
      refine there (if_pos ⟨under.trans (List.prefix_append q [n]), ?_⟩)
      rintro rfl
      exact absurd under.length_le (by simp)
    rw [if_neg fun below => out below.1]
    refine t.closed q n fun absent => there ?_
    rw [absent, ite_self]

theorem clear_node (p q : List ν) :
    (t.clear p).node q = if p <+: q ∧ q ≠ p then none else t.node q := rfl

theorem clear_gone {p q : List ν} (stands : t.node q ≠ none)
    (gone : (t.clear p).node q = none) : p <+: q ∧ q ≠ p := by
  rw [t.clear_node] at gone
  by_contra out
  rw [if_neg out] at gone
  exact stands gone

/-- What is at `p` and below goes to the name `n` in `d`, in place of what was there. -/
def move (p d : List ν) (n : ν) : Tree ν κ α τ :=
  if ok : t.IsDir d ∧ ¬p <+: d ∧ ¬d ++ [n] <+: p then
    { node := fun q =>
        if d ++ [n] <+: q then t.node (p ++ q.drop (d.length + 1))
        else if p <+: q then none
        else t.node q
      root := by
        have inner : ¬p <+: [] := by
          intro top
          rw [List.prefix_nil] at top
          exact ok.2.1 (top ▸ List.nil_prefix)
        rw [if_neg (by simp), if_neg inner]
        exact t.root
      closed := by
        intro q m there
        by_cases under : d ++ [n] <+: q
        · obtain ⟨rest, rfl⟩ := under
          have long : (d ++ [n]).length = d.length + 1 := List.length_append
          rw [if_pos (List.prefix_append_of_prefix (List.prefix_append _ rest)), List.append_assoc,
            ← long, List.drop_left, ← List.append_assoc] at there
          rw [if_pos (List.prefix_append _ rest), ← long, List.drop_left]
          exact t.closed _ m there
        · rw [if_neg under]
          by_cases last : d ++ [n] = q ++ [m]
          · obtain rfl := List.append_inj_left' last rfl
            rw [if_neg ok.2.1]
            exact ok.1
          · have out : ¬d ++ [n] <+: q ++ [m] := by
              intro shown
              rcases List.prefix_concat_iff.mp shown with same | inner
              · exact last same
              · exact under inner
            rw [if_neg out] at there
            by_cases gone : p <+: q ++ [m]
            · exact absurd (if_pos gone) there
            · rw [if_neg gone] at there
              rw [if_neg fun inner => gone (inner.trans (List.prefix_append q [m]))]
              exact t.closed q m there }
  else t

theorem move_node {p d : List ν} {n : ν} (isDir : t.IsDir d) (apart : ¬p <+: d)
    (apart' : ¬d ++ [n] <+: p) (q : List ν) :
    (t.move p d n).node q =
      if d ++ [n] <+: q then t.node (p ++ q.drop (d.length + 1))
      else if p <+: q then none
      else t.node q := by
  rw [move, dif_pos ⟨isDir, apart, apart'⟩]

theorem move_node_of_apart {p d : List ν} (n : ν) {q : List ν} (old : ¬p <+: q)
    (new : ¬d ++ [n] <+: q) : (t.move p d n).node q = t.node q := by
  unfold move
  split
  · simp only
    rw [if_neg new, if_neg old]
  · rfl

theorem sameOutside_put {root d : List ν} (n : ν) (x : Node κ α τ) (inside : root <+: d) :
    SameOutside root t (t.put d n x) := by
  intro p out
  unfold put
  split
  · refine (Function.update_of_ne ?_ _ _).symm
    rintro rfl
    exact out (inside.trans (List.prefix_append d [n]))
  · rfl

theorem sameOutside_modify {root p : List ν} (f : Node κ α τ → Node κ α τ)
    (keeps : ∀ x, (f x).isDir = x.isDir) (inside : root <+: p) :
    SameOutside root t (t.modify p f keeps) := by
  intro q out
  refine (Function.update_of_ne ?_ _ _).symm
  rintro rfl
  exact out inside

end Tree
/-- Where a path leads: to what is there, to a place in a directory where nothing is, or nowhere. -/
inductive Outcome (ν : Type) where
  | found (p : List ν)
  | missing (dir : List ν) (n : ν)
  | notFound
  | failed
  deriving DecidableEq

section Resolve
variable (reads : τ → Bool × List (Step ν)) (t : Tree ν κ α τ) (follow : Bool)

/-- One pass along the steps; `again` goes on after a link. -/
def walk (again : List ν → List (Step ν) → Outcome ν) : List ν → List (Step ν) → Outcome ν
  | cur, [] => .found cur
  | cur, .self :: rest => walk again cur rest
  | cur, .up :: rest => walk again cur.dropLast rest
  | cur, .name n :: rest =>
    match t.node (cur ++ [n]) with
    | none => if rest.isEmpty then .missing cur n else .notFound
    | some (.dir _) => walk again (cur ++ [n]) rest
    | some (.file _ _) => if rest.isEmpty then .found (cur ++ [n]) else .notFound
    | some (.link target) =>
      if rest.isEmpty && !follow then .found (cur ++ [n])
      else again (if (reads target).1 then [] else cur) ((reads target).2 ++ rest)

/-- Resolution over at most `limit` links; a last link is followed when `follow` says so. -/
def resolve : Nat → List ν → List (Step ν) → Outcome ν
  | 0 => walk reads t follow fun _ _ => .failed
  | limit + 1 => walk reads t follow (resolve limit)

/-- The rules of resolution. It may fail anywhere, after too many links. -/
inductive Leads : List ν → List (Step ν) → Outcome ν → Prop where
  | failed (cur : List ν) (steps : List (Step ν)) : Leads cur steps .failed
  | here (cur : List ν) : Leads cur [] (.found cur)
  | self {cur rest o} (next : Leads cur rest o) : Leads cur (.self :: rest) o
  | up {cur rest o} (next : Leads cur.dropLast rest o) : Leads cur (.up :: rest) o
  | missing {cur n} (absent : t.node (cur ++ [n]) = none) : Leads cur [.name n] (.missing cur n)
  | stuck {cur n rest} (leaf : ¬t.IsDir (cur ++ [n])) (more : rest ≠ []) :
    Leads cur (.name n :: rest) .notFound
  | dir {cur n rest o} (isDir : t.IsDir (cur ++ [n])) (next : Leads (cur ++ [n]) rest o) :
    Leads cur (.name n :: rest) o
  | file {cur n a content} (here : t.node (cur ++ [n]) = some (.file a content)) :
    Leads cur [.name n] (.found (cur ++ [n]))
  | last {cur n target} (here : t.node (cur ++ [n]) = some (.link target))
      (stays : follow = false) :
    Leads cur [.name n] (.found (cur ++ [n]))
  | link {cur n rest target o} (here : t.node (cur ++ [n]) = some (.link target))
    (goes : rest ≠ [] ∨ follow = true)
    (next : Leads (if (reads target).1 then [] else cur) ((reads target).2 ++ rest) o) :
    Leads cur (.name n :: rest) o

theorem walk_leads {again : List ν → List (Step ν) → Outcome ν}
    (after : ∀ cur steps, Leads reads t follow cur steps (again cur steps)) (cur : List ν)
    (steps : List (Step ν)) :
    Leads reads t follow cur steps (walk reads t follow again cur steps) := by
  induction steps generalizing cur with
  | nil => exact .here cur
  | cons step rest ih =>
    cases step with
    | self => exact .self (ih cur)
    | up => exact .up (ih _)
    | name n =>
      rw [walk]
      rcases here : t.node (cur ++ [n]) with _ | a | ⟨a, content⟩ | target
      · have leaf : ¬t.IsDir (cur ++ [n]) := by rintro ⟨b, there⟩; rw [here] at there; cases there
        cases rest with
        | nil => exact .missing here
        | cons => exact .stuck leaf (List.cons_ne_nil _ _)
      · exact .dir ⟨a, here⟩ (ih _)
      · have leaf : ¬t.IsDir (cur ++ [n]) := by rintro ⟨b, there⟩; rw [here] at there; cases there
        cases rest with
        | nil => exact .file here
        | cons => exact .stuck leaf (List.cons_ne_nil _ _)
      · simp only
        by_cases stays : (rest.isEmpty && !follow) = true
        · rw [if_pos stays]
          rw [Bool.and_eq_true, List.isEmpty_iff, Bool.not_eq_true'] at stays
          obtain ⟨rfl, stays⟩ := stays
          exact .last here stays
        · rw [if_neg stays]
          refine .link here ?_ (after _ _)
          rw [Bool.and_eq_true, List.isEmpty_iff, Bool.not_eq_true', not_and_or,
            Bool.not_eq_false] at stays
          exact stays

theorem resolve_leads (limit : Nat) (cur : List ν) (steps : List (Step ν)) :
    Leads reads t follow cur steps (resolve reads t follow limit cur steps) := by
  induction limit generalizing cur steps with
  | zero => exact walk_leads reads t follow Leads.failed cur steps
  | succ limit ih => exact walk_leads reads t follow ih cur steps

theorem resolve_names (limit : Nat) (cur p : List ν) (rest : List (Step ν))
    (isDir : t.IsDir (cur ++ p)) :
    resolve reads t follow limit cur (p.map .name ++ rest) =
      resolve reads t follow limit (cur ++ p) rest := by
  have along : ∀ again, walk reads t follow again cur (p.map .name ++ rest) =
      walk reads t follow again (cur ++ p) rest := by
    intro again
    induction p generalizing cur with
    | nil => rw [List.append_nil]; rfl
    | cons n p ih =>
      have split : cur ++ n :: p = cur ++ [n] ++ p := by rw [List.append_assoc]; rfl
      rw [split] at isDir ⊢
      obtain ⟨a, here⟩ := isDir.prefix (List.prefix_append (cur ++ [n]) p)
      rw [List.map_cons, List.cons_append, walk, here]
      exact ih _ isDir
  cases limit with
  | zero => exact along _
  | succ limit => exact along _

end Resolve

section Laws
variable {reads : τ → Bool × List (Step ν)} {t : Tree ν κ α τ} {follow : Bool}

/-- What is found is there, and what is missing has a directory to stand in. -/
def Outcome.Sound (t : Tree ν κ α τ) : Outcome ν → Prop
  | .found p => t.node p ≠ none
  | .missing dir n => t.IsDir dir ∧ t.node (dir ++ [n]) = none
  | _ => True

theorem Leads.sound {cur : List ν} {steps : List (Step ν)} {o : Outcome ν}
    (leads : Leads reads t follow cur steps o) (isDir : t.IsDir cur) : o.Sound t := by
  induction leads with
  | failed => trivial
  | here cur => exact isDir.ne_none
  | self _ ih => exact ih isDir
  | up _ ih => exact ih isDir.dropLast
  | missing absent => exact ⟨isDir, absent⟩
  | stuck => trivial
  | dir there _ ih => exact ih there
  | file here =>
    change t.node _ ≠ none
    rw [here]
    exact Option.some_ne_none _
  | last here =>
    change t.node _ ≠ none
    rw [here]
    exact Option.some_ne_none _
  | @link cur n rest target o here goes next ih =>
    refine ih ?_
    split
    · exact t.root
    · exact isDir

/-- Where links are followed to the end, what is found is none. -/
theorem Leads.not_link {cur : List ν} {steps : List (Step ν)} {o : Outcome ν}
    (leads : Leads reads t follow cur steps o) (isDir : t.IsDir cur) (follows : follow = true)
    {p : List ν} (found : o = .found p) (target : τ) : t.node p ≠ some (.link target) := by
  have dirs : ∀ q, t.IsDir q → t.node q ≠ some (.link target) := by
    rintro q ⟨a, here⟩ link
    rw [here] at link
    cases link
  induction leads with
  | failed => cases found
  | here cur =>
    cases found
    exact dirs _ isDir
  | self _ ih => exact ih isDir found
  | up _ ih => exact ih isDir.dropLast found
  | missing => cases found
  | stuck => cases found
  | dir there _ ih => exact ih there found
  | file here =>
    cases found
    rw [here]
    intro link
    cases link
  | last here stays =>
    rw [follows] at stays
    cases stays
  | @link cur n rest target o here goes next ih =>
    refine ih ?_ found
    split
    · exact t.root
    · exact isDir

def EndsInDir (steps : List (Step ν)) : Prop := ∀ n, steps.getLast? ≠ some (.name n)

theorem EndsInDir.tail {step : Step ν} {rest : List (Step ν)}
    (ends : EndsInDir (step :: rest)) : EndsInDir rest := by
  intro n last
  refine ends n ?_
  rw [List.getLast?_cons, last]
  rfl

theorem EndsInDir.ne_nil {n : ν} {rest : List (Step ν)} (ends : EndsInDir (.name n :: rest)) :
    rest ≠ [] := by
  rintro rfl
  exact ends n rfl

def Outcome.Dir (t : Tree ν κ α τ) : Outcome ν → Prop
  | .found p => t.IsDir p
  | .missing _ _ => False
  | _ => True

theorem Leads.dir_of_ends {cur : List ν} {steps : List (Step ν)} {o : Outcome ν}
    (leads : Leads reads t follow cur steps o) (isDir : t.IsDir cur) (ends : EndsInDir steps) :
    o.Dir t := by
  induction leads with
  | failed => trivial
  | here cur => exact isDir
  | self _ ih => exact ih isDir ends.tail
  | up _ ih => exact ih isDir.dropLast ends.tail
  | missing => exact absurd rfl ends.ne_nil
  | stuck => trivial
  | dir there _ ih => exact ih there ends.tail
  | file => exact absurd rfl ends.ne_nil
  | last => exact absurd rfl ends.ne_nil
  | @link cur n rest target o here goes next ih =>
    refine ih ?_ fun m last => ?_
    · split
      · exact t.root
      · exact isDir
    · rw [List.getLast?_append_of_ne_nil _ ends.ne_nil] at last
      exact ends.tail m last

variable (reads t) in
/-- The links below `root` are relative and never go up. -/
def Contained (root : List ν) : Prop := ∀ p target, root <+: p → t.node p = some (.link target) →
  (reads target).1 = false ∧ .up ∉ (reads target).2

theorem Contained.put [DecidableEq ν] {root : List ν} (contained : Contained reads t root)
    (d : List ν) (n : ν) (x : Node κ α τ) (clean : ∀ target, x = .link target →
      (reads target).1 = false ∧ .up ∉ (reads target).2) :
    Contained reads (t.put d n x) root := by
  intro p target under here
  by_cases fresh : t.IsDir d ∧ t.node (d ++ [n]) = none
  · rw [t.put_node x fresh.1 fresh.2] at here
    by_cases new : p = d ++ [n]
    · rw [new, Function.update_self] at here
      exact clean target (Option.some.inj here)
    · rw [Function.update_of_ne new] at here
      exact contained p target under here
  · rw [Tree.put, dif_neg fresh] at here
    exact contained p target under here

theorem Contained.modify [DecidableEq ν] {root p : List ν} {f : Node κ α τ → Node κ α τ}
    (contained : Contained reads t root) (keeps : ∀ x, (f x).isDir = x.isDir)
    (links : ∀ x target, f x = .link target → x = .link target) :
    Contained reads (t.modify p f keeps) root := by
  intro q target under here
  rw [Tree.modify_node] at here
  by_cases changed : q = p
  · rw [changed, Function.update_self, Option.map_eq_some_iff] at here
    obtain ⟨x, old, now⟩ := here
    exact contained q target under (by rw [changed, old, links x target now])
  · rw [Function.update_of_ne changed] at here
    exact contained q target under here

def Outcome.Within (root : List ν) : Outcome ν → Prop
  | .found p => root <+: p
  | .missing dir _ => root <+: dir
  | _ => True

theorem Leads.within {root cur : List ν} {steps : List (Step ν)} {o : Outcome ν}
    (leads : Leads reads t follow cur steps o) (contained : Contained reads t root)
    (inside : root <+: cur) (down : .up ∉ steps) : o.Within root := by
  induction leads with
  | failed => trivial
  | here => exact inside
  | self _ ih => exact ih inside fun up => down (List.mem_cons_of_mem _ up)
  | up => exact absurd List.mem_cons_self down
  | missing => exact inside
  | stuck => trivial
  | dir _ _ ih =>
    exact ih (inside.trans (List.prefix_append _ _)) fun up => down (List.mem_cons_of_mem _ up)
  | file => exact inside.trans (List.prefix_append _ _)
  | last => exact inside.trans (List.prefix_append _ _)
  | @link cur n rest target o here goes next ih =>
    obtain ⟨relative, down'⟩ := contained _ _ (inside.trans (List.prefix_append _ _)) here
    rw [relative] at ih
    refine ih inside fun up => ?_
    rcases List.mem_append.mp up with up | up
    · exact down' up
    · exact down (List.mem_cons_of_mem _ up)

/-- Directories and links stay where they are, and files stay files. -/
structure Tree.Grows (t u : Tree ν κ α τ) : Prop where
  dir : ∀ p, t.IsDir p → u.IsDir p
  file : ∀ p a content, t.node p = some (.file a content) →
    ∃ b changed, u.node p = some (.file b changed)
  link : ∀ p target, t.node p = some (.link target) → u.node p = some (.link target)

theorem Tree.Grows.put [DecidableEq ν] (t : Tree ν κ α τ) (d : List ν) (n : ν)
    (x : Node κ α τ) : t.Grows (t.put d n x) := by
  by_cases fresh : t.IsDir d ∧ t.node (d ++ [n]) = none
  · have other : ∀ p, t.node p ≠ none → (t.put d n x).node p = t.node p := by
      intro p there
      exact t.put_node_of_ne x fun same => there (same ▸ fresh.2)
    refine ⟨fun p dir => dir.put d n x, fun p a content here => ⟨a, content, ?_⟩,
      fun p target here => ?_⟩
    · rw [other p (by rw [here]; exact Option.some_ne_none _), here]
    · rw [other p (by rw [here]; exact Option.some_ne_none _), here]
  · rw [Tree.put, dif_neg fresh]
    exact ⟨fun _ dir => dir, fun _ a content here => ⟨a, content, here⟩, fun _ _ here => here⟩

theorem Tree.Grows.modify [DecidableEq ν] (t : Tree ν κ α τ) (p : List ν)
    {f : Node κ α τ → Node κ α τ} (keeps : ∀ x, (f x).isDir = x.isDir)
    (files : ∀ a content, ∃ b changed, f (.file a content) = .file b changed)
    (links : ∀ target, f (.link target) = .link target) : t.Grows (t.modify p f keeps) := by
  refine ⟨fun q dir => (t.isDir_modify f keeps q).mpr dir, fun q a content here => ?_,
    fun q target here => ?_⟩
  · rw [t.modify_node]
    by_cases same : q = p
    · obtain ⟨b, changed, now⟩ := files a content
      rw [same, Function.update_self, ← same, here, Option.map_some, now]
      exact ⟨b, changed, rfl⟩
    · rw [Function.update_of_ne same]
      exact ⟨a, content, here⟩
  · rw [t.modify_node]
    by_cases same : q = p
    · rw [same, Function.update_self, ← same, here, Option.map_some, links]
    · rw [Function.update_of_ne same, here]

def Outcome.place : Outcome ν → Option (List ν)
  | .found p => some p
  | .missing dir n => some (dir ++ [n])
  | _ => none

section Growth
variable {u : Tree ν κ α τ} (grows : t.Grows u) {q : List ν}
  (isFile : ∃ a content, u.node q = some (.file a content))
include grows isFile

theorem walk_grows {again again' : List ν → List (Step ν) → Outcome ν}
    (after : ∀ cur steps, (again cur steps).place = some q → again' cur steps = .found q)
    (cur : List ν) (steps : List (Step ν))
    (led : (walk reads t follow again cur steps).place = some q) :
    walk reads u follow again' cur steps = .found q := by
  induction steps generalizing cur with
  | nil => exact congrArg Outcome.found (Option.some.inj led)
  | cons step rest ih =>
    cases step with
    | self => exact ih cur led
    | up => exact ih _ led
    | name n =>
      rw [walk] at led ⊢
      rcases here : t.node (cur ++ [n]) with _ | a | ⟨a, content⟩ | target
      · rw [here] at led
        cases rest with
        | nil =>
          obtain rfl := Option.some.inj led
          obtain ⟨a, content, there⟩ := isFile
          rw [there]
          rfl
        | cons => cases led
      · obtain ⟨b, there⟩ := grows.dir _ ⟨a, here⟩
        rw [here] at led
        rw [there]
        exact ih _ led
      · obtain ⟨b, changed, there⟩ := grows.file _ a content here
        rw [here] at led
        rw [there]
        cases rest with
        | nil => exact congrArg Outcome.found (Option.some.inj led)
        | cons => cases led
      · rw [here] at led
        rw [grows.link _ target here]
        simp only at led ⊢
        split at led
        · next stays =>
          rw [if_pos stays]
          exact congrArg Outcome.found (Option.some.inj led)
        · next goes =>
          rw [if_neg goes]
          exact after _ _ led

/-- Once a file is where a path leads, the path finds it as the tree grows. -/
theorem resolve_grows (limit : Nat) (cur : List ν) (steps : List (Step ν))
    (led : (resolve reads t follow limit cur steps).place = some q) :
    resolve reads u follow limit cur steps = .found q := by
  induction limit generalizing cur steps with
  | zero => exact walk_grows grows isFile (fun _ _ led => by cases led) cur steps led
  | succ limit ih => exact walk_grows grows isFile ih cur steps led

end Growth

def Step.isSelf : Step ν → Bool
  | .self => true
  | _ => false

def moves (steps : List (Step ν)) : List (Step ν) := steps.filter fun step => !step.isSelf

/-- Where steps lead by their names alone. -/
def lexical : List ν → List (Step ν) → List ν
  | cur, [] => cur
  | cur, .self :: rest => lexical cur rest
  | cur, .up :: rest => lexical cur.dropLast rest
  | cur, .name n :: rest => lexical (cur ++ [n]) rest

theorem lexical_append (cur : List ν) (front rest : List (Step ν)) :
    lexical cur (front ++ rest) = lexical (lexical cur front) rest := by
  induction front generalizing cur with
  | nil => rfl
  | cons step front ih => cases step <;> exact ih _

theorem lexical_names (cur p : List ν) : lexical cur (p.map .name) = cur ++ p := by
  induction p generalizing cur with
  | nil => exact (List.append_nil cur).symm
  | cons n p ih => exact (ih _).trans (List.append_assoc cur [n] p)

theorem lexical_moves (cur : List ν) (steps : List (Step ν)) :
    lexical cur (moves steps) = lexical cur steps := by
  induction steps generalizing cur with
  | nil => rfl
  | cons step rest ih => cases step <;> exact ih _

theorem Leads.lexical {cur : List ν} {steps : List (Step ν)} {o : Outcome ν}
    (leads : Leads reads t follow cur steps o)
    (clear : ∀ front n rest, steps = front ++ .name n :: rest →
      ∀ target, t.node (lexical cur front ++ [n]) ≠ some (.link target))
    {p : List ν} (found : o = .found p) : p = FileTree.lexical cur steps := by
  induction leads with
  | failed => cases found
  | here cur => exact (Outcome.found.inj found).symm
  | self _ ih =>
    exact ih (fun front n rest split => clear (.self :: front) n rest (congrArg _ split)) found
  | up _ ih =>
    exact ih (fun front n rest split => clear (.up :: front) n rest (congrArg _ split)) found
  | missing => cases found
  | stuck => cases found
  | dir _ _ ih =>
    exact ih (fun front m rest split => clear (.name _ :: front) m rest (congrArg _ split)) found
  | file => exact (Outcome.found.inj found).symm
  | last here => exact absurd here (clear [] _ [] rfl _)
  | link here => exact absurd here (clear [] _ _ rfl _)

/-- Along directories, steps lead where their names do. -/
theorem resolve_lexical (reads : τ → Bool × List (Step ν)) (t : Tree ν κ α τ) (follow : Bool)
    (limit : Nat) (cur : List ν) (steps : List (Step ν))
    (dirs : ∀ front n rest, steps = front ++ .name n :: rest →
      t.IsDir (lexical cur front ++ [n])) :
    resolve reads t follow limit cur steps = .found (lexical cur steps) := by
  have along : ∀ again, walk reads t follow again cur steps = .found (lexical cur steps) := by
    intro again
    induction steps generalizing cur with
    | nil => rfl
    | cons step rest ih =>
      have next : ∀ front n last, rest = front ++ .name n :: last →
          t.IsDir (lexical cur (step :: front) ++ [n]) :=
        fun front n last split => dirs (step :: front) n last (congrArg _ split)
      cases step with
      | self => exact ih cur next
      | up => exact ih _ next
      | name n =>
        obtain ⟨a, here⟩ := dirs [] n rest rfl
        change t.node (cur ++ [n]) = _ at here
        rw [walk, here]
        exact ih _ next
  cases limit with
  | zero => exact along _
  | succ limit => exact along _

end Laws
end FileTree
