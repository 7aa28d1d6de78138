import Bseal.Archive.Containment

/-! Output paths as the system reads them: the bytes before the first NUL, one step a component.
A sanitized path only goes up in its last step, out of a component with a NUL. -/
namespace Bseal.Archive
open FileTree

def osPath (path : OutPath) : List FileName := lexical [] (osSteps path)

def StrictlyBelow (root p : List FileName) : Prop := root <+: p ∧ p ≠ root

instance (root p : List FileName) : Decidable (StrictlyBelow root p) :=
  inferInstanceAs (Decidable (_ ∧ _))

/-- The components of a path text, as far as the system reads it. -/
def cutNames : List Bytes → List Bytes
  | [] => []
  | c :: cs => cutNul c :: if (0 : Byte) ∈ c then [] else cutNames cs

/-- The part before the first NUL has a file name, and two when it goes up at its end. -/
def Descends (rel : Bytes) : Prop :=
  (if (splitSlash (cutNul rel)).getLast? = some dotDot then 2 else 1) ≤
    (splitSlash (cutNul rel)).countP (IsFileName ·)

instance (rel : Bytes) : Decidable (Descends rel) := inferInstanceAs (Decidable (_ ≤ _))

section Steps

theorem cutNul_cons {b : Byte} (clean : b ≠ 0) (bs : Bytes) :
    cutNul (b :: bs) = b :: cutNul bs := by
  simp [cutNul, clean]

theorem cutNul_zero (bs : Bytes) : cutNul (0 :: bs) = [] := by
  simp [cutNul]

theorem cutNul_idem (text : Bytes) : cutNul (cutNul text) = cutNul text :=
  cutNul_of_notMem (zero_notMem_cutNul text)

theorem toStep_cutNul (c : Bytes) : toStep (cutNul c) = toStep c := by
  unfold toStep
  simp only [cutNul_idem]

theorem osSteps_cutNames (names : OutPath) : osSteps names = (cutNames names).map toStep := by
  induction names with
  | nil => rfl
  | cons c cs ih =>
    rw [osSteps, cutNames, List.map_cons, toStep_cutNul]
    split
    · rfl
    · rw [ih]

theorem cutNames_splitSlash (path : Bytes) :
    cutNames (splitSlash path) = splitSlash (cutNul path) := by
  induction path with
  | nil => rfl
  | cons b bs ih =>
    by_cases nul : b = 0
    · subst nul
      rw [cutNul_zero]
      change cutNames (splitSlash (0 :: bs)) = [[]]
      rcases parts : splitSlash bs with _ | ⟨seg, segs⟩
      · exact absurd parts (splitSlash_ne_nil bs)
      · rw [splitSlash, if_neg (by decide), parts]
        simp only
        rw [cutNames, cutNul_zero, if_pos List.mem_cons_self]
    · rw [cutNul_cons nul, splitSlash, splitSlash]
      by_cases sep : b = slash
      · rw [if_pos sep, if_pos sep, ← ih]
        rfl
      · rw [if_neg sep, if_neg sep, ← ih]
        rcases parts : splitSlash bs with _ | ⟨seg, segs⟩
        · exact absurd parts (splitSlash_ne_nil bs)
        · have same : (0 : Byte) ∈ b :: seg ↔ (0 : Byte) ∈ seg := by
            rw [List.mem_cons]
            exact or_iff_right (Ne.symm nul)
          simp only [cutNames, cutNul_cons nul, same]

def Idle (c : Bytes) : Prop := c = [] ∨ c = dot

theorem moves_osSteps_idle {c : Bytes} (idle : Idle c) (cs : OutPath) :
    moves (osSteps (c :: cs)) = moves (osSteps cs) := by
  rcases idle with rfl | rfl <;> rfl

theorem moves_osSteps_congr (c : Bytes) {cs ds : OutPath}
    (same : moves (osSteps cs) = moves (osSteps ds)) :
    moves (osSteps (c :: cs)) = moves (osSteps (c :: ds)) := by
  rw [osSteps, osSteps]
  split
  · rfl
  · unfold moves at same ⊢
    rw [List.filter_cons, List.filter_cons, same]

theorem moves_fileNames (segs : List Bytes) :
    moves (osSteps (fileNames segs)) = moves (osSteps segs) := by
  induction segs using fileNames.induct with
  | case1 => rfl
  | case2 last => rfl
  | case3 seg segs more empty ih =>
    rw [fileNames, if_pos empty, ih]
    · exact (moves_osSteps_idle (.inl (List.isEmpty_iff.mp empty)) segs).symm
    · exact more
  | case4 seg segs more named ih =>
    rw [fileNames, if_neg named]
    · exact moves_osSteps_congr seg ih
    · exact more

theorem moves_filter (names : OutPath) :
    moves (osSteps (names.filter (· ≠ dot))) = moves (osSteps names) := by
  induction names with
  | nil => rfl
  | cons c cs ih =>
    by_cases isDot : c = dot
    · rw [List.filter_cons_of_neg (by simpa using isDot), ih]
      exact (moves_osSteps_idle (.inr isDot) cs).symm
    · rw [List.filter_cons_of_pos (by simpa using isDot)]
      exact moves_osSteps_congr c ih

theorem moves_trailing (names : OutPath) :
    moves (osSteps (names ++ [[]])) = moves (osSteps names) := by
  induction names with
  | nil => rfl
  | cons c cs ih => exact moves_osSteps_congr c ih

theorem moves_normalNames (names : OutPath) :
    moves (osSteps (normalNames names)) = moves (osSteps names) := by
  unfold normalNames
  split
  · rw [moves_trailing, moves_filter]
  · rw [List.append_nil, moves_filter]

end Steps

section Sanitized
variable {rel : Bytes}

theorem pathComponents_safe (safe : isSafeRelativePath rel = true) :
    pathComponents rel = fileNames (splitSlash rel) := by
  unfold isSafeRelativePath at safe
  simp only [Bool.and_eq_true, Bool.not_eq_true', List.isEmpty_eq_false_iff,
    decide_eq_true_eq] at safe
  rw [pathComponents, if_neg safe.1.1.2, if_neg (by simpa using safe.1.1.1)]

theorem slash_notMem_splitSlash {path segment : Bytes} (member : segment ∈ splitSlash path) :
    slash ∉ segment := by
  induction path generalizing segment with
  | nil =>
    rw [splitSlash, List.mem_singleton] at member
    exact member ▸ List.not_mem_nil
  | cons c cs ih =>
    rw [splitSlash] at member
    split at member
    · rcases List.mem_cons.mp member with rfl | member
      · exact List.not_mem_nil
      · exact ih member
    · next other =>
      split at member
      · next empty => exact absurd empty (splitSlash_ne_nil cs)
      · next first rest split =>
        rcases List.mem_cons.mp member with rfl | member
        · rw [List.mem_cons, not_or]
          exact ⟨Ne.symm other, ih (split ▸ List.mem_cons_self)⟩
        · exact ih (split ▸ List.mem_cons_of_mem first member)

theorem mem_of_mem_fileNames {segs : List Bytes} {seg : Bytes} (member : seg ∈ fileNames segs) :
    seg ∈ segs := by
  induction segs using fileNames.induct with
  | case1 => exact member
  | case2 last => exact member
  | case3 first segs more empty ih =>
    rw [fileNames, if_pos empty] at member
    · exact List.mem_cons_of_mem first (ih member)
    · exact more
  | case4 first segs more nonempty ih =>
    rw [fileNames, if_neg nonempty] at member
    · rcases List.mem_cons.mp member with rfl | member
      · exact List.mem_cons_self
      · exact List.mem_cons_of_mem first (ih member)
    · exact more

theorem mem_fileNames {segs : List Bytes} {seg : Bytes} (named : seg ≠ []) (member : seg ∈ segs) :
    seg ∈ fileNames segs := by
  induction segs using fileNames.induct with
  | case1 => exact member
  | case2 last => exact member
  | case3 first segs more empty ih =>
    rw [fileNames, if_pos empty]
    · rcases List.mem_cons.mp member with rfl | member
      · exact absurd (List.isEmpty_iff.mp empty) named
      · exact ih member
    · exact more
  | case4 first segs more nonempty ih =>
    rw [fileNames, if_neg nonempty]
    · rcases List.mem_cons.mp member with rfl | member
      · exact List.mem_cons_self
      · exact List.mem_cons_of_mem first (ih member)
    · exact more

theorem dotDot_notMem_splitSlash (safe : isSafeRelativePath rel = true) :
    dotDot ∉ splitSlash rel := by
  intro member
  have component : dotDot ∈ pathComponents rel := by
    rw [pathComponents_safe safe]
    exact mem_fileNames (by decide) member
  unfold isSafeRelativePath at safe
  rw [Bool.and_eq_true, List.all_eq_true] at safe
  simpa using safe.2 dotDot component

theorem dotDot_notMem_front {segs front : List Bytes} {last : Bytes} (safe : dotDot ∉ segs)
    (split : cutNames segs = front ++ [last]) : dotDot ∉ front := by
  induction segs generalizing front with
  | nil => exact absurd split.symm (List.append_ne_nil_of_right_ne_nil _ (List.cons_ne_nil _ _))
  | cons c cs ih =>
    rw [List.mem_cons, not_or] at safe
    cases front with
    | nil => exact List.not_mem_nil
    | cons d front =>
      rw [cutNames, List.cons_append] at split
      obtain ⟨rfl, rest⟩ := List.cons.inj split
      by_cases nul : (0 : Byte) ∈ c
      · rw [if_pos nul] at rest
        exact absurd rest.symm (List.append_ne_nil_of_right_ne_nil _ (List.cons_ne_nil _ _))
      · rw [if_neg nul] at rest
        rw [List.mem_cons, not_or, cutNul_of_notMem nul]
        exact ⟨safe.1, ih safe.2 rest⟩

def namesIn (segs : List Bytes) : List FileName :=
  segs.filterMap fun c => if name : IsFileName c then some ⟨c, name⟩ else none

theorem length_namesIn (segs : List Bytes) :
    (namesIn segs).length = segs.countP (IsFileName ·) := by
  induction segs with
  | nil => rfl
  | cons c cs ih =>
    unfold namesIn at ih ⊢
    by_cases name : IsFileName c
    · rw [List.filterMap_cons_some (by rw [dif_pos name]), List.countP_cons_of_pos (by simpa),
        List.length_cons, ih]
    · rw [List.filterMap_cons_none (by rw [dif_neg name]), List.countP_cons_of_neg (by simpa), ih]

theorem moves_down {segs : List Bytes} (clean : ∀ c ∈ segs, (0 : Byte) ∉ c)
    (down : dotDot ∉ segs) : moves (segs.map toStep) = (namesIn segs).map .name := by
  induction segs with
  | nil => rfl
  | cons c cs ih =>
    rw [List.mem_cons, not_or] at down
    obtain ⟨clean, rest⟩ := List.forall_mem_cons.mp clean
    specialize ih rest down.2
    unfold moves namesIn at ih ⊢
    have step : toStep c = if name : IsFileName c then .name ⟨c, name⟩ else .self := by
      unfold toStep
      simp only [cutNul_of_notMem clean, if_neg (Ne.symm down.1)]
    rw [List.map_cons, step]
    by_cases name : IsFileName c
    · rw [dif_pos name, List.filterMap_cons_some (by rw [dif_pos name]), List.map_cons, ← ih]
      rfl
    · rw [dif_neg name, List.filterMap_cons_none (by rw [dif_neg name]), ← ih]
      rfl

theorem moves_archiveNames (safe : isSafeRelativePath rel = true) :
    moves (osSteps (archiveNames rel)) =
      (namesIn (splitSlash (cutNul rel))).map .name ++
        if (splitSlash (cutNul rel)).getLast? = some dotDot then [.up] else [] := by
  have cut : moves (osSteps (archiveNames rel)) =
      moves ((splitSlash (cutNul rel)).map toStep) := by
    rw [archiveNames, moves_normalNames, pathComponents_safe safe, moves_fileNames,
      osSteps_cutNames, cutNames_splitSlash]
  have clean : ∀ c ∈ splitSlash (cutNul rel), (0 : Byte) ∉ c :=
    fun c member nul => zero_notMem_cutNul rel (mem_of_mem_splitSlash member nul)
  obtain ⟨front, last, parts⟩ :=
    (List.eq_nil_or_concat' _).resolve_left (splitSlash_ne_nil (cutNul rel))
  have front_down : dotDot ∉ front :=
    dotDot_notMem_front (dotDot_notMem_splitSlash safe) ((cutNames_splitSlash rel).trans parts)
  rw [cut]
  rw [parts] at clean ⊢
  rw [List.getLast?_concat]
  by_cases up : last = dotDot
  · subst up
    have front_moves := moves_down
      (fun c member => clean c (List.mem_append_left _ member)) front_down
    have names : namesIn (front ++ [dotDot]) = namesIn front := by
      unfold namesIn
      rw [List.filterMap_append]
      exact List.append_nil _
    rw [if_pos rfl, names, ← front_moves, List.map_append]
    unfold moves
    rw [List.filter_append]
    rfl
  · have down : dotDot ∉ front ++ [last] := by
      rw [List.mem_append, List.mem_singleton, not_or]
      exact ⟨front_down, Ne.symm up⟩
    rw [if_neg (fun same => up (Option.some.inj same)), List.append_nil, moves_down clean down]

theorem prefix_of_split {names : List FileName} {ups : List (FileTree.Step FileName)}
    (up : ∀ n, .name n ∉ ups) {front : List (FileTree.Step FileName)} {n : FileName}
    {rest : List (FileTree.Step FileName)}
    (split : front ++ .name n :: rest = names.map .name ++ ups) :
    ∃ p, front = p.map .name ∧ p ++ [n] <+: names := by
  induction names generalizing front with
  | nil =>
    refine absurd ?_ (up n)
    rw [show ups = front ++ .name n :: rest from split.symm]
    exact List.mem_append_right _ List.mem_cons_self
  | cons m names ih =>
    cases front with
    | nil =>
      obtain ⟨same, -⟩ := List.cons.inj split
      obtain rfl := FileTree.Step.name.inj same
      exact ⟨[], rfl, List.prefix_append [n] names⟩
    | cons step front =>
      obtain ⟨rfl, tail⟩ := List.cons.inj split
      obtain ⟨p, rfl, under⟩ := ih tail
      exact ⟨m :: p, rfl, List.cons_prefix_cons.mpr ⟨rfl, under⟩⟩

theorem name_on_way (safe : isSafeRelativePath rel = true) {front : List (FileTree.Step FileName)}
    {n : FileName} {rest : List (FileTree.Step FileName)}
    (split : osSteps (archiveNames rel) = front ++ .name n :: rest) :
    ∃ p, p ++ [n] <+: namesIn (splitSlash (cutNul rel)) ∧
      ∀ root, lexical root front = root ++ p := by
  have moved := moves_archiveNames safe
  rw [split] at moved
  have parts : moves (front ++ .name n :: rest) = moves front ++ .name n :: moves rest := by
    unfold moves
    rw [List.filter_append]
    rfl
  rw [parts] at moved
  obtain ⟨p, names, under⟩ := prefix_of_split (by intro m; split <;> simp) moved
  refine ⟨p, under, fun root => ?_⟩
  rw [← lexical_moves, names, lexical_names]

theorem osPath_archiveNames (root : List FileName) :
    osPath (below root (archiveNames rel)) = lexical root (osSteps (archiveNames rel)) := by
  rw [osPath, below, osSteps_append_names, lexical_append, lexical_names, List.nil_append]

theorem strictlyBelow_osPath (root : List FileName) (safe : isSafeRelativePath rel = true) :
    StrictlyBelow root (osPath (below root (archiveNames rel))) ↔ Descends rel := by
  rw [osPath_archiveNames, ← lexical_moves, moves_archiveNames safe, lexical_append,
    lexical_names, Descends, ← length_namesIn]
  generalize namesIn (splitSlash (cutNul rel)) = names
  unfold StrictlyBelow
  split
  · change root <+: (root ++ names).dropLast ∧ (root ++ names).dropLast ≠ root ↔ 2 ≤ names.length
    constructor
    · rintro ⟨under, other⟩
      by_contra short
      have len := under.length_le
      have same := under.eq_of_length_le
      simp only [List.length_dropLast, List.length_append] at len same
      exact other (same (by omega)).symm
    · intro two
      have nonempty : names ≠ [] := by
        rintro rfl
        cases two
      rw [List.dropLast_append_of_ne_nil nonempty]
      refine ⟨List.prefix_append _ _, fun same => ?_⟩
      have len := congrArg List.length same
      rw [List.length_append, List.length_dropLast] at len
      omega
  · change root <+: root ++ names ∧ root ++ names ≠ root ↔ 1 ≤ names.length
    rw [Nat.one_le_iff_ne_zero, List.length_eq_zero_iff.ne]
    constructor
    · rintro ⟨-, other⟩ rfl
      exact other (List.append_nil root)
    · intro named
      exact ⟨List.prefix_append _ _, fun same => named (List.append_right_eq_self.mp same)⟩

end Sanitized
end Bseal.Archive
