import Mathlib.Data.List.Basic
import Mathlib.Tactic.Ring

/-! Next-fit packing of a sequence of items into bins of one capacity: an item goes
into the current bin, or closes it and opens the next. Item `i` has size `size i`;
`packed cap size i` is the packing of the first `i` items. -/
namespace NextFit

structure Bin where
  first : Nat
  count : Nat
  load : Nat
  deriving DecidableEq, Repr

structure Packing where
  closed : List Bin
  current : Bin
  deriving DecidableEq, Repr

def Packing.empty : Packing := ⟨[], ⟨0, 0, 0⟩⟩

def Packing.bins (p : Packing) : List Bin := p.closed ++ [p.current]

def Bin.add (b : Bin) (item : Nat) : Bin := { b with count := b.count + 1, load := b.load + item }

def Packing.Full (cap item : Nat) (p : Packing) : Prop := cap < p.current.load + item

instance (cap item : Nat) (p : Packing) : Decidable (p.Full cap item) :=
  inferInstanceAs (Decidable (_ < _))

def Packing.put (cap item : Nat) (p : Packing) : Packing :=
  if p.Full cap item then ⟨p.bins, ⟨p.current.first + p.current.count, 1, item⟩⟩
  else ⟨p.closed, p.current.add item⟩

def Packing.target (cap item : Nat) (p : Packing) : Packing :=
  if p.Full cap item then ⟨p.bins, ⟨p.current.first + p.current.count, 0, 0⟩⟩ else p

theorem Packing.put_eq (cap item : Nat) (p : Packing) :
    p.put cap item = ⟨(p.target cap item).closed, (p.target cap item).current.add item⟩ := by
  unfold Packing.put Packing.target
  by_cases full : p.Full cap item
  · rw [if_pos full, if_pos full]
    simp only [Bin.add, Nat.zero_add]
  · rw [if_neg full, if_neg full]

def packed (cap : Nat) (size : Nat → Nat) : Nat → Packing
  | 0 => .empty
  | i + 1 => (packed cap size i).put cap (size i)

def binOf (cap : Nat) (size : Nat → Nat) (i : Nat) : Nat :=
  (packed cap size (i + 1)).closed.length

section Laws
variable {cap : Nat} {size : Nat → Nat}

theorem packed_full {i : Nat} (full : (packed cap size i).Full cap (size i)) :
    packed cap size (i + 1) = ⟨(packed cap size i).bins,
      ⟨(packed cap size i).current.first + (packed cap size i).current.count, 1, size i⟩⟩ :=
  if_pos full

theorem packed_fits {i : Nat} (fits : ¬(packed cap size i).Full cap (size i)) :
    packed cap size (i + 1) =
      ⟨(packed cap size i).closed, (packed cap size i).current.add (size i)⟩ :=
  if_neg fits

theorem packed_next (i : Nat) :
    (packed cap size i).current.first + (packed cap size i).current.count = i := by
  induction i with
  | zero => rfl
  | succ i ih =>
    by_cases full : (packed cap size i).Full cap (size i)
    · rw [packed_full full]
      simp only
      rw [ih]
    · rw [packed_fits full, Bin.add]
      simp only
      omega

theorem packed_count_pos (i : Nat) : 0 < (packed cap size (i + 1)).current.count := by
  by_cases full : (packed cap size i).Full cap (size i)
  · rw [packed_full full]
    exact Nat.one_pos
  · rw [packed_fits full]
    exact Nat.succ_pos _

theorem packed_load_le (i : Nat) (small : ∀ j < i, size j ≤ cap) :
    (packed cap size i).current.load ≤ cap := by
  cases i with
  | zero => exact Nat.zero_le cap
  | succ i =>
    by_cases full : (packed cap size i).Full cap (size i)
    · rw [packed_full full]
      exact small i (Nat.lt_succ_self i)
    · rw [packed_fits full]
      exact Nat.le_of_not_lt full

theorem packed_one (small : size 0 ≤ cap) : packed cap size 1 = ⟨[], ⟨0, 1, size 0⟩⟩ := by
  have fits : ¬(packed cap size 0).Full cap (size 0) := by
    unfold Packing.Full packed Packing.empty
    rw [Nat.zero_add]
    exact Nat.not_lt.mpr small
  rw [packed_fits fits]
  unfold packed Packing.empty Bin.add
  simp only [Nat.zero_add]

theorem bins_binOf (i j : Nat) (le : i < j) :
    ∃ b, (packed cap size j).bins[binOf cap size i]? = some b ∧
      b.first ≤ i ∧ i < b.first + b.count := by
  induction j, le using Nat.le_induction with
  | base =>
    have next := @packed_next cap size (i + 1)
    have pos := @packed_count_pos cap size i
    refine ⟨(packed cap size (i + 1)).current, ?_, by omega, by omega⟩
    unfold binOf Packing.bins
    rw [List.getElem?_append_right (Nat.le_refl _), Nat.sub_self]
    rfl
  | succ j hj ih =>
    obtain ⟨b, here, first, last⟩ := ih
    by_cases full : (packed cap size j).Full cap (size j)
    · refine ⟨b, ?_, first, last⟩
      rw [packed_full full, Packing.bins, List.getElem?_append_left]
      · exact here
      · exact (List.getElem?_eq_some_iff.mp here).1
    · rw [packed_fits full, Packing.bins]
      rcases Nat.lt_or_ge (binOf cap size i) (packed cap size j).closed.length with early | late
      · refine ⟨b, ?_, first, last⟩
        rw [Packing.bins, List.getElem?_append_left early] at here
        rw [List.getElem?_append_left early]
        exact here
      · rw [Packing.bins, List.getElem?_append_right late] at here
        rw [List.getElem?_append_right late]
        obtain ⟨short, same⟩ := List.getElem?_eq_some_iff.mp here
        have last_index : binOf cap size i - (packed cap size j).closed.length = 0 := by
          rw [List.length_singleton] at short
          omega
        simp only [last_index, List.getElem_cons_zero] at same
        subst same
        refine ⟨(packed cap size j).current.add (size j), by rw [last_index]; rfl, first, ?_⟩
        unfold Bin.add
        simp only
        omega

theorem bins_load (i : Nat) : ∀ b ∈ (packed cap size i).bins,
    b.load = ((List.range' b.first b.count).map size).sum := by
  induction i with
  | zero =>
    intro b member
    rw [List.mem_singleton.mp member]
    rfl
  | succ i ih =>
    have next := @packed_next cap size i
    intro b member
    by_cases full : (packed cap size i).Full cap (size i)
    · rw [packed_full full, Packing.bins, List.mem_append, List.mem_singleton] at member
      rcases member with member | rfl
      · exact ih b member
      · simp only [next]
        rw [List.range'_one, List.map_singleton, List.sum_singleton]
    · rw [packed_fits full, Packing.bins, List.mem_append, List.mem_singleton] at member
      rcases member with member | rfl
      · exact ih b (List.mem_append_left _ member)
      · have here := ih (packed cap size i).current
          (List.mem_append_right _ (List.mem_singleton_self _))
        unfold Bin.add
        simp only
        rw [List.range'_concat, List.map_append, List.sum_append, ← here, Nat.one_mul, next,
          List.map_singleton, List.sum_singleton]

theorem binOf_lt (i j : Nat) (lt : j < i) : binOf cap size j < (packed cap size i).bins.length := by
  obtain ⟨b, here, -⟩ := @bins_binOf cap size j i lt
  exact (List.getElem?_eq_some_iff.mp here).1

/-- A bin holds exactly the items that were put into it. -/
theorem bins_items (i k : Nat) (b : Bin) (here : (packed cap size i).bins[k]? = some b) :
    (List.range i).filter (fun j => binOf cap size j = k) = List.range' b.first b.count := by
  induction i generalizing k b with
  | zero =>
    have one : k = 0 := Nat.lt_one_iff.mp (List.getElem?_eq_some_iff.mp here).1
    subst one
    cases here
    rfl
  | succ i ih =>
    have next := @packed_next cap size i
    have skip (ne : binOf cap size i ≠ k) : [i].filter (fun j => binOf cap size j = k) = [] := by
      simp [ne]
    have take (eq : binOf cap size i = k) : [i].filter (fun j => binOf cap size j = k) = [i] := by
      simp [eq]
    rw [List.range_succ, List.filter_append]
    by_cases full : (packed cap size i).Full cap (size i)
    · have last : binOf cap size i = (packed cap size i).bins.length := by
        unfold binOf
        rw [packed_full full]
      rw [packed_full full, Packing.bins] at here
      by_cases early : k < (packed cap size i).bins.length
      · rw [List.getElem?_append_left early] at here
        rw [ih k b here, skip (by omega), List.append_nil]
      · have top := (List.getElem?_eq_some_iff.mp here).1
        simp only [List.length_append, List.length_singleton] at top
        have same : k = (packed cap size i).bins.length := by omega
        rw [List.getElem?_append_right (by simp only; omega), same, Nat.sub_self] at here
        cases here
        have none : (List.range i).filter (fun j => binOf cap size j = k) = [] := by
          rw [List.filter_eq_nil_iff]
          intro j member
          have lt := @binOf_lt cap size i j (List.mem_range.mp member)
          simp only [decide_eq_true_eq]
          omega
        rw [none, take (by omega), next]
        rfl
    · have last : binOf cap size i = (packed cap size i).closed.length := by
        unfold binOf
        rw [packed_fits full]
      rw [packed_fits full, Packing.bins] at here
      by_cases early : k < (packed cap size i).closed.length
      · rw [List.getElem?_append_left early] at here
        rw [ih k b (by rw [Packing.bins, List.getElem?_append_left early, here]), skip (by omega),
          List.append_nil]
      · have top := (List.getElem?_eq_some_iff.mp here).1
        simp only [List.length_append, List.length_singleton] at top
        have same : k = (packed cap size i).closed.length := by omega
        rw [List.getElem?_append_right (by simp only; omega), same, Nat.sub_self] at here
        cases here
        rw [ih k (packed cap size i).current (by
            rw [Packing.bins, List.getElem?_append_right (by omega), same, Nat.sub_self]
            rfl), take (by omega)]
        simp only [Bin.add]
        rw [List.range'_concat, Nat.one_mul, next]

theorem bins_count_pos (small : size 0 ≤ cap) (i : Nat) :
    ∀ b ∈ (packed cap size (i + 1)).bins, 0 < b.count := by
  induction i with
  | zero =>
    intro b member
    rw [packed_one small] at member
    rw [List.mem_singleton.mp member]
    exact Nat.one_pos
  | succ i ih =>
    intro b member
    by_cases full : (packed cap size (i + 1)).Full cap (size (i + 1))
    · rw [packed_full full, Packing.bins, List.mem_append, List.mem_singleton] at member
      rcases member with member | rfl
      · exact ih b member
      · exact Nat.one_pos
    · rw [packed_fits full, Packing.bins, List.mem_append, List.mem_singleton] at member
      rcases member with member | rfl
      · exact ih b (List.mem_append_left _ member)
      · exact Nat.succ_pos _

theorem bins_end_le (i : Nat) : ∀ b ∈ (packed cap size i).bins, b.first + b.count ≤ i := by
  induction i with
  | zero =>
    intro b member
    rw [List.mem_singleton.mp member]
    exact Nat.le_refl _
  | succ i ih =>
    have next := @packed_next cap size i
    intro b member
    by_cases full : (packed cap size i).Full cap (size i)
    · rw [packed_full full, Packing.bins, List.mem_append, List.mem_singleton] at member
      rcases member with member | rfl
      · exact (ih b member).trans (Nat.le_succ i)
      · exact Nat.le_of_eq (congrArg (· + 1) next)
    · rw [packed_fits full, Packing.bins, List.mem_append, List.mem_singleton] at member
      rcases member with member | rfl
      · exact (ih b (List.mem_append_left _ member)).trans (Nat.le_succ i)
      · exact Nat.le_of_eq (congrArg (· + 1) next)

theorem bins_load_le (i : Nat) (small : ∀ j < i, size j ≤ cap) :
    ∀ b ∈ (packed cap size i).bins, b.load ≤ cap := by
  induction i with
  | zero =>
    intro b member
    rw [List.mem_singleton.mp member]
    exact Nat.zero_le cap
  | succ i ih =>
    have earlier := ih fun j hj => small j (Nat.lt_succ_of_lt hj)
    have load := @packed_load_le cap size (i + 1) small
    intro b member
    rcases List.mem_append.mp member with closed | current
    · by_cases full : (packed cap size i).Full cap (size i)
      · rw [packed_full full] at closed
        exact earlier b closed
      · rw [packed_fits full] at closed
        exact earlier b (List.mem_append_left _ closed)
    · rw [List.mem_singleton.mp current]
      exact load

end Laws

/-- The bins stand one after another from `first` to `stop`. -/
def Chain : List Bin → Nat → Nat → Prop
  | [], first, stop => first = stop
  | b :: bins, first, stop => b.first = first ∧ Chain bins (first + b.count) stop

theorem chain_append (front back : List Bin) (first stop : Nat) :
    Chain (front ++ back) first stop ↔ ∃ mid, Chain front first mid ∧ Chain back mid stop := by
  induction front generalizing first with
  | nil => exact ⟨fun chain => ⟨first, rfl, chain⟩, fun ⟨_, rfl, chain⟩ => chain⟩
  | cons b front ih =>
    rw [List.cons_append, Chain, ih]
    constructor
    · rintro ⟨here, mid, left, right⟩
      exact ⟨mid, ⟨here, left⟩, right⟩
    · rintro ⟨mid, ⟨here, left⟩, right⟩
      exact ⟨here, mid, left, right⟩

theorem chain_le {bins : List Bin} {first stop : Nat} (chain : Chain bins first stop) :
    first ≤ stop := by
  induction bins generalizing first with
  | nil => exact Nat.le_of_eq chain
  | cons b bins ih => exact (Nat.le_add_right _ _).trans (ih chain.2)

theorem chain_length_le {bins : List Bin} {first stop : Nat} (chain : Chain bins first stop)
    (pos : ∀ b ∈ bins, 0 < b.count) : first + bins.length ≤ stop := by
  induction bins generalizing first with
  | nil => exact Nat.le_of_eq chain
  | cons b bins ih =>
    have here := pos b List.mem_cons_self
    have later := ih chain.2 fun c member => pos c (List.mem_cons_of_mem _ member)
    rw [List.length_cons]
    omega

/-- The packing covers the items without a gap. -/
theorem packed_chain {cap : Nat} {size : Nat → Nat} (i : Nat) :
    Chain (packed cap size i).bins 0 i := by
  induction i with
  | zero => exact ⟨rfl, rfl⟩
  | succ i ih =>
    by_cases full : (packed cap size i).Full cap (size i)
    · rw [packed_full full, Packing.bins, chain_append]
      exact ⟨i, ih, packed_next i, rfl⟩
    · obtain ⟨mid, closed, first, last⟩ := (chain_append _ _ _ _).mp ih
      rw [packed_fits full, Packing.bins, chain_append]
      refine ⟨mid, closed, first, ?_⟩
      have stop : mid + (packed cap size i).current.count = i := last
      show mid + ((packed cap size i).current.count + 1) = i + 1
      omega

end NextFit
