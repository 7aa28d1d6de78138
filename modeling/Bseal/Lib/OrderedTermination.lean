import Bseal.Lib.OrderedCalm

/-! Every step of the pipeline, also one that fails, spends some of a finite weight: that of the
script, the queued items, the threads' states and the results that wait. So every run ends. -/
namespace OrderedPipeline
variable {α β ε σ : Type} {P : Pipeline α β ε σ}

/-- An item still to be pushed weighs more than one in the queue, along the heavier branch. -/
def Script.weight : Script α ε → Nat
  | .done | .throw _ => 0
  | .check go stopped => max go.weight stopped.weight + 1
  | .push _ accepted refused => max accepted.weight refused.weight + 9

def SourceState.weight : SourceState α ε → Nat
  | .running script => script.weight + 3
  | .recording _ => 2
  | .closing => 1
  | .finished => 0

def WorkerState.weight : WorkerState α β ε → Nat
  | .working _ => 11
  | .pushing _ => 10
  | .checking => 5
  | .popping => 4
  | .recording _ => 3
  | .closingIn => 2
  | .closingOut => 1
  | .exited => 0

def MainState.weight : MainState β ε → Nat
  | .handling _ => 12
  | .draining => 10
  | .popping => 9
  | .checkingPending => 8
  | .checkingSink => 7
  | .checkingFailed => 6
  | .finishing => 5
  | .recording _ => 4
  | .closing => 3
  | .joiningSource => 2
  | .joiningJoiner => 1
  | .returned => 0

def State.weight (s : State P) : Nat :=
  s.source.weight + 8 * s.input.items.length + ∑ i, (s.workers i).weight +
    4 * s.output.items.length + s.pending.length + s.main.weight + (!s.joined).toNat

section Step
variable {s t : State P}

theorem sourceStep_weight (taken : sourceStep s = some t) : t.weight < s.weight := by
  unfold sourceStep at taken
  split at taken
  case h_1 source =>
    cases taken
    simp only [State.weight, source, SourceState.weight, Queue.close]
    omega
  case h_2 source | h_6 source =>
    cases taken
    simp only [State.weight, source, SourceState.weight, Queue.close]
    omega
  case h_3 go stopped source =>
    cases taken
    simp only [State.weight, source, SourceState.weight, Script.weight]
    split <;> omega
  case h_4 item accepted refused source =>
    split at taken
    · cases taken
      simp only [State.weight, source, SourceState.weight, Script.weight]
      omega
    · split at taken
      · cases taken
        simp only [State.weight, source, SourceState.weight, Script.weight, Queue.put,
          List.length_append, List.length_singleton]
        omega
      · cases taken
  case h_5 e source =>
    cases taken
    simp only [State.weight, source, SourceState.weight, State.record]
    omega
  case h_7 => cases taken

theorem sourceFails_weight {e : ε} (taken : sourceFails s e = some t) : t.weight < s.weight := by
  unfold sourceFails at taken
  split at taken
  case h_1 source =>
    cases taken
    simp only [State.weight, source, SourceState.weight]
    omega
  case h_2 => cases taken

theorem setWorker_weight {u : State P} {i : Fin P.workers} {w : WorkerState α β ε}
    (workers : u.workers = s.workers)
    (less : u.source.weight + 8 * u.input.items.length + 4 * u.output.items.length +
        u.pending.length + u.main.weight + (!u.joined).toNat + w.weight <
      s.source.weight + 8 * s.input.items.length + 4 * s.output.items.length +
        s.pending.length + s.main.weight + (!s.joined).toNat + (s.workers i).weight) :
    (u.setWorker i w).weight < s.weight := by
  have sums := Threads.sum_update s.workers i w WorkerState.weight
  have split : (u.setWorker i w).weight = u.source.weight + 8 * u.input.items.length +
      ∑ j, (Function.update s.workers i w j).weight + 4 * u.output.items.length +
        u.pending.length + u.main.weight + (!u.joined).toNat := by
    rw [← workers]
    rfl
  rw [split, State.weight]
  omega

theorem workerStep_weight {i : Fin P.workers} (taken : workerStep s i = some t) :
    t.weight < s.weight := by
  unfold workerStep at taken
  split at taken
  case h_1 state =>
    cases taken
    refine setWorker_weight rfl ?_
    rw [state]
    by_cases failed : s.failed = true
    · rw [if_pos failed]
      simp only [WorkerState.weight]
      omega
    · rw [if_neg failed]
      simp only [WorkerState.weight]
      omega
  case h_2 state =>
    split at taken
    case h_1 item rest front =>
      cases taken
      refine setWorker_weight rfl ?_
      rw [state, front, List.length_cons]
      simp only [WorkerState.weight]
      omega
    case h_2 =>
      split at taken
      · cases taken
        refine setWorker_weight rfl ?_
        rw [state]
        simp only [WorkerState.weight]
        omega
      · cases taken
  case h_3 item state =>
    split at taken
    all_goals
      cases taken
      refine setWorker_weight rfl ?_
      rw [state]
      simp only [WorkerState.weight]
      omega
  case h_4 result state =>
    split at taken
    · cases taken
      refine setWorker_weight rfl ?_
      rw [state]
      simp only [WorkerState.weight]
      omega
    · split at taken
      · cases taken
        refine setWorker_weight rfl ?_
        rw [state]
        simp only [WorkerState.weight, Queue.put, List.length_append, List.length_singleton]
        omega
      · cases taken
  case h_5 e state | h_6 state | h_7 state =>
    cases taken
    refine setWorker_weight rfl ?_
    rw [state]
    simp only [WorkerState.weight, State.record, Queue.close]
    omega
  case h_8 => cases taken

theorem workerFails_weight {i : Fin P.workers} {e : ε} (taken : workerFails s i e = some t) :
    t.weight < s.weight := by
  unfold workerFails at taken
  split at taken
  case h_5 => cases taken
  all_goals
    rename_i state
    cases taken
    refine setWorker_weight rfl ?_
    rw [state]
    simp only [WorkerState.weight]
    omega

theorem joinerStep_weight (taken : joinerStep s = some t) : t.weight < s.weight := by
  unfold joinerStep at taken
  split at taken
  case isTrue waiting =>
    cases taken
    simp only [State.weight, waiting.1, Queue.close, Bool.not_true, Bool.not_false,
      Bool.toNat_true, Bool.toNat_false]
    omega
  case isFalse => cases taken

theorem drainStep_weight (draining : s.main = .draining) : (drainStep s).weight < s.weight := by
  unfold drainStep
  split
  case h_1 =>
    simp only [State.weight, draining, MainState.weight]
    omega
  case h_2 result found =>
    split
    case h_1 =>
      have fewer : (s.pending.filter fun b => P.index b ≠ s.next).length < s.pending.length := by
        refine List.length_filter_lt_length_iff_exists.mpr
          ⟨result, List.mem_of_find?_eq_some found, ?_⟩
        have here := List.find?_some found
        simpa using here
      simp only [State.weight, draining]
      omega
    case h_2 =>
      simp only [State.weight, draining, MainState.weight]
      omega

theorem finishStep_weight (finishing : s.main = .finishing) :
    (finishStep s).weight < s.weight := by
  unfold finishStep
  split
  all_goals
    simp only [State.weight, finishing, MainState.weight]
    omega

theorem mainStep_weight (taken : mainStep s = some t) : t.weight < s.weight := by
  unfold mainStep at taken
  split at taken
  case h_1 main =>
    split at taken
    case h_1 result rest front =>
      cases taken
      simp only [State.weight, main, front, MainState.weight, List.length_cons]
      omega
    case h_2 =>
      split at taken
      · cases taken
        simp only [State.weight, main, MainState.weight]
        omega
      · cases taken
  case h_2 result main =>
    split at taken
    · cases taken
      simp only [State.weight, main, MainState.weight]
      omega
    · split at taken
      all_goals
        cases taken
        simp only [State.weight, main, MainState.weight, List.length_cons]
        omega
  case h_3 main =>
    cases taken
    exact drainStep_weight main
  case h_7 main =>
    cases taken
    exact finishStep_weight main
  case h_12 => cases taken
  case h_4 main =>
    split at taken
    all_goals
      cases taken
      simp only [State.weight, main, MainState.weight]
      omega
  case h_5 main =>
    split at taken
    case isTrue =>
      cases taken
      simp only [State.weight, main, MainState.weight]
      omega
    split at taken
    all_goals
      cases taken
      simp only [State.weight, main, MainState.weight]
      omega
  case h_6 main =>
    cases taken
    simp only [State.weight, main]
    split <;> simp only [MainState.weight] <;> omega
  case h_8 e main | h_9 main =>
    cases taken
    simp only [State.weight, main, MainState.weight, State.record, Queue.close]
    omega
  case h_10 main | h_11 main =>
    split at taken <;> cases taken
    simp only [State.weight, main, MainState.weight]
    omega

theorem mainFails_weight {e : ε} (taken : mainFails s e = some t) : t.weight < s.weight := by
  unfold mainFails at taken
  split at taken
  case h_8 => cases taken
  all_goals
    rename_i main
    cases taken
    simp only [State.weight, main, MainState.weight]
    omega

theorem step_weight {a : Action P.workers ε} (taken : step s a = some t) :
    t.weight < s.weight := by
  cases a with
  | source => exact sourceStep_weight taken
  | sourceFails e => exact sourceFails_weight taken
  | worker i => exact workerStep_weight taken
  | workerFails i e => exact workerFails_weight taken
  | joiner => exact joinerStep_weight taken
  | main => exact mainStep_weight taken
  | mainFails e => exact mainFails_weight taken

end Step

section Runs
variable {s t : State P}

theorem runActions_weight {actions : List (Action P.workers ε)}
    (ran : runActions s actions = some t) : t.weight + actions.length ≤ s.weight := by
  induction actions generalizing s with
  | nil =>
    cases ran
    exact le_rfl
  | cons a actions ih =>
    obtain ⟨next, taken, more⟩ := Option.bind_eq_some_iff.mp ran
    have less := step_weight taken
    have rest := ih more
    rw [List.length_cons]
    omega

theorem init_weight (P : Pipeline α β ε σ) (start : σ) :
    (init P start).weight = P.script.weight + 5 * P.workers + 13 := by
  have idle : ∑ i, ((init P start).workers i).weight = P.workers * 5 := by
    rw [Finset.sum_congr rfl fun i _ => show ((init P start).workers i).weight = 5 from rfl,
      Finset.sum_const, Finset.card_univ, Fintype.card_fin, smul_eq_mul]
  rw [State.weight, idle]
  simp only [init, Queue.empty, SourceState.weight, MainState.weight, List.length_nil,
    Bool.not_false, Bool.toNat_true]
  omega

/-- However the threads take turns and whatever they throw, a run makes at most so many steps. -/
theorem runActions_length {start : σ} {actions : List (Action P.workers ε)}
    (ran : runActions (init P start) actions = some t) :
    actions.length ≤ P.script.weight + 5 * P.workers + 13 := by
  have spent := runActions_weight ran
  rw [init_weight] at spent
  omega

theorem Run.mono {allowed permitted : State P → Action P.workers ε → Prop}
    (weaker : ∀ s a, allowed s a → permitted s a) (run : Run allowed s t) : Run permitted s t := by
  induction run with
  | refl => exact .refl
  | next run meets taken ih => exact ih.next (weaker _ _ meets) taken

theorem Run.trans {allowed : State P → Action P.workers ε → Prop} {u : State P}
    (first : Run allowed s t) (second : Run allowed t u) : Run allowed s u := by
  induction second with
  | refl => exact first
  | next _ meets taken ih => exact ih.next meets taken

/-- Left to themselves, the threads come to an end from any state: all have returned, or they
wait for one another. -/
theorem exists_end (s : State P) : ∃ t, Run OwnSteps s t ∧ (t.Done ∨ t.Stuck) := by
  induction weight : s.weight using Nat.strong_induction_on generalizing s with
  | _ n ih =>
    subst weight
    by_cases ended : s.Done ∨ s.Stuck
    · exact ⟨s, .refl, ended⟩
    · obtain ⟨undone, moves⟩ := not_or.mp ended
      have able : ∃ a : Action P.workers ε, a.Proper ∧ step s a ≠ none := by
        by_contra unable
        exact moves ⟨undone, fun a own => by
          by_contra some
          exact unable ⟨a, own, some⟩⟩
      obtain ⟨a, own, some⟩ := able
      obtain ⟨next, taken⟩ := Option.ne_none_iff_exists'.mp some
      obtain ⟨t, run, last⟩ := ih _ (step_weight taken) next rfl
      exact ⟨t, Run.trans (.next .refl own taken) run, last⟩

/-- Left to itself, a sound pipeline returns, with everything handed over in order and
finished. -/
theorem exists_finish {start mid stop : σ} {out : List β} (sound : Sound P start out mid stop) :
    ∃ s, Reaches (init P start) s ∧ s.Done ∧ s.failure = none ∧
      s.calls = out.map .consume ++ [.finish] ∧ s.sink = stop := by
  obtain ⟨s, run, ended⟩ := exists_end (init P start)
  obtain ⟨-, moves, returned⟩ := run.sound sound
  have done := ended.resolve_right moves
  exact ⟨s, run.mono fun _ _ _ => trivial, done, returned done.main⟩

end Runs
end OrderedPipeline
