import Bseal.Lib.OrderedShutdown
import Bseal.Lib.Threads
import Mathlib.Algebra.BigOperators.Fin

/-! When a failing main thread leaves no one waiting. The main thread closes only its own queue,
so the source must find room for what it still pushes, or another thread must close the
queue in between; from a failure in such a state no run is stuck. -/
namespace OrderedPipeline
variable {α β ε σ : Type} {P : Pipeline α β ε σ}

/-- What the source still pushes once it has seen a failure, its pushes being accepted. -/
def Script.pending : Script α ε → List α
  | .done | .throw _ => []
  | .check _ stopped => stopped.pending
  | .push item accepted _ => item :: accepted.pending

def SourceState.pending : SourceState α ε → List α
  | .running script => script.pending
  | .recording _ | .closing | .finished => []

def SourceState.Closes (source : SourceState α ε) : Prop :=
  (∃ e, source = .recording e) ∨ source = .closing

def WorkerState.pops : WorkerState α β ε → Nat
  | .popping => 1
  | _ => 0

def WorkerState.Closes (work : α → Except ε β) (w : WorkerState α β ε) : Prop :=
  (∃ e, w = .recording e) ∨ w = .closingIn ∨ ∃ item e, w = .working item ∧ work item = .error e

namespace State

/-- The workers that will take one more item whatever happens. -/
def popping (s : State P) : Nat := ∑ i, (s.workers i).pops

/-- The items that have been or will be pushed and that no worker has taken. -/
def ahead (s : State P) : List α := s.input.items ++ s.source.pending

/-- The input queue is closed or will be, or the source has room for the rest: some thread
that closes the queue is on its way to do so, or one of the items that the waiting workers
take next makes its worker fail. -/
inductive Drains (s : State P) : Prop
  | closed (closed : s.input.closed = true)
  | source (closes : s.source.Closes)
  | worker (i : Fin P.workers) (closes : (s.workers i).Closes P.work)
  | poison (item : α) (e : ε) (taken : item ∈ s.ahead.take s.popping)
      (fails : P.work item = .error e)
  | room (fits : s.ahead.length ≤ P.capacity + s.popping)

end State

theorem popping_setWorker (s : State P) (i : Fin P.workers) (w : WorkerState α β ε) :
    (s.setWorker i w).popping + (s.workers i).pops = s.popping + w.pops :=
  Threads.sum_update s.workers i w WorkerState.pops

section Drains
variable {s t : State P}

theorem State.Drains.of_flow (drains : s.Drains) (later : Later s t)
    (source : s.source.Closes → t.Drains) (worker : ∀ i, (s.workers i).Closes P.work → t.Drains)
    (ahead : t.ahead = s.ahead) (popping : t.popping = s.popping) : t.Drains := by
  cases drains with
  | closed closed => exact .closed (later.input closed)
  | source closes => exact source closes
  | worker i closes => exact worker i closes
  | poison item e taken fails => exact .poison item e (by rwa [ahead, popping]) fails
  | room fits => exact .room (by rwa [ahead, popping])

theorem State.Drains.of_same (drains : s.Drains) (later : Later s t) (source : t.source = s.source)
    (items : t.input.items = s.input.items) (workers : t.workers = s.workers) : t.Drains :=
  drains.of_flow later (fun closes => .source (by rwa [source]))
    (fun i closes => .worker i (by rwa [workers])) (by rw [State.ahead, State.ahead, source, items])
    (by rw [State.popping, State.popping, workers])

theorem sourceStep_drains (failed : s.failed = true) (drains : s.Drains)
    (taken : sourceStep s = some t) : t.Drains := by
  have later := sourceStep_later taken
  unfold sourceStep at taken
  split at taken
  case h_1 | h_6 =>
    cases taken
    exact .closed rfl
  case h_2 =>
    cases taken
    exact .source (.inl ⟨_, rfl⟩)
  case h_3 go stopped running =>
    cases taken
    refine drains.of_flow later (fun closes => ?_) (fun i closes => .worker i closes) ?_ rfl
    · rw [running] at closes
      rcases closes with ⟨e, no⟩ | no <;> cases no
    · rw [State.ahead, State.ahead, running, if_pos failed]
      rfl
  case h_4 item accepted refused running =>
    split at taken
    case isTrue closed =>
      cases taken
      exact .closed closed
    case isFalse =>
      split at taken
      · cases taken
        refine drains.of_flow later (fun closes => ?_) (fun i closes => .worker i closes) ?_ rfl
        · rw [running] at closes
          rcases closes with ⟨e, no⟩ | no <;> cases no
        · rw [State.ahead, State.ahead, running]
          exact List.append_assoc _ _ _
      · cases taken
  case h_5 =>
    cases taken
    exact .source (.inr rfl)
  case h_7 => cases taken

theorem setWorker_drains {u : State P} (drains : s.Drains) (i : Fin P.workers)
    (w : WorkerState α β ε) (later : Later s (u.setWorker i w)) (source : u.source = s.source)
    (items : u.input.items = s.input.items) (workers : u.workers = s.workers)
    (pops : w.pops = (s.workers i).pops)
    (own : (s.workers i).Closes P.work → (u.setWorker i w).Drains) :
    (u.setWorker i w).Drains := by
  refine drains.of_flow later (fun closes => .source (by rwa [State.setWorker_source, source]))
    (fun j closes => ?_) ?_ ?_
  · by_cases hj : j = i
    · rw [hj] at closes
      exact own closes
    · refine .worker j ?_
      rwa [State.setWorker_workers, Function.update_of_ne hj, workers]
  · rw [State.ahead, State.setWorker_input, State.setWorker_source, source, items, State.ahead]
  · have sums := popping_setWorker u i w
    rw [workers, pops] at sums
    have same : u.popping = s.popping := by rw [State.popping, State.popping, workers]
    omega

theorem pop_drains {item : α} {rest : List α} {i : Fin P.workers} (drains : s.Drains)
    (front : s.input.items = item :: rest) (pops : s.workers i = .popping)
    (later : Later s t)
    (taken : t = { s with input := { s.input with items := rest } }.setWorker i (.working item)) :
    t.Drains := by
  subst taken
  have counted := popping_setWorker { s with input := { s.input with items := rest } } i
    (.working item)
  have fewer : s.popping = ({ s with input := { s.input with items := rest } }.setWorker i
      (.working item)).popping + 1 := by
    rw [show ({ s with input := { s.input with items := rest } } : State P).workers i = .popping
      from pops] at counted
    exact counted.symm
  have shorter : s.ahead = item :: ({ s with input := { s.input with items := rest } }.setWorker i
      (.working item)).ahead := by
    rw [State.ahead, front]
    rfl
  cases drains with
  | closed closed => exact .closed closed
  | source closes => exact .source closes
  | worker j closes =>
    have hj : j ≠ i := by
      rintro rfl
      rw [pops] at closes
      rcases closes with ⟨e, no⟩ | no | ⟨item, e, no, _⟩ <;> cases no
    exact .worker j (by rwa [State.setWorker_workers, Function.update_of_ne hj])
  | poison x e among fails =>
    rw [fewer, shorter, List.take_succ_cons, List.mem_cons] at among
    rcases among with rfl | among
    · refine .worker i (.inr (.inr ⟨x, e, ?_, fails⟩))
      rw [State.setWorker_workers, Function.update_self]
    · exact .poison x e among fails
  | room fits =>
    rw [fewer, shorter, List.length_cons] at fits
    exact .room (by omega)

theorem workerStep_drains {i : Fin P.workers} (failed : s.failed = true) (drains : s.Drains)
    (taken : workerStep s i = some t) : t.Drains := by
  have later := workerStep_later taken
  have self : ∀ (u : State P) w, w.Closes P.work → (u.setWorker i w).Drains :=
    fun u w closes => .worker i (by rwa [State.setWorker_workers, Function.update_self])
  unfold workerStep at taken
  split at taken
  case h_1 checking =>
    cases taken
    refine setWorker_drains drains i _ later rfl rfl rfl ?_ fun closes => ?_
    · rw [checking, if_pos failed]
      rfl
    · rw [checking] at closes
      rcases closes with ⟨e, no⟩ | no | ⟨item, e, no, _⟩ <;> cases no
  case h_2 pops =>
    split at taken
    case h_1 item rest front =>
      cases taken
      exact pop_drains drains front pops later rfl
    case h_2 =>
      split at taken
      case isTrue closed =>
        cases taken
        exact .closed closed
      case isFalse => cases taken
  case h_3 item working =>
    split at taken
    case h_1 result ok =>
      cases taken
      refine setWorker_drains drains i _ later rfl rfl rfl (by rw [working]; rfl) fun closes => ?_
      rw [working] at closes
      rcases closes with ⟨e, no⟩ | no | ⟨item', e, same, fails⟩
      · cases no
      · cases no
      · cases same
        rw [ok] at fails
        cases fails
    case h_2 e _ =>
      cases taken
      exact self _ _ (.inl ⟨e, rfl⟩)
  case h_4 result pushing =>
    have quiet : ¬(s.workers i).Closes P.work := by
      rw [pushing]
      rintro (⟨e, no⟩ | no | ⟨item, e, no, _⟩) <;> cases no
    split at taken
    · cases taken
      exact setWorker_drains drains i _ later rfl rfl rfl (by rw [pushing]; rfl)
        fun closes => absurd closes quiet
    · split at taken
      · cases taken
        exact setWorker_drains drains i _ later rfl rfl rfl (by rw [pushing]; rfl)
          fun closes => absurd closes quiet
      · cases taken
  case h_5 =>
    cases taken
    exact self _ _ (.inr (.inl rfl))
  case h_6 =>
    cases taken
    exact .closed rfl
  case h_7 closing =>
    cases taken
    refine setWorker_drains drains i _ later rfl rfl rfl (by rw [closing]; rfl) fun closes => ?_
    rw [closing] at closes
    rcases closes with ⟨e, no⟩ | no | ⟨item, e, no, _⟩ <;> cases no
  case h_8 => cases taken

theorem joinerStep_drains (drains : s.Drains) (taken : joinerStep s = some t) : t.Drains := by
  have later := joinerStep_later taken
  unfold joinerStep at taken
  split at taken
  · cases taken
    exact drains.of_same later rfl rfl rfl
  · cases taken

theorem mainStep_frame (taken : mainStep s = some t) :
    t.source = s.source ∧ t.input = s.input ∧ t.workers = s.workers := by
  have silent : ∀ u : State P, SameThreads s u →
      u.source = s.source ∧ u.input = s.input ∧ u.workers = s.workers :=
    fun u same => ⟨same.source, same.input, same.workers⟩
  unfold mainStep at taken
  split at taken
  case h_1 => (split at taken <;> try split at taken) <;> cases taken <;> exact ⟨rfl, rfl, rfl⟩
  case h_3 =>
    cases taken
    exact silent _ (drainStep_sameThreads s)
  case h_7 =>
    cases taken
    exact silent _ (finishStep_sameThreads s)
  case h_12 => cases taken
  all_goals
    (try split at taken) <;> (try split at taken) <;> cases taken <;> exact ⟨rfl, rfl, rfl⟩

theorem mainStep_drains (drains : s.Drains) (taken : mainStep s = some t) : t.Drains := by
  obtain ⟨source, input, workers⟩ := mainStep_frame taken
  exact drains.of_same (mainStep_later taken) source (by rw [input]) workers

theorem sourceFails_drains {e : ε} (taken : sourceFails s e = some t) : t.Drains := by
  unfold sourceFails at taken
  split at taken
  · cases taken
    exact .source (.inl ⟨e, rfl⟩)
  · cases taken

theorem workerFails_drains {i : Fin P.workers} {e : ε} (taken : workerFails s i e = some t) :
    t.Drains := by
  have self : (s.setWorker i (.recording e)).Drains := by
    refine .worker i (.inl ⟨e, ?_⟩)
    rw [State.setWorker_workers, Function.update_self]
  unfold workerFails at taken
  split at taken
  case h_5 => cases taken
  all_goals
    cases taken
    exact self

theorem mainFails_drains {e : ε} (drains : s.Drains) (taken : mainFails s e = some t) :
    t.Drains := by
  have later := step_later (a := .mainFails e) taken
  unfold mainFails at taken
  split at taken
  case h_8 => cases taken
  all_goals
    cases taken
    exact drains.of_same later rfl rfl rfl

theorem step_drains {a : Action P.workers ε} (failed : s.failed = true) (drains : s.Drains)
    (taken : step s a = some t) : t.Drains := by
  cases a with
  | source => exact sourceStep_drains failed drains taken
  | sourceFails e => exact sourceFails_drains taken
  | worker i => exact workerStep_drains failed drains taken
  | workerFails i e => exact workerFails_drains taken
  | joiner => exact joinerStep_drains drains taken
  | main => exact mainStep_drains drains taken
  | mainFails e => exact mainFails_drains drains taken

/-- The main thread records a failure only in a draining state. -/
def FailsDrained (s : State P) (a : Action P.workers ε) : Prop :=
  a = .main → (∃ e, s.main = .recording e) → s.Drains

theorem sourceStep_failed (taken : sourceStep s = some t) :
    t.failed = s.failed ∨ t.source = .closing := by
  unfold sourceStep at taken
  split at taken
  case h_4 => (split at taken <;> try split at taken) <;> cases taken <;> exact .inl rfl
  case h_5 =>
    cases taken
    exact .inr rfl
  case h_7 => cases taken
  all_goals
    cases taken
    exact .inl rfl

theorem workerStep_failed {i : Fin P.workers} (taken : workerStep s i = some t) :
    t.failed = s.failed ∨ t.workers i = .closingIn := by
  unfold workerStep at taken
  split at taken
  case h_2 | h_3 | h_4 =>
    (split at taken <;> try split at taken) <;> cases taken <;> exact .inl rfl
  case h_5 =>
    cases taken
    exact .inr (Function.update_self ..)
  case h_8 => cases taken
  all_goals
    cases taken
    exact .inl rfl

theorem mainStep_failed (taken : mainStep s = some t) :
    t.failed = s.failed ∨ ∃ e, s.main = .recording e := by
  unfold mainStep at taken
  split at taken
  case h_3 =>
    cases taken
    exact .inl (drainStep_sameThreads s).failed
  case h_7 =>
    cases taken
    exact .inl (finishStep_sameThreads s).failed
  case h_8 e recording => exact .inr ⟨e, recording⟩
  case h_12 => cases taken
  all_goals
    (try split at taken) <;> (try split at taken) <;> cases taken <;> exact .inl rfl

/-- A first failure is recorded by a thread that closes the input, or in a draining state. -/
theorem step_first_failure {a : Action P.workers ε} (meets : FailsDrained s a)
    (fine : s.failed = false) (taken : step s a = some t) (failed : t.failed = true) :
    t.Drains := by
  have changed : t.failed ≠ s.failed := by
    rw [fine, failed]
    exact Bool.noConfusion
  cases a with
  | source => exact .source (.inr ((sourceStep_failed taken).resolve_left changed))
  | sourceFails e => exact sourceFails_drains taken
  | worker i => exact .worker i (.inr (.inl ((workerStep_failed taken).resolve_left changed)))
  | workerFails i e => exact workerFails_drains taken
  | joiner =>
    refine absurd ?_ changed
    simp only [step, joinerStep] at taken
    split at taken <;> cases taken
    rfl
  | main =>
    exact mainStep_drains (meets rfl ((mainStep_failed taken).resolve_left changed)) taken
  | mainFails e =>
    refine absurd ?_ changed
    simp only [step, mainFails] at taken
    split at taken <;> cases taken <;> rfl

theorem Run.drains {sink : σ} (run : Run FailsDrained (init P sink) s) (failed : s.failed = true) :
    s.Drains := by
  induction run with
  | refl => cases failed
  | @next s t a run meets taken ih =>
    by_cases before : s.failed = true
    · exact step_drains before (ih before) taken
    · exact step_first_failure meets (by simpa using before) taken failed

/-- A run in which the main thread fails only in draining states never gets stuck. -/
theorem Run.not_stuck {sink : σ} (run : Run FailsDrained (init P sink) s) : ¬s.Stuck := by
  intro stuck
  obtain ⟨failed, exited, opened, full, item, accepted, refused, pushing⟩ :=
    stuck_shape run.shutdown stuck
  have none : s.popping = 0 := by
    rw [State.popping]
    exact Finset.sum_eq_zero fun i _ => by rw [exited i]; rfl
  have more : P.capacity < s.ahead.length := by
    rw [State.ahead, pushing, List.length_append]
    exact Nat.lt_of_lt_of_le (Nat.lt_succ_of_le full)
      (Nat.add_le_add_left (Nat.succ_le_of_lt (List.length_pos_of_mem List.mem_cons_self)) _)
  cases run.drains failed with
  | closed closed =>
    rw [opened] at closed
    cases closed
  | source closes =>
    rw [pushing] at closes
    rcases closes with ⟨e, no⟩ | no <;> cases no
  | worker i closes =>
    rw [exited i] at closes
    rcases closes with ⟨e, no⟩ | no | ⟨item, e, no, _⟩ <;> cases no
  | poison x e among fails =>
    rw [none, List.take_zero] at among
    cases among
  | room fits => omega

end Drains

end OrderedPipeline
