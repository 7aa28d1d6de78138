import Bseal.Lib.OrderedDrain
import Mathlib.Algebra.BigOperators.Group.Multiset.Basic
import Mathlib.Data.List.Perm.Basic

/-! What the sink of a pipeline is asked to do. While nothing has failed, no item is lost or
made twice between the source and the sink, and the sink sees the indices in order; it is
asked to finish only when everything has arrived and nothing has failed. -/
namespace OrderedPipeline
variable {α β ε σ : Type} {P : Pipeline α β ε σ}

/-- What the source pushes while nothing fails and every push is accepted. -/
def Script.items : Script α ε → List α
  | .done | .throw _ => []
  | .check go _ => go.items
  | .push item accepted _ => item :: accepted.items

def Script.ending : Script α ε → Option ε
  | .done => none
  | .throw e => some e
  | .check go _ => go.ending
  | .push _ accepted _ => accepted.ending

def SourceState.items : SourceState α ε → List α
  | .running script => script.items
  | .recording _ | .closing | .finished => []

def SourceState.ending : SourceState α ε → Option ε
  | .running script => script.ending
  | .recording _ | .closing | .finished => none

def WorkerState.held (work : α → Except ε β) : WorkerState α β ε → Multiset (Except ε β)
  | .working item => {work item}
  | .pushing result => {.ok result}
  | .checking | .popping | .recording _ | .closingIn | .closingOut | .exited => 0

def MainState.held : MainState β ε → List β
  | .handling result => [result]
  | _ => []

def MainState.complete : MainState β ε → Bool
  | .checkingSink | .checkingFailed | .finishing => true
  | _ => false

def Call.result : Call β → Option β
  | .consume result => some result
  | .finish => none

def Pipeline.consumeAll (P : Pipeline α β ε σ) : List β → Effect ε σ Unit
  | [] => pure ()
  | b :: rest => do
    P.consume b
    P.consumeAll rest

theorem Pipeline.exec_consumeAll_concat (P : Pipeline α β ε σ) (bs : List β) (b : β)
    {start mid stop : σ} {u : Unit} (front : Effect.exec (P.consumeAll bs) start = (.ok (), mid))
    (last : Effect.exec (P.consume b) mid = (.ok u, stop)) :
    Effect.exec (P.consumeAll (bs ++ [b])) start = (.ok (), stop) := by
  induction bs generalizing start with
  | nil =>
    cases front
    exact (Effect.exec_bind_of_ok last).trans (Effect.exec_pure _ _)
  | cons c rest ih =>
    obtain ⟨_, next, first, more⟩ := (Effect.exec_bind_ok _ _ _ _ _).mp front
    exact (Effect.exec_bind_of_ok first).trans (ih more)

namespace State

def delivered (s : State P) : List β := s.calls.filterMap Call.result

/-- The items that no worker has taken, if nothing fails. -/
def toWork (s : State P) : List α := s.input.items ++ s.source.items

def made (s : State P) : List β := s.output.items ++ s.main.held ++ s.pending ++ s.delivered

/-- Everything between the source's script and the sink, as results of the work. -/
def flow (s : State P) : Multiset (Except ε β) :=
  Multiset.map P.work s.toWork + ∑ i, (s.workers i).held P.work + Multiset.map .ok s.made

structure Quiet (s : State P) : Prop where
  failed : s.failed = false
  source : ∀ e, s.source ≠ .recording e
  workers : ∀ i e, s.workers i ≠ .recording e
  main : ∀ e, s.main ≠ .recording e

end State

structure Conserved (start : σ) (s : State P) : Prop where
  calls : s.calls = s.delivered.map .consume
  ending : s.source.ending = P.script.ending
  flow : s.flow = Multiset.map P.work P.script.items
  order : s.delivered.map P.index = List.range s.next
  sink : Effect.exec (P.consumeAll s.delivered) start = (.ok (), s.sink)
  distinct : (s.pending.map P.index).Nodup
  complete : s.main.complete = true → s.pending = []
  checked : s.main = .checkingFailed ∨ s.main = .finishing → P.sinkCheck s.sink = none

section Quiet
variable {s t : State P}

theorem sourceStep_frame (taken : sourceStep s = some t) :
    ∃ source input failure,
      t = { s with source := source, input := input, failure := failure } := by
  unfold sourceStep at taken
  split at taken
  case h_4 => (split at taken <;> try split at taken) <;> cases taken <;> exact ⟨_, _, _, rfl⟩
  case h_7 => cases taken
  all_goals
    cases taken
    exact ⟨_, _, _, rfl⟩

theorem workerStep_frame {i : Fin P.workers} (taken : workerStep s i = some t) :
    ∃ w input output failure,
      t = { s with input := input, output := output, failure := failure }.setWorker i w := by
  unfold workerStep at taken
  split at taken
  case h_2 | h_3 | h_4 =>
    (split at taken <;> try split at taken) <;> cases taken <;> exact ⟨_, _, _, _, rfl⟩
  case h_8 => cases taken
  all_goals
    cases taken
    exact ⟨_, _, _, _, rfl⟩

theorem sourceFails_frame {e : ε} (taken : sourceFails s e = some t) :
    t = { s with source := .recording e } := by
  unfold sourceFails at taken
  split at taken <;> cases taken
  rfl

theorem workerFails_frame {i : Fin P.workers} {e : ε} (taken : workerFails s i e = some t) :
    t = s.setWorker i (.recording e) := by
  unfold workerFails at taken
  split at taken <;> cases taken <;> rfl

theorem mainFails_frame {e : ε} (taken : mainFails s e = some t) :
    t = { s with main := .recording e } := by
  unfold mainFails at taken
  split at taken <;> cases taken <;> rfl

theorem State.Quiet.of_later (quiet : t.Quiet) (later : Later s t)
    (source : ∀ e, s.source = .recording e → t.failed = true ∨ ∃ e, t.source = .recording e)
    (workers : ∀ i e, s.workers i = .recording e →
      t.failed = true ∨ ∃ e, t.workers i = .recording e)
    (main : ∀ e, s.main = .recording e → t.failed = true ∨ ∃ e, t.main = .recording e) :
    s.Quiet := by
  have fine : ¬t.failed = true := by
    rw [quiet.failed]
    exact Bool.noConfusion
  refine ⟨?_, ?_, ?_, ?_⟩
  · by_contra before
    exact fine (later.failed (by simpa using before))
  · intro e recording
    obtain ⟨e', still⟩ := (source e recording).resolve_left fine
    exact quiet.source e' still
  · intro i e recording
    obtain ⟨e', still⟩ := (workers i e recording).resolve_left fine
    exact quiet.workers i e' still
  · intro e recording
    obtain ⟨e', still⟩ := (main e recording).resolve_left fine
    exact quiet.main e' still

theorem sourceStep_quiet (quiet : t.Quiet) (taken : sourceStep s = some t) : s.Quiet := by
  have later := sourceStep_later taken
  have frame := sourceStep_frame taken
  refine quiet.of_later later (fun e recording => .inl ?_) (fun i e recording => .inr ⟨e, ?_⟩)
    fun e recording => .inr ⟨e, ?_⟩
  · rw [sourceStep, recording] at taken
    cases taken
    rfl
  all_goals
    obtain ⟨_, _, _, rfl⟩ := frame
    exact recording

theorem workerStep_quiet {i : Fin P.workers} (quiet : t.Quiet) (taken : workerStep s i = some t) :
    s.Quiet := by
  have later := workerStep_later taken
  have frame := workerStep_frame taken
  refine quiet.of_later later (fun e recording => .inr ⟨e, ?_⟩) (fun j e recording => ?_)
    fun e recording => .inr ⟨e, ?_⟩
  · obtain ⟨_, _, _, _, rfl⟩ := frame
    exact recording
  · by_cases hj : j = i
    · subst hj
      rw [workerStep, recording] at taken
      cases taken
      exact .inl rfl
    · obtain ⟨_, _, _, _, rfl⟩ := frame
      exact .inr ⟨e, by rwa [State.setWorker_workers, Function.update_of_ne hj]⟩
  · obtain ⟨_, _, _, _, rfl⟩ := frame
    exact recording

theorem mainStep_quiet (quiet : t.Quiet) (taken : mainStep s = some t) : s.Quiet := by
  have later := mainStep_later taken
  have frame := mainStep_frame taken
  refine quiet.of_later later (fun e recording => .inr ⟨e, ?_⟩)
    (fun i e recording => .inr ⟨e, ?_⟩) fun e recording => .inl ?_
  · rwa [frame.1]
  · rwa [frame.2.2]
  · rw [mainStep, recording] at taken
    cases taken
    rfl

theorem step_quiet {a : Action P.workers ε} (quiet : t.Quiet) (taken : step s a = some t) :
    s.Quiet := by
  cases a with
  | source => exact sourceStep_quiet quiet taken
  | sourceFails e =>
    cases sourceFails_frame taken
    exact absurd rfl (quiet.source e)
  | worker i => exact workerStep_quiet quiet taken
  | workerFails i e =>
    cases workerFails_frame taken
    exact absurd (Function.update_self ..) (quiet.workers i e)
  | joiner =>
    simp only [step, joinerStep] at taken
    split at taken <;> cases taken
    exact ⟨quiet.failed, quiet.source, quiet.workers, quiet.main⟩
  | main => exact mainStep_quiet quiet taken
  | mainFails e =>
    cases mainFails_frame taken
    exact absurd rfl (quiet.main e)

theorem State.Quiet.open_input (quiet : s.Quiet) (inv : Shutdown s) (busy : s.source ≠ .finished) :
    s.input.closed = false := by
  by_contra closed
  rcases inv.input (by simpa using closed) with failed | finished
  · rw [quiet.failed] at failed
    cases failed
  · exact busy finished

theorem State.Quiet.open_output {i : Fin P.workers} (quiet : s.Quiet) (inv : Shutdown s)
    (busy : s.workers i ≠ .exited) : s.output.closed = false := by
  by_contra closed
  rcases inv.output (by simpa using closed) with failed | all
  · rw [quiet.failed] at failed
    cases failed
  · exact busy (all i)

end Quiet

section Conserved
variable {s t : State P} {start : σ}

theorem Conserved.of_frame (kept : Conserved start s) (calls : t.calls = s.calls)
    (ending : t.source.ending = s.source.ending) (flow : t.flow = s.flow) (next : t.next = s.next)
    (sink : t.sink = s.sink) (pending : t.pending = s.pending) (main : t.main = s.main) :
    Conserved start t where
  calls := by rw [State.delivered, calls]; exact kept.calls
  ending := ending.trans kept.ending
  flow := flow.trans kept.flow
  order := by rw [State.delivered, calls, next]; exact kept.order
  sink := by rw [State.delivered, calls, sink]; exact kept.sink
  distinct := by rw [pending]; exact kept.distinct
  complete := by rw [main, pending]; exact kept.complete
  checked := by rw [main, sink]; exact kept.checked

theorem sourceStep_conserved (inv : Shutdown s) (quiet : t.Quiet) (kept : Conserved start s)
    (taken : sourceStep s = some t) : Conserved start t := by
  have before := sourceStep_quiet quiet taken
  unfold sourceStep at taken
  split at taken
  case h_1 running =>
    cases taken
    refine kept.of_frame rfl ?_ ?_ rfl rfl rfl rfl
    · rw [running]
      rfl
    · rw [State.flow, State.flow, State.toWork, State.toWork, running]
      rfl
  case h_2 e _ =>
    cases taken
    exact absurd rfl (quiet.source e)
  case h_3 running =>
    cases taken
    refine kept.of_frame rfl ?_ ?_ rfl rfl rfl rfl
    · rw [running, before.failed]
      rfl
    · rw [State.flow, State.flow, State.toWork, State.toWork, running, before.failed]
      rfl
  case h_4 item accepted refused running =>
    rw [before.open_input inv (by rw [running]; simp)] at taken
    split at taken
    case isTrue no => cases no
    split at taken
    · cases taken
      refine kept.of_frame rfl ?_ ?_ rfl rfl rfl rfl
      · rw [running]
        rfl
      · refine congrArg (fun items : List α => Multiset.map P.work items + _ + _) ?_
        rw [State.toWork, State.toWork, running]
        exact List.append_assoc _ _ _
    · cases taken
  case h_5 =>
    cases taken
    cases quiet.failed
  case h_6 closing =>
    have known := inv.source
    rw [closing] at known
    have fine := before.failed
    rw [show s.failed = true from known] at fine
    cases fine
  case h_7 => cases taken

theorem flow_setWorker (u : State P) (i : Fin P.workers) (w : WorkerState α β ε) :
    (u.setWorker i w).flow + (u.workers i).held P.work = u.flow + w.held P.work := by
  have sums := Threads.sum_update u.workers i w (WorkerState.held P.work)
  have split : (u.setWorker i w).flow = Multiset.map P.work u.toWork +
      ∑ j, (Function.update u.workers i w j).held P.work + Multiset.map .ok u.made := rfl
  rw [split, State.flow, add_right_comm, add_assoc _ (∑ j, _) _, sums, ← add_assoc,
    add_right_comm]

theorem Conserved.of_worker {u : State P} {i : Fin P.workers} {w : WorkerState α β ε}
    (kept : Conserved start s) (workers : u.workers = s.workers)
    (flow : u.flow + w.held P.work = s.flow + (s.workers i).held P.work)
    (calls : u.calls = s.calls) (source : u.source = s.source) (next : u.next = s.next)
    (sink : u.sink = s.sink) (pending : u.pending = s.pending) (main : u.main = s.main) :
    Conserved start (u.setWorker i w) := by
  refine kept.of_frame calls ?_ ?_ next sink pending main
  · rw [State.setWorker_source, source]
  · have moved := flow_setWorker u i w
    rw [flow, workers] at moved
    exact add_right_cancel moved

theorem workerStep_conserved {i : Fin P.workers} (inv : Shutdown s) (quiet : t.Quiet)
    (kept : Conserved start s) (taken : workerStep s i = some t) : Conserved start t := by
  have before := workerStep_quiet quiet taken
  unfold workerStep at taken
  split at taken
  case h_1 checking =>
    cases taken
    refine kept.of_worker rfl ?_ rfl rfl rfl rfl rfl rfl
    rw [checking, before.failed]
    rfl
  case h_2 popping =>
    split at taken
    case h_1 item rest front =>
      cases taken
      refine kept.of_worker rfl ?_ rfl rfl rfl rfl rfl rfl
      have first : s.toWork = item :: (rest ++ s.source.items) := by
        rw [State.toWork, front]
        rfl
      rw [popping, State.flow, State.flow, first, ← Multiset.cons_coe, Multiset.map_cons,
        ← Multiset.singleton_add, add_assoc {P.work item}, add_assoc {P.work item}]
      exact (add_comm _ _).trans (add_zero _).symm
    case h_2 =>
      split at taken
      · cases taken
        refine kept.of_worker rfl ?_ rfl rfl rfl rfl rfl rfl
        rw [popping]
        rfl
      · cases taken
  case h_3 item working =>
    split at taken
    case h_1 result ok =>
      cases taken
      refine kept.of_worker rfl ?_ rfl rfl rfl rfl rfl rfl
      rw [working, WorkerState.held, WorkerState.held, ok]
    case h_2 e _ =>
      cases taken
      exact absurd (Function.update_self ..) (quiet.workers i e)
  case h_4 result pushing =>
    rw [before.open_output inv (by rw [pushing]; simp)] at taken
    split at taken
    case isTrue no => cases no
    split at taken
    · cases taken
      refine kept.of_worker rfl ?_ rfl rfl rfl rfl rfl rfl
      have last : ({ s with output := s.output.put result } : State P).made =
          s.output.items ++ [result] ++ s.main.held ++ s.pending ++ s.delivered := rfl
      have moved : (({ s with output := s.output.put result } : State P).made : Multiset β) =
          {result} + s.made := by
        rw [last, State.made]
        refine Multiset.coe_eq_coe.mpr ?_
        simp only [List.append_assoc, List.singleton_append]
        exact List.perm_middle
      rw [State.flow, State.flow, moved, Multiset.map_add, Multiset.map_singleton, pushing,
        WorkerState.held, WorkerState.held, add_zero, add_comm {Except.ok result}, ← add_assoc]
      rfl
    · cases taken
  case h_5 =>
    cases taken
    cases quiet.failed
  case h_6 closing | h_7 closing =>
    have known := inv.workers i
    rw [closing] at known
    have fine := before.failed
    rw [show s.failed = true from known] at fine
    cases fine
  case h_8 => cases taken

theorem perm_take_index (index : β → Nat) {pending : List β} {result : β} {n : Nat}
    (distinct : (pending.map index).Nodup) (waits : result ∈ pending) (here : index result = n) :
    pending.Perm (result :: pending.filter fun b => index b ≠ n) := by
  induction pending with
  | nil => cases waits
  | cons c rest ih =>
    rw [List.map_cons, List.nodup_cons] at distinct
    rcases List.mem_cons.mp waits with rfl | later
    · rw [List.filter_cons_of_neg (by simpa using here), List.filter_eq_self.mpr]
      intro b hb
      refine decide_eq_true fun same => distinct.1 ?_
      rw [here, ← same]
      exact List.mem_map_of_mem hb
    · have other : index c ≠ n := by
        intro same
        refine distinct.1 ?_
        rw [same, ← here]
        exact List.mem_map_of_mem later
      rw [List.filter_cons_of_pos (by simpa using other)]
      exact ((ih distinct.2 later).cons c).trans (.swap _ _ _)

theorem flow_of_made (toWork : t.toWork = s.toWork) (workers : t.workers = s.workers)
    (made : t.made.Perm s.made) : t.flow = s.flow := by
  rw [State.flow, State.flow, toWork, workers, Multiset.coe_eq_coe.mpr made]

theorem Conserved.of_main (kept : Conserved start s) (main : MainState β ε)
    (held : main.held = s.main.held) (complete : main.complete = true → s.pending = [])
    (checked : main = .checkingFailed ∨ main = .finishing → P.sinkCheck s.sink = none) :
    Conserved start { s with main := main } where
  calls := kept.calls
  ending := kept.ending
  flow := by
    rw [← kept.flow]
    refine flow_of_made rfl rfl ?_
    rw [State.made, State.made, held]
    rfl
  order := kept.order
  sink := kept.sink
  distinct := kept.distinct
  complete := complete
  checked := checked

theorem delivered_concat (s : State P) (result : β) :
    (s.calls ++ [Call.consume result]).filterMap Call.result = s.delivered ++ [result] :=
  List.filterMap_append

theorem Conserved.consume (kept : Conserved start s) {result : β} {sink : σ} {u : Unit}
    (draining : s.main = .draining) (waits : result ∈ s.pending)
    (here : P.index result = s.next)
    (consumed : Effect.exec (P.consume result) s.sink = (.ok u, sink)) :
    Conserved start { s with
      sink := sink
      calls := s.calls ++ [.consume result]
      pending := s.pending.filter fun b => P.index b ≠ s.next
      next := s.next + 1 } := by
  refine ⟨?_, kept.ending, ?_, ?_, ?_, ?_, ?_, ?_⟩
  · rw [State.delivered, delivered_concat, List.map_append, ← kept.calls]
    rfl
  · rw [← kept.flow]
    refine flow_of_made rfl rfl ?_
    rw [State.made, State.made, State.delivered, delivered_concat]
    simp only [List.append_assoc]
    refine .append_left _ (.append_left _ ?_)
    refine .trans ?_ ((perm_take_index P.index kept.distinct waits here).symm.append_right _)
    rw [← List.append_assoc]
    exact List.perm_append_singleton _ _
  · rw [State.delivered, delivered_concat, List.map_append, kept.order, List.range_succ, ← here]
    rfl
  · rw [State.delivered, delivered_concat]
    exact P.exec_consumeAll_concat _ _ kept.sink consumed
  · exact kept.distinct.sublist (List.filter_sublist.map _)
  · rw [draining]
    nofun
  · rw [draining]
    rintro (no | no) <;> cases no

theorem drainStep_conserved (kept : Conserved start s) (draining : s.main = .draining)
    (quiet : (drainStep s).Quiet) : Conserved start (drainStep s) := by
  unfold drainStep at quiet ⊢
  split at quiet
  case h_1 =>
    exact kept.of_main .popping (by rw [draining]; rfl) nofun (by rintro (no | no) <;> cases no)
  case h_2 result found =>
    split at quiet
    case h_1 u sink consumed =>
      exact kept.consume draining (List.mem_of_find?_eq_some found)
        (by simpa using List.find?_some found) consumed
    case h_2 e sink consumed => exact absurd rfl (quiet.main e)

theorem mainStep_conserved (inv : Shutdown s) (quiet : t.Quiet) (kept : Conserved start s)
    (early : s.main ≠ .finishing) (taken : mainStep s = some t) : Conserved start t := by
  have before := mainStep_quiet quiet taken
  unfold mainStep at taken
  split at taken
  case h_1 popping =>
    split at taken
    case h_1 result rest front =>
      cases taken
      refine ⟨kept.calls, kept.ending, ?_, kept.order, kept.sink, kept.distinct, nofun, ?_⟩
      · rw [← kept.flow]
        refine flow_of_made rfl rfl ?_
        rw [State.made, State.made, front, popping]
        simp only [MainState.held, List.append_assoc, List.nil_append, List.cons_append]
        exact List.perm_middle
      · rintro (no | no) <;> cases no
    case h_2 =>
      split at taken
      · cases taken
        refine kept.of_main .checkingPending (by rw [popping]; rfl) nofun ?_
        rintro (no | no) <;> cases no
      · cases taken
  case h_2 result handling =>
    split at taken
    · cases taken
      exact absurd rfl (quiet.main _)
    · split at taken
      · cases taken
        exact absurd rfl (quiet.main _)
      case isFalse fresh =>
        cases taken
        refine ⟨kept.calls, kept.ending, ?_, kept.order, kept.sink, ?_, nofun, ?_⟩
        · rw [← kept.flow]
          refine flow_of_made rfl rfl ?_
          rw [State.made, State.made, handling]
          simp only [MainState.held, List.append_assoc, List.nil_append, List.cons_append]
          rfl
        · rw [List.map_cons, List.nodup_cons]
          refine ⟨fun again => fresh ?_, kept.distinct⟩
          obtain ⟨b, hb, same⟩ := List.mem_map.mp again
          exact List.any_eq_true.mpr ⟨b, hb, decide_eq_true same⟩
        · rintro (no | no) <;> cases no
  case h_3 draining =>
    cases taken
    exact drainStep_conserved kept draining quiet
  case h_4 checking =>
    split at taken
    · cases taken
      exact absurd rfl (quiet.main _)
    case isFalse complete =>
      cases taken
      refine kept.of_main .checkingSink (by rw [checking]; rfl) (fun _ => ?_) ?_
      · simpa [before.failed] using complete
      · rintro (no | no) <;> cases no
  case h_5 checking =>
    rw [before.failed] at taken
    split at taken
    case isTrue no => cases no
    split at taken
    · cases taken
      exact absurd rfl (quiet.main _)
    case h_2 fine =>
      cases taken
      exact kept.of_main .checkingFailed (by rw [checking]; rfl)
        (fun _ => kept.complete (by rw [checking]; rfl)) fun _ => fine
  case h_6 checking =>
    cases taken
    rw [before.failed]
    exact kept.of_main .finishing (by rw [checking]; rfl)
      (fun _ => kept.complete (by rw [checking]; rfl)) fun _ => kept.checked (.inl checking)
  case h_7 finishing => exact absurd finishing early
  case h_8 e _ =>
    cases taken
    cases quiet.failed
  case h_9 closing =>
    have known := inv.main
    rw [closing] at known
    have fine := before.failed
    rw [show s.failed = true from known] at fine
    cases fine
  case h_10 joining =>
    split at taken <;> cases taken
    exact kept.of_main .joiningJoiner (by rw [joining]; rfl) nofun
      (by rintro (no | no) <;> cases no)
  case h_11 joining =>
    split at taken <;> cases taken
    exact kept.of_main .returned (by rw [joining]; rfl) nofun (by rintro (no | no) <;> cases no)
  case h_12 => cases taken

theorem joinerStep_conserved (kept : Conserved start s) (taken : joinerStep s = some t) :
    Conserved start t := by
  unfold joinerStep at taken
  split at taken <;> cases taken
  exact kept.of_frame rfl rfl rfl rfl rfl rfl rfl

theorem step_conserved {a : Action P.workers ε} (inv : Shutdown s) (quiet : t.Quiet)
    (kept : Conserved start s) (early : a = .main → s.main ≠ .finishing)
    (taken : step s a = some t) : Conserved start t := by
  cases a with
  | source => exact sourceStep_conserved inv quiet kept taken
  | sourceFails e =>
    cases sourceFails_frame taken
    exact absurd rfl (quiet.source e)
  | worker i => exact workerStep_conserved inv quiet kept taken
  | workerFails i e =>
    cases workerFails_frame taken
    exact absurd (Function.update_self ..) (quiet.workers i e)
  | joiner => exact joinerStep_conserved kept taken
  | main => exact mainStep_conserved inv quiet kept (early rfl) taken
  | mainFails e =>
    cases mainFails_frame taken
    exact absurd rfl (quiet.main e)

theorem init_conserved (P : Pipeline α β ε σ) (start : σ) :
    Conserved start (init P start) where
  calls := rfl
  ending := rfl
  flow := by
    have none : ∑ i, ((init P start).workers i).held P.work = 0 :=
      Finset.sum_eq_zero fun _ _ => rfl
    rw [State.flow, none]
    exact (add_zero _).trans (add_zero _)
  order := rfl
  sink := rfl
  distinct := .nil
  complete := nofun
  checked := by rintro (no | no) <;> cases no

end Conserved

/-- The sink got every result once, in index order, from a source that reached its end with
every item worked on, and was then asked to finish; nobody can fail any more but the main
thread, with what finishing threw. -/
structure Completed (start : σ) (s : State P) (out : List β) (mid : σ) : Prop where
  calls : s.calls = out.map .consume ++ [.finish]
  order : out.map P.index = List.range out.length
  results : Multiset.map P.work P.script.items = Multiset.map Except.ok out
  ending : P.script.ending = none
  consumed : Effect.exec (P.consumeAll out) start = (.ok (), mid)
  checked : P.sinkCheck mid = none
  sink : s.sink = (Effect.exec P.finish mid).2
  source : s.source = .finished
  workers : ∀ i, s.workers i = .exited
  after : s.main = .closing ∨ s.main = .joiningSource ∨ s.main = .joiningJoiner ∨
    s.main = .returned ∨ ∃ e, s.main = .recording e
  outcome : match (Effect.exec P.finish mid).1 with
    | .ok _ => s.failure = none ∧ ∀ e, s.main ≠ .recording e
    | .error e => s.failure = none ∧ s.main = .recording e ∨
        s.failure = some e ∧ ∀ e, s.main ≠ .recording e

def MainState.joins : MainState β ε → Bool
  | .joiningSource | .joiningJoiner | .returned => true
  | _ => false

structure Delivering (start : σ) (s : State P) : Prop where
  unfinished : Call.finish ∉ s.calls
  kept : s.Quiet → Conserved start s
  finishing : s.main = .finishing → s.Quiet
  joins : s.main.joins = true → ¬s.Quiet

section Run
variable {s t : State P} {start : σ}

theorem Shutdown.settled (inv : Shutdown s) (fine : s.failed = false)
    (closed : s.output.closed = true) :
    s.source = .finished ∧ s.input.items = [] ∧ ∀ i, s.workers i = .exited := by
  have unfailed : ¬s.failed = true := by
    rw [fine]
    exact Bool.noConfusion
  have all := (inv.output closed).resolve_left unfailed
  have known := inv.workers ⟨0, P.workersPos⟩
  rw [all] at known
  obtain ⟨inputClosed, empty⟩ := known.resolve_left unfailed
  exact ⟨(inv.input inputClosed).resolve_left unfailed, empty, all⟩

theorem Shutdown.quiet (inv : Shutdown s) (fine : s.failed = false)
    (closed : s.output.closed = true) (main : ∀ e, s.main ≠ .recording e) : s.Quiet := by
  obtain ⟨source, _, workers⟩ := inv.settled fine closed
  exact ⟨fine, fun e => by rw [source]; nofun, fun i e => by rw [workers]; nofun, main⟩

theorem sourceStep_of_finished (finished : s.source = .finished) : sourceStep s = none := by
  rw [sourceStep, finished]

theorem workerStep_of_exited {i : Fin P.workers} (exited : s.workers i = .exited) :
    workerStep s i = none := by
  rw [workerStep, exited]

theorem step_of_settled {a : Action P.workers ε} (source : s.source = .finished)
    (workers : ∀ i, s.workers i = .exited) (taken : step s a = some t) :
    a = .joiner ∧ t = { s with output := s.output.close, joined := true } ∨ a = .main ∨
      ∃ e, a = .mainFails e := by
  cases a with
  | source =>
    rw [step, sourceStep_of_finished source] at taken
    cases taken
  | sourceFails e =>
    rw [step, sourceFails, source] at taken
    cases taken
  | worker i =>
    rw [step, workerStep_of_exited (workers i)] at taken
    cases taken
  | workerFails i e =>
    rw [step, workerFails, workers i] at taken
    cases taken
  | joiner =>
    simp only [step, joinerStep] at taken
    split at taken <;> cases taken
    exact .inl ⟨rfl, rfl⟩
  | main => exact .inr (.inl rfl)
  | mainFails e => exact .inr (.inr ⟨e, rfl⟩)

theorem finishStep_completed (inv : Shutdown s) (delivering : Delivering start s)
    (finishing : s.main = .finishing) :
    Completed start (finishStep s) s.delivered s.sink := by
  have quiet := delivering.finishing finishing
  have kept := delivering.kept quiet
  have main := inv.main
  rw [finishing] at main
  obtain ⟨source, empty, workers⟩ := inv.settled quiet.failed main.1
  have count : s.delivered.length = s.next := by
    have mapped := congrArg List.length kept.order
    rwa [List.length_map, List.length_range] at mapped
  have results : Multiset.map P.work P.script.items = Multiset.map Except.ok s.delivered := by
    have none : ∑ i, (s.workers i).held P.work = 0 :=
      Finset.sum_eq_zero fun i _ => by rw [workers i]; rfl
    rw [← kept.flow, State.flow, none, State.toWork, State.made, empty, source, main.2, finishing,
      kept.complete (by rw [finishing]; rfl)]
    exact zero_add _
  have ending : P.script.ending = none := by
    rw [← kept.ending, source]
    rfl
  have checked := kept.checked (.inr finishing)
  have failure : s.failure = none := by simpa [State.failed] using quiet.failed
  unfold finishStep
  rcases asked : Effect.exec P.finish s.sink with ⟨e | u, sink⟩
  · refine ⟨?_, by rw [kept.order, count], results, ending, kept.sink, checked, by rw [asked],
      source, workers, .inr (.inr (.inr (.inr ⟨e, rfl⟩))), ?_⟩
    · rw [← kept.calls]
    · rw [asked]
      exact .inl ⟨failure, rfl⟩
  · refine ⟨?_, by rw [kept.order, count], results, ending, kept.sink, checked, by rw [asked],
      source, workers, .inr (.inl rfl), ?_⟩
    · rw [← kept.calls]
    · rw [asked]
      exact ⟨failure, by simp⟩

theorem mainStep_calls (other : s.main ≠ .finishing) (unfinished : Call.finish ∉ s.calls)
    (taken : mainStep s = some t) : Call.finish ∉ t.calls := by
  unfold mainStep at taken
  split at taken
  case h_3 =>
    cases taken
    unfold drainStep
    split
    · exact unfinished
    · split
      all_goals
        rw [List.mem_append, not_or]
        exact ⟨unfinished, by simp⟩
  case h_7 finishing => exact absurd finishing other
  case h_12 => cases taken
  all_goals
    (try split at taken) <;> (try split at taken) <;> cases taken <;> exact unfinished

theorem drainStep_main (s : State P) (draining : s.main = .draining) :
    (drainStep s).main = .popping ∨ (drainStep s).main = .draining ∨
      ∃ e, (drainStep s).main = .recording e := by
  unfold drainStep
  split
  · exact .inl rfl
  · split
    · exact .inr (.inl draining)
    · exact .inr (.inr ⟨_, rfl⟩)

theorem mainStep_from (other : s.main ≠ .finishing) (taken : mainStep s = some t) :
    (t.main = .finishing → s.failed = false ∧ t = { s with main := .finishing }) ∧
      (t.main.joins = true → s.main.joins = true ∨ s.failed = true ∨ s.main = .closing) := by
  unfold mainStep at taken
  split at taken
  case h_3 draining =>
    cases taken
    rcases drainStep_main s draining with main | main | ⟨e, main⟩ <;>
      exact ⟨by rw [main]; nofun, by rw [main]; nofun⟩
  case h_6 =>
    cases taken
    by_cases failed : s.failed = true
    · rw [if_pos failed]
      exact ⟨nofun, fun _ => .inr (.inl failed)⟩
    · rw [if_neg failed]
      exact ⟨fun _ => ⟨by simpa using failed, rfl⟩, nofun⟩
  case h_7 finishing => exact absurd finishing other
  case h_9 closing =>
    cases taken
    exact ⟨nofun, fun _ => .inr (.inr closing)⟩
  case h_10 joining | h_11 joining =>
    split at taken <;> cases taken
    exact ⟨nofun, fun _ => .inl (by rw [joining]; rfl)⟩
  case h_12 => cases taken
  all_goals
    (try split at taken) <;> (try split at taken) <;> cases taken <;> exact ⟨nofun, nofun⟩

theorem Delivering.of_frame {a : Action P.workers ε} (delivering : Delivering start s)
    (inv : Shutdown s) (taken : step s a = some t) (other : a ≠ .main) (calls : t.calls = s.calls)
    (main : t.main = s.main) (fine : s.main = .finishing → t.failed = false) :
    Delivering start t where
  unfinished := by rw [calls]; exact delivering.unfinished
  kept quiet := step_conserved inv quiet (delivering.kept (step_quiet quiet taken))
    (fun same => absurd same other) taken
  finishing here := by
    rw [main] at here
    have known := (step_shutdown inv taken).main
    rw [main, here] at known
    exact (step_shutdown inv taken).quiet (fine here) known.1 (by rw [main, here]; simp)
  joins here quiet := by
    rw [main] at here
    exact delivering.joins here (step_quiet quiet taken)

theorem mainStep_delivering (inv : Shutdown s) (delivering : Delivering start s)
    (other : s.main ≠ .finishing) (taken : mainStep s = some t) : Delivering start t := by
  obtain ⟨finishing, joins⟩ := mainStep_from other taken
  refine ⟨mainStep_calls other delivering.unfinished taken, fun quiet => ?_, fun here => ?_,
    fun here quiet => ?_⟩
  · exact mainStep_conserved inv quiet (delivering.kept (mainStep_quiet quiet taken)) other taken
  · obtain ⟨fine, same⟩ := finishing here
    have after := step_shutdown (a := .main) inv taken
    have known := after.main
    rw [here] at known
    exact after.quiet (by rw [same]; exact fine) known.1 (by rw [here]; simp)
  · have before := mainStep_quiet quiet taken
    rcases joins here with already | failed | closing
    · exact delivering.joins already before
    · rw [before.failed] at failed
      cases failed
    · have known := inv.main
      rw [closing] at known
      have fine := before.failed
      rw [show s.failed = true from known] at fine
      cases fine

theorem step_delivering {a : Action P.workers ε} (inv : Shutdown s)
    (delivering : Delivering start s) (taken : step s a = some t) :
    Delivering start t ∨ s.main = .finishing ∧ Completed start t s.delivered s.sink := by
  -- a thread that moves while the main thread is finishing can only be the joiner
  have settled : s.main = .finishing → a ≠ .main → (∀ e, a ≠ .mainFails e) →
      t.failed = false := by
    intro here notMain notFails
    have quiet := delivering.finishing here
    have known := inv.main
    rw [here] at known
    obtain ⟨source, _, workers⟩ := inv.settled quiet.failed known.1
    rcases step_of_settled source workers taken with ⟨_, rfl⟩ | same | ⟨e, same⟩
    · exact quiet.failed
    · exact absurd same notMain
    · exact absurd same (notFails e)
  cases a with
  | main =>
    by_cases finishing : s.main = .finishing
    · rw [step, mainStep, finishing] at taken
      cases taken
      exact .inr ⟨finishing, finishStep_completed inv delivering finishing⟩
    · exact .inl (mainStep_delivering inv delivering finishing taken)
  | mainFails e =>
    cases mainFails_frame taken
    exact .inl ⟨delivering.unfinished, fun quiet => absurd rfl (quiet.main e), (by simp),
      by simp [MainState.joins]⟩
  | source =>
    have frame := sourceStep_frame taken
    refine .inl (delivering.of_frame inv taken (by simp) ?_ ?_ fun here =>
      settled here (by simp) (by simp))
    all_goals
      obtain ⟨_, _, _, rfl⟩ := frame
      rfl
  | worker i =>
    have frame := workerStep_frame taken
    refine .inl (delivering.of_frame inv taken (by simp) ?_ ?_ fun here =>
      settled here (by simp) (by simp))
    all_goals
      obtain ⟨_, _, _, _, rfl⟩ := frame
      rfl
  | sourceFails e =>
    have frame := sourceFails_frame taken
    refine .inl (delivering.of_frame inv taken (by simp) ?_ ?_ fun here =>
      settled here (by simp) (by simp))
    all_goals
      rw [frame]
  | workerFails i e =>
    have frame := workerFails_frame taken
    refine .inl (delivering.of_frame inv taken (by simp) ?_ ?_ fun here =>
      settled here (by simp) (by simp))
    all_goals
      rw [frame]
      rfl
  | joiner =>
    have frame := taken
    simp only [step, joinerStep] at frame
    split at frame <;> cases frame
    exact .inl (delivering.of_frame inv taken (by simp) rfl rfl fun here =>
      settled here (by simp) (by simp))

theorem step_completed {a : Action P.workers ε} {out : List β} {mid : σ}
    (done : Completed start s out mid) (taken : step s a = some t) :
    Completed start t out mid := by
  have outcome := done.outcome
  rcases step_of_settled done.source done.workers taken with ⟨_, rfl⟩ | rfl | ⟨e, rfl⟩
  · exact ⟨done.calls, done.order, done.results, done.ending, done.consumed, done.checked,
      done.sink, done.source, done.workers, done.after, done.outcome⟩
  · have keep : ∀ u : State P, u.calls = s.calls → u.sink = s.sink → u.source = s.source →
        u.workers = s.workers → (u.main = .joiningSource ∨ u.main = .joiningJoiner ∨
          u.main = .returned) → u.failure = s.failure → (∀ e, s.main ≠ .recording e) →
        Completed start u out mid := by
      intro u calls sink source workers main failure notRecording
      have silent : ∀ e, u.main ≠ .recording e := by
        rcases main with main | main | main <;> rw [main] <;> simp
      refine ⟨by rw [calls]; exact done.calls, done.order, done.results, done.ending,
        done.consumed, done.checked, by rw [sink]; exact done.sink,
        by rw [source]; exact done.source,
        by rw [workers]; exact done.workers,
        .inr (main.imp id fun rest => rest.imp id .inl), ?_⟩
      revert outcome
      rcases (Effect.exec P.finish mid).1 with e | r
      · rintro (⟨_, recording⟩ | ⟨recorded, _⟩)
        · exact absurd recording (notRecording e)
        · exact .inr ⟨failure.trans recorded, silent⟩
      · rintro ⟨fine, _⟩
        exact ⟨failure.trans fine, silent⟩
    rcases done.after with main | main | main | main | ⟨e, main⟩
    · rw [step, mainStep, main] at taken
      cases taken
      exact keep _ rfl rfl rfl rfl (.inl rfl) rfl (by rw [main]; simp)
    · rw [step, mainStep, main] at taken
      simp only at taken
      split at taken <;> cases taken
      exact keep _ rfl rfl rfl rfl (.inr (.inl rfl)) rfl (by rw [main]; simp)
    · rw [step, mainStep, main] at taken
      simp only at taken
      split at taken <;> cases taken
      exact keep _ rfl rfl rfl rfl (.inr (.inr rfl)) rfl (by rw [main]; simp)
    · rw [step, mainStep, main] at taken
      cases taken
    · rw [step, mainStep, main] at taken
      cases taken
      refine ⟨done.calls, done.order, done.results, done.ending, done.consumed, done.checked,
        done.sink, done.source, done.workers, .inl rfl, ?_⟩
      revert outcome
      rcases (Effect.exec P.finish mid).1 with e' | r
      · rintro (⟨fine, recording⟩ | ⟨_, notRecording⟩)
        · rw [main] at recording
          cases recording
          refine .inr ⟨?_, by simp⟩
          change some (s.failure.getD e) = some e
          rw [fine]
          rfl
        · exact absurd main (notRecording e)
      · rintro ⟨_, notRecording⟩
        exact absurd main (notRecording e)
  · rw [step, mainFails] at taken
    rcases done.after with main | main | main | main | ⟨e', main⟩ <;>
      (rw [main] at taken; cases taken)

theorem Run.delivering_or_completed {allowed : State P → Action P.workers ε → Prop}
    (run : Run allowed (init P start) s) :
    Delivering start s ∨ ∃ out mid, Completed start s out mid := by
  induction run with
  | refl =>
    refine .inl ⟨by simp [init], fun _ => init_conserved P start,
      by simp [init], by simp [init, MainState.joins]⟩
  | next run meets taken ih =>
    rcases ih with delivering | ⟨out, mid, done⟩
    · exact (step_delivering run.shutdown delivering taken).imp id fun done => ⟨_, _, done.2⟩
    · exact .inr ⟨out, mid, step_completed done taken⟩

/-- The sink is asked to finish only after everything has arrived and nothing has failed. -/
theorem Run.completed_of_finish {allowed : State P → Action P.workers ε → Prop}
    (run : Run allowed (init P start) s) (asked : Call.finish ∈ s.calls) :
    ∃ out mid, Completed start s out mid :=
  run.delivering_or_completed.resolve_left fun delivering => delivering.unfinished asked

theorem Run.completed_of_returned {allowed : State P → Action P.workers ε → Prop}
    (run : Run allowed (init P start) s) (returned : s.main = .returned)
    (fine : s.failure = none) :
    ∃ out mid, Completed start s out mid ∧ ∃ u, (Effect.exec P.finish mid).1 = .ok u := by
  have failed : s.failed = false := by rw [State.failed, fine]; rfl
  have known := run.shutdown.main
  rw [returned] at known
  rcases run.delivering_or_completed with delivering | ⟨out, mid, done⟩
  · exact absurd (run.shutdown.quiet failed known.1 (by rw [returned]; simp))
      (delivering.joins (by rw [returned]; rfl))
  · refine ⟨out, mid, done, ?_⟩
    have outcome := done.outcome
    revert outcome
    rcases (Effect.exec P.finish mid).1 with e | u
    · rintro (⟨_, recording⟩ | ⟨recorded, _⟩)
      · rw [returned] at recording
        cases recording
      · rw [fine] at recorded
        cases recorded
    · exact fun _ => ⟨u, rfl⟩

/-- After a failure no run asks the sink to finish, and every run that returns reports it. -/
theorem Run.no_finish_after_failure {allowed : State P → Action P.workers ε → Prop}
    (before : Run allowed (init P start) s) (unfinished : Call.finish ∉ s.calls)
    (troubled : ¬s.Quiet) (run : Run allowed s t) :
    Call.finish ∉ t.calls ∧ ¬t.Quiet ∧ (t.main = .returned → t.failed = true) := by
  have both : Delivering start t ∧ ¬t.Quiet ∧ Shutdown t := by
    induction run with
    | refl =>
      refine ⟨?_, troubled, before.shutdown⟩
      refine before.delivering_or_completed.resolve_right ?_
      rintro ⟨out, mid, done⟩
      exact unfinished (by rw [done.calls]; simp)
    | @next u v a run meets taken ih =>
      obtain ⟨delivering, noisy, inv⟩ := ih
      refine ⟨?_, fun quiet => noisy (step_quiet quiet taken), step_shutdown inv taken⟩
      exact (step_delivering inv delivering taken).resolve_right
        fun asks => noisy (delivering.finishing asks.1)
  obtain ⟨delivering, noisy, inv⟩ := both
  refine ⟨delivering.unfinished, noisy, fun returned => ?_⟩
  by_contra fine
  have known := inv.main
  rw [returned] at known
  exact noisy (inv.quiet (by simpa using fine) known.1 (by rw [returned]; simp))

theorem Completed.sorted {out : List β} {mid : σ} (done : Completed start s out mid)
    (key : α → Nat) (agree : ∀ a b, P.work a = .ok b → P.index b = key a) :
    ∃ items, items.Perm P.script.items ∧ List.Forall₂ (fun a b => P.work a = .ok b) items out ∧
      items.map key = List.range out.length := by
  have shuffled : (out.map Except.ok).Perm (P.script.items.map P.work) := by
    refine Multiset.coe_eq_coe.mp ?_
    rw [← Multiset.map_coe, ← Multiset.map_coe, done.results]
  have made : List.Forall₂ (fun (x : Except ε β) a => P.work a = x)
      (P.script.items.map P.work) P.script.items := by
    rw [List.forall₂_map_left_iff]
    exact List.forall₂_same.mpr fun a _ => rfl
  obtain ⟨items, matched, perm⟩ := List.perm_comp_forall₂ shuffled made
  rw [List.forall₂_map_left_iff] at matched
  refine ⟨items, perm, matched.flip, ?_⟩
  rw [← done.order]
  have keys : List.Forall₂ (· = ·) (items.map key) (out.map P.index) := by
    rw [List.forall₂_map_left_iff, List.forall₂_map_right_iff]
    exact matched.flip.imp fun a b worked => (agree a b worked).symm
  rwa [List.forall₂_eq_eq_eq] at keys

/-- A source that numbers its items gets their results delivered in its own order. -/
theorem Completed.in_order {out : List β} {mid : σ} (done : Completed start s out mid)
    (key : α → Nat) (agree : ∀ a b, P.work a = .ok b → P.index b = key a)
    (numbered : P.script.items.map key = List.range P.script.items.length) :
    List.Forall₂ (fun a b => P.work a = .ok b) P.script.items out := by
  obtain ⟨items, perm, matched, keys⟩ := done.sorted key agree
  have rises : ∀ {l : List α} {n : Nat}, l.map key = List.range n →
      l.Pairwise fun a b => key a < key b := by
    intro l n same
    have pairwise := @List.pairwise_lt_range n
    rw [← same, List.pairwise_map] at pairwise
    exact pairwise
  have same : items = P.script.items :=
    perm.eq_of_pairwise (fun a b _ _ less more => absurd less more.asymm) (rises keys)
      (rises numbered)
  rwa [same] at matched

end Run

end OrderedPipeline
