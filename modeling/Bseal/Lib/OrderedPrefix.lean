import Bseal.Lib.OrderedDelivery

/-! What the sink has been given in any reachable state, whatever has been thrown: results of items
that the source pushes, under the indices 0, 1, 2 and so on. -/
namespace OrderedPipeline
variable {α β ε σ : Type}

def Script.Pushes (item : α) : Script α ε → Prop
  | .done | .throw _ => False
  | .check go stopped => go.Pushes item ∨ stopped.Pushes item
  | .push here accepted refused => item = here ∨ accepted.Pushes item ∨ refused.Pushes item

def SourceState.Pushes (item : α) : SourceState α ε → Prop
  | .running script => script.Pushes item
  | .recording _ | .closing | .finished => False

def Pipeline.Makes (P : Pipeline α β ε σ) (result : β) : Prop :=
  ∃ item, P.script.Pushes item ∧ P.work item = .ok result

def WorkerState.Genuine (P : Pipeline α β ε σ) : WorkerState α β ε → Prop
  | .working item => P.script.Pushes item
  | .pushing result => P.Makes result
  | .checking | .popping | .recording _ | .closingIn | .closingOut | .exited => True

def MainState.drains : MainState β ε → Bool
  | .popping | .handling _ | .draining => true
  | _ => false

variable {P : Pipeline α β ε σ} {s t : State P}

structure Genuine (s : State P) : Prop where
  source : ∀ item, s.source.Pushes item → P.script.Pushes item
  input : ∀ item ∈ s.input.items, P.script.Pushes item
  workers : ∀ i, (s.workers i).Genuine P
  made : ∀ result ∈ s.made, P.Makes result
  order : s.delivered.map P.index = List.range s.delivered.length
  next : s.main.drains = true → s.delivered.length = s.next

theorem init_genuine (P : Pipeline α β ε σ) (start : σ) : Genuine (init P start) where
  source _ := id
  input _ member := absurd member List.not_mem_nil
  workers _ := trivial
  made _ member := absurd member List.not_mem_nil
  order := rfl
  next _ := rfl

theorem sourceStep_genuine (genuine : Genuine s) (taken : sourceStep s = some t) : Genuine t := by
  have pushes := genuine.source
  unfold sourceStep at taken
  split at taken
  case h_3 running =>
    rw [running] at pushes
    cases taken
    refine ⟨fun item pushed => ?_, genuine.input, genuine.workers, genuine.made, genuine.order,
      genuine.next⟩
    by_cases failed : s.failed = true
    · rw [if_pos failed] at pushed
      exact pushes item (.inr pushed)
    · rw [if_neg failed] at pushed
      exact pushes item (.inl pushed)
  case h_4 item accepted refused running =>
    rw [running] at pushes
    split at taken
    · cases taken
      exact ⟨fun item pushed => pushes item (.inr (.inr pushed)), genuine.input, genuine.workers,
        genuine.made, genuine.order, genuine.next⟩
    · split at taken <;> cases taken
      refine ⟨fun item pushed => pushes item (.inr (.inl pushed)), fun item member => ?_,
        genuine.workers, genuine.made, genuine.order, genuine.next⟩
      rcases List.mem_append.mp member with old | new
      · exact genuine.input item old
      · exact pushes item (.inl (List.mem_singleton.mp new))
  case h_7 => cases taken
  all_goals
    cases taken
    exact ⟨fun _ => False.elim, genuine.input, genuine.workers, genuine.made, genuine.order,
      genuine.next⟩

theorem Genuine.of_worker {i : Fin P.workers} {w : WorkerState α β ε} {input : Queue α}
    {output : Queue β} {failure : Option ε} (genuine : Genuine s)
    (inputs : ∀ item ∈ input.items, P.script.Pushes item)
    (outputs : ∀ result ∈ output.items, P.Makes result) (worker : w.Genuine P) :
    Genuine ({ s with input := input, output := output, failure := failure }.setWorker i w) where
  source := genuine.source
  input := inputs
  workers j := by
    rw [State.setWorker_workers]
    by_cases same : j = i
    · rw [same, Function.update_self]
      exact worker
    · rw [Function.update_of_ne same]
      exact genuine.workers j
  made result member := by
    have rest := genuine.made result
    simp only [State.made, List.mem_append] at member rest
    rcases member with ((out | held) | pending) | delivered
    · exact outputs result out
    · exact rest (.inl (.inl (.inr held)))
    · exact rest (.inl (.inr pending))
    · exact rest (.inr delivered)
  order := genuine.order
  next := genuine.next

theorem Genuine.output (genuine : Genuine s) : ∀ result ∈ s.output.items, P.Makes result :=
  fun result member => genuine.made result
    (by simp only [State.made, List.mem_append]; simp [member])

theorem workerStep_genuine {i : Fin P.workers} (genuine : Genuine s)
    (taken : workerStep s i = some t) : Genuine t := by
  have own := genuine.workers i
  unfold workerStep at taken
  split at taken
  case h_1 =>
    cases taken
    exact genuine.of_worker genuine.input genuine.output (by split <;> trivial)
  case h_2 =>
    split at taken
    case h_1 item rest front =>
      cases taken
      have inputs := genuine.input
      rw [front] at inputs
      exact genuine.of_worker (fun x member => inputs x (List.mem_cons_of_mem _ member))
        genuine.output (inputs item List.mem_cons_self)
    case h_2 =>
      split at taken <;> cases taken
      exact genuine.of_worker genuine.input genuine.output trivial
  case h_3 item working =>
    rw [working] at own
    split at taken
    case h_1 result worked =>
      cases taken
      exact genuine.of_worker genuine.input genuine.output ⟨item, own, worked⟩
    case h_2 =>
      cases taken
      exact genuine.of_worker genuine.input genuine.output trivial
  case h_4 result pushing =>
    rw [pushing] at own
    split at taken
    · cases taken
      exact genuine.of_worker genuine.input genuine.output trivial
    · split at taken <;> cases taken
      refine genuine.of_worker genuine.input (fun x member => ?_) trivial
      rcases List.mem_append.mp member with old | new
      · exact genuine.output x old
      · rw [List.mem_singleton.mp new]
        exact own
  case h_8 => cases taken
  all_goals
    cases taken
    exact genuine.of_worker genuine.input genuine.output trivial

theorem Genuine.of_main {failure : Option ε} {output : Queue β} {main : MainState β ε}
    {pending : List β} (genuine : Genuine s) (drains : main.drains = true → s.main.drains = true)
    (fewer : ∀ result, result ∈ output.items ++ main.held ++ pending →
      result ∈ s.output.items ++ s.main.held ++ s.pending) :
    Genuine { s with output := output, failure := failure, pending := pending, main := main } where
  source := genuine.source
  input := genuine.input
  workers := genuine.workers
  made result member :=
    genuine.made result (List.mem_append.mpr ((List.mem_append.mp member).imp_left (fewer result)))
  order := genuine.order
  next still := genuine.next (drains still)

theorem Genuine.of_left {failure : Option ε} {output : Queue β} {main : MainState β ε}
    (genuine : Genuine s) (left : main.drains = false) (held : main.held = [])
    (items : output.items = s.output.items) :
    Genuine { s with output := output, failure := failure, main := main } := by
  refine genuine.of_main (fun drains => ?_) fun result member => ?_
  · rw [left] at drains
    cases drains
  · rw [items, held, List.append_nil] at member
    rw [List.mem_append, List.mem_append]
    exact (List.mem_append.mp member).imp_left .inl

theorem Genuine.of_given {result : β} {sink : σ} {pending : List β} {next : Nat}
    {main : MainState β ε} (genuine : Genuine s) (waits : result ∈ s.pending)
    (index : P.index result = s.delivered.length) (fewer : ∀ x ∈ pending, x ∈ s.pending)
    (held : main.held = []) (counted : main.drains = true → s.delivered.length + 1 = next) :
    Genuine { s with
      sink := sink
      calls := s.calls ++ [.consume result]
      pending := pending
      next := next
      main := main } where
  source := genuine.source
  input := genuine.input
  workers := genuine.workers
  made x member := by
    have before := genuine.made x
    simp only [State.made, held, State.delivered, delivered_concat, List.mem_append,
      List.mem_singleton, List.not_mem_nil, or_false] at member before
    rcases member with (out | later) | old | rfl
    · exact before (.inl (.inl (.inl out)))
    · exact before (.inl (.inr (fewer x later)))
    · exact before (.inr old)
    · exact before (.inl (.inr waits))
  order := by
    rw [State.delivered, delivered_concat, List.map_append, genuine.order, List.length_append,
      List.length_singleton, List.range_succ, List.map_singleton, index]
  next drains := by
    rw [State.delivered, delivered_concat, List.length_append, List.length_singleton]
    exact counted drains

theorem drainStep_genuine (genuine : Genuine s) (draining : s.main = .draining) :
    Genuine (drainStep s) := by
  have next : s.delivered.length = s.next := genuine.next (by rw [draining]; rfl)
  unfold drainStep
  split
  · exact genuine.of_main (fun _ => by rw [draining]; rfl) fun result member => by
      rw [draining]
      exact member
  · next result found =>
    have waits := List.mem_of_find?_eq_some found
    have index : P.index result = s.next := by
      have holds := List.find?_some found
      exact of_decide_eq_true holds
    rw [← next] at index
    split
    · refine genuine.of_given waits index (fun x member => List.mem_of_mem_filter member) ?_
        fun _ => by rw [next]
      rw [draining]
      rfl
    · exact genuine.of_given waits index (fun _ => id) rfl fun drains => by cases drains

theorem finishStep_genuine (genuine : Genuine s) : Genuine (finishStep s) := by
  have given : (s.calls ++ [Call.finish]).filterMap Call.result = s.delivered := by
    rw [List.filterMap_append]
    exact List.append_nil _
  have made : ∀ result ∈ s.output.items ++ [] ++ s.pending ++ s.delivered, P.Makes result := by
    intro result member
    refine genuine.made result ?_
    rw [List.append_nil] at member
    simp only [State.made, List.mem_append] at member ⊢
    exact member.imp_left (Or.imp_left .inl)
  unfold finishStep
  split
  all_goals
    refine ⟨genuine.source, genuine.input, genuine.workers, ?_, ?_, fun drains => by cases drains⟩
    · rw [State.made, State.delivered, given]
      exact made
    · rw [State.delivered, given]
      exact genuine.order

theorem mainStep_genuine (genuine : Genuine s) (taken : mainStep s = some t) : Genuine t := by
  unfold mainStep at taken
  split at taken
  case h_1 popping =>
    split at taken
    case h_1 result rest front =>
      cases taken
      refine genuine.of_main (fun _ => by rw [popping]; rfl) fun x member => ?_
      rw [front, popping]
      simpa [MainState.held, or_left_comm] using member
    case h_2 =>
      split at taken <;> cases taken
      exact genuine.of_left rfl rfl rfl
  case h_2 result handling =>
    split at taken
    · cases taken
      exact genuine.of_left rfl rfl rfl
    · split at taken <;> cases taken
      · exact genuine.of_left rfl rfl rfl
      · refine genuine.of_main (fun _ => by rw [handling]; rfl) fun x member => ?_
        rw [handling]
        simpa [MainState.held] using member
  case h_3 draining =>
    cases taken
    exact drainStep_genuine genuine draining
  case h_4 =>
    split at taken <;> cases taken <;> exact genuine.of_left rfl rfl rfl
  case h_5 =>
    split at taken
    · cases taken
      exact genuine.of_left rfl rfl rfl
    · split at taken <;> cases taken <;> exact genuine.of_left rfl rfl rfl
  case h_6 =>
    cases taken
    exact genuine.of_left (by split <;> rfl) (by split <;> rfl) rfl
  case h_7 =>
    cases taken
    exact finishStep_genuine genuine
  case h_8 | h_9 =>
    cases taken
    exact genuine.of_left rfl rfl rfl
  case h_10 | h_11 =>
    split at taken <;> cases taken
    exact genuine.of_left rfl rfl rfl
  case h_12 => cases taken

theorem step_genuine {a : Action P.workers ε} (genuine : Genuine s) (taken : step s a = some t) :
    Genuine t := by
  cases a with
  | source => exact sourceStep_genuine genuine taken
  | sourceFails e =>
    rw [sourceFails_frame taken]
    exact { genuine with source := fun _ => False.elim }
  | worker i => exact workerStep_genuine genuine taken
  | workerFails i e =>
    rw [workerFails_frame taken]
    exact genuine.of_worker genuine.input genuine.output trivial
  | joiner =>
    simp only [step, joinerStep] at taken
    split at taken <;> cases taken
    exact { genuine with }
  | main => exact mainStep_genuine genuine taken
  | mainFails e =>
    rw [mainFails_frame taken]
    exact genuine.of_left rfl rfl rfl

theorem Run.genuine {allowed : State P → Action P.workers ε → Prop} {start : σ}
    (run : Run allowed (init P start) s) : Genuine s := by
  induction run with
  | refl => exact init_genuine P start
  | next run meets taken ih => exact step_genuine ih taken

theorem Genuine.delivered_mem (genuine : Genuine s) {result : β} (given : result ∈ s.delivered) :
    P.Makes result := genuine.made result (List.mem_append_right _ given)

theorem Completed.delivered {start : σ} {out : List β} {mid : σ}
    (done : Completed start s out mid) : s.delivered = out := by
  rw [State.delivered, done.calls, List.filterMap_append, List.filterMap_map]
  simp [Function.comp_def, Call.result]

section Sink
variable {inv : σ → Prop}

theorem mainStep_sink
    (consumes : ∀ result sink, inv sink → inv (Effect.exec (P.consume result) sink).2)
    (kept : Call.finish ∈ s.calls ∨ inv s.sink) (taken : mainStep s = some t) :
    Call.finish ∈ t.calls ∨ inv t.sink := by
  unfold mainStep at taken
  split at taken
  case h_3 =>
    cases taken
    unfold drainStep
    split
    · exact kept
    · next result _ =>
      have after := consumes result s.sink
      split
      all_goals
        next consumed =>
        rw [consumed] at after
        exact kept.imp (List.mem_append_left _) after
  case h_7 =>
    cases taken
    unfold finishStep
    split <;> exact .inl (by simp)
  case h_12 => cases taken
  all_goals
    (try split at taken) <;> (try split at taken) <;> cases taken <;> exact kept

/-- What consuming keeps holds of the sink until it is asked to finish. -/
theorem Run.sink_kept {allowed : State P → Action P.workers ε → Prop} {start : σ}
    (consumes : ∀ result sink, inv sink → inv (Effect.exec (P.consume result) sink).2)
    (begins : inv start) (run : Run allowed (init P start) s) (unfinished : Call.finish ∉ s.calls) :
    inv s.sink := by
  refine Or.resolve_left ?_ unfinished
  clear unfinished
  induction run with
  | refl => exact .inr begins
  | @next u v a run meets taken kept =>
    cases a with
    | source =>
      obtain ⟨_, _, _, rfl⟩ := sourceStep_frame taken
      exact kept
    | sourceFails e =>
      rw [sourceFails_frame taken]
      exact kept
    | worker i =>
      obtain ⟨_, _, _, _, rfl⟩ := workerStep_frame taken
      exact kept
    | workerFails i e =>
      rw [workerFails_frame taken]
      exact kept
    | joiner =>
      simp only [step, joinerStep] at taken
      split at taken <;> cases taken
      exact kept
    | main => exact mainStep_sink consumes kept taken
    | mainFails e =>
      rw [mainFails_frame taken]
      exact kept

end Sink

end OrderedPipeline
