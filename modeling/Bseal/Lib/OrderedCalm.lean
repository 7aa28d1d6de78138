import Bseal.Lib.OrderedDelivery
import Bseal.Lib.OrderedDrain

/-! Runs without exceptions from outside. When the script ends well, every item is worked on and
the sink takes the results in index order, no thread ever fails, and what returns has finished. -/
namespace OrderedPipeline
variable {α β ε σ : Type} {P : Pipeline α β ε σ}

def OwnSteps (_ : State P) (a : Action P.workers ε) : Prop := a.Proper

/-- What the parts of a pipeline do when nothing goes wrong. -/
structure Sound (P : Pipeline α β ε σ) (start : σ) (out : List β) (mid stop : σ) : Prop where
  ending : P.script.ending = none
  results : Multiset.map P.work P.script.items = Multiset.map Except.ok out
  order : out.map P.index = List.range out.length
  consumed : Effect.exec (P.consumeAll out) start = (.ok (), mid)
  checked : P.sinkCheck mid = none
  finished : Effect.exec P.finish mid = (.ok (), stop)

theorem eq_take_of_indices {index : β → Nat} {out front : List β}
    (order : out.map index = List.range out.length) (among : ∀ b ∈ front, b ∈ out)
    (indices : front.map index = List.range front.length) : front = out.take front.length := by
  have place : ∀ b ∈ out, ∃ inside : index b < out.length, out[index b] = b := by
    intro b member
    obtain ⟨i, bound, rfl⟩ := List.getElem_of_mem member
    have same : index out[i] = i := by
      have here := List.getElem_of_eq order (by rw [List.length_map]; exact bound)
      rwa [List.getElem_map, List.getElem_range] at here
    exact ⟨by rw [same]; exact bound, by simp only [same]⟩
  have short : front.length ≤ out.length := by
    by_contra long
    have bound : out.length < front.length := by omega
    have here := List.getElem_of_eq indices (i := out.length) (by rw [List.length_map]; exact bound)
    rw [List.getElem_map, List.getElem_range] at here
    obtain ⟨inside, -⟩ := place _ (among _ (List.getElem_mem bound))
    omega
  refine List.ext_getElem (by rw [List.length_take]; omega) fun i left right => ?_
  have here := List.getElem_of_eq indices (i := i) (by rw [List.length_map]; exact left)
  rw [List.getElem_map, List.getElem_range] at here
  obtain ⟨inside, same⟩ := place _ (among _ (List.getElem_mem left))
  rw [List.getElem_take]
  simp only [here] at same
  exact same.symm

section Flow
variable {s t : State P} {start mid stop : σ} {out : List β}

theorem flow_parts (sound : Sound P start out mid stop) (kept : Conserved start s) :
    Multiset.map P.work s.toWork + ∑ i, (s.workers i).held P.work + Multiset.map .ok s.made =
      Multiset.map Except.ok out := by
  rw [← sound.results, ← kept.flow]
  rfl

theorem made_le (sound : Sound P start out mid stop) (kept : Conserved start s) :
    (s.made : Multiset β) ≤ out := by
  have injective : Function.Injective (Except.ok : β → Except ε β) := fun _ _ => Except.ok.inj
  rw [← Multiset.map_le_map_iff injective, ← flow_parts sound kept]
  exact Multiset.le_add_left _ _

theorem made_nodup (sound : Sound P start out mid stop) (kept : Conserved start s) :
    (s.made.map P.index).Nodup := by
  have le := Multiset.map_le_map (f := P.index) (made_le sound kept)
  have nodup : (Multiset.map P.index (out : Multiset β)).Nodup := by
    rw [Multiset.map_coe, sound.order]
    exact List.nodup_range
  exact Multiset.nodup_of_le le nodup

theorem mem_out_of_made (sound : Sound P start out mid stop) (kept : Conserved start s) {b : β}
    (member : b ∈ s.made) : b ∈ out :=
  Multiset.mem_coe.mp (Multiset.mem_of_le (made_le sound kept) (Multiset.mem_coe.mpr member))

theorem delivered_mem (sound : Sound P start out mid stop) (kept : Conserved start s) {b : β}
    (member : b ∈ s.delivered) : b ∈ out :=
  mem_out_of_made sound kept (List.mem_append_right _ member)

theorem pending_mem (sound : Sound P start out mid stop) (kept : Conserved start s) {b : β}
    (member : b ∈ s.pending) : b ∈ out :=
  mem_out_of_made sound kept (List.mem_append_left _ (List.mem_append_right _ member))

theorem next_eq (kept : Conserved start s) : s.delivered.length = s.next := by
  have mapped := congrArg List.length kept.order
  rwa [List.length_map, List.length_range] at mapped

theorem work_of_working (sound : Sound P start out mid stop) (kept : Conserved start s)
    {i : Fin P.workers} {item : α} (working : s.workers i = .working item) :
    ∃ b, P.work item = .ok b := by
  have held : P.work item ∈ ∑ j, (s.workers j).held P.work := by
    refine Multiset.mem_sum.mpr ⟨i, Finset.mem_univ i, ?_⟩
    rw [working]
    exact Multiset.mem_singleton_self _
  have member : P.work item ∈ Multiset.map Except.ok (out : Multiset β) := by
    rw [← flow_parts sound kept]
    exact Multiset.mem_add.mpr (.inl (Multiset.mem_add.mpr (.inr held)))
  obtain ⟨b, -, same⟩ := Multiset.mem_map.mp member
  exact ⟨b, same.symm⟩

theorem consumes_next (sound : Sound P start out mid stop) (kept : Conserved start s) {b : β}
    (waits : b ∈ s.pending) (here : P.index b = s.next) :
    ∃ sink, Effect.exec (P.consume b) s.sink = (.ok (), sink) := by
  have front : s.delivered ++ [b] = out.take (s.delivered ++ [b]).length := by
    refine eq_take_of_indices sound.order (fun c member => ?_) ?_
    · rcases List.mem_append.mp member with member | member
      · exact delivered_mem sound kept member
      · rw [List.mem_singleton.mp member]
        exact pending_mem sound kept waits
    · rw [List.map_append, kept.order, List.length_append, next_eq kept, List.length_singleton,
        List.range_succ, ← here]
      rfl
  have whole := sound.consumed
  rw [← List.take_append_drop (s.delivered ++ [b]).length out, ← front] at whole
  have split : ∀ (bs cs : List β) (x : σ) (y : σ),
      Effect.exec (P.consumeAll (bs ++ cs)) x = (.ok (), y) →
      ∃ z, Effect.exec (P.consumeAll bs) x = (.ok (), z) ∧
        Effect.exec (P.consumeAll cs) z = (.ok (), y) := by
    intro bs
    induction bs with
    | nil => exact fun cs x y all => ⟨x, Effect.exec_pure _ _, all⟩
    | cons c bs ih =>
      intro cs x y all
      obtain ⟨_, w, first, more⟩ := (Effect.exec_bind_ok _ _ _ _ _).mp all
      obtain ⟨z, left, right⟩ := ih cs w y more
      exact ⟨z, (Effect.exec_bind_of_ok first).trans left, right⟩
  obtain ⟨z, left, -⟩ := split _ _ _ _ whole
  obtain ⟨w, earlier, last⟩ := split _ _ _ _ left
  rw [kept.sink] at earlier
  cases earlier
  obtain ⟨_, v, asked, -⟩ := (Effect.exec_bind_ok _ _ _ _ _).mp last
  exact ⟨v, asked⟩

theorem delivered_all (sound : Sound P start out mid stop) (inv : Shutdown s)
    (kept : Conserved start s) (fine : s.failed = false)
    (output : s.output.closed = true ∧ s.output.items = []) (held : s.main.held = [])
    (waiting : ∀ b ∈ s.pending, P.index b ≠ s.next) : s.pending = [] ∧ s.delivered = out := by
  obtain ⟨finished, empty, exited⟩ := inv.settled fine output.1
  have injective : Function.Injective (Except.ok : β → Except ε β) := fun _ _ => Except.ok.inj
  have none : ∑ i, (s.workers i).held P.work = 0 :=
    Finset.sum_eq_zero fun i _ => by rw [exited i]; rfl
  have made : s.made = s.pending ++ s.delivered := by
    rw [State.made, output.2, held]
    rfl
  have same : (s.made : Multiset β) = out := by
    have parts := flow_parts sound kept
    rw [State.toWork, empty, finished, none] at parts
    refine Multiset.map_injective injective ?_
    rw [← parts]
    exact (zero_add _).symm
  have perm : (s.pending ++ s.delivered).Perm out := made ▸ Multiset.coe_eq_coe.mp same
  have indices : (s.pending.map P.index ++ List.range s.next).Perm (List.range out.length) := by
    have mapped := perm.map P.index
    rwa [List.map_append, kept.order, sound.order] at mapped
  have nothing : s.pending = [] := by
    by_contra some
    have long := perm.length_eq
    rw [List.length_append, next_eq kept] at long
    have pos := List.length_pos_iff.mpr some
    have due : s.next ∈ s.pending.map P.index ++ List.range s.next :=
      indices.mem_iff.mpr (List.mem_range.mpr (by omega))
    rcases List.mem_append.mp due with due | due
    · obtain ⟨b, member, here⟩ := List.mem_map.mp due
      exact waiting b member here
    · exact absurd (List.mem_range.mp due) (Nat.lt_irrefl _)
  refine ⟨nothing, ?_⟩
  rw [nothing, List.nil_append] at perm
  have front : s.delivered = out.take s.delivered.length :=
    eq_take_of_indices sound.order (fun b member => perm.mem_iff.mp member)
      (by rw [kept.order, next_eq kept])
  rwa [perm.length_eq, List.take_length] at front

theorem sink_of_delivered (sound : Sound P start out mid stop) (kept : Conserved start s)
    (all : s.delivered = out) : s.sink = mid := by
  have consumed := kept.sink
  rw [all, sound.consumed] at consumed
  exact (Prod.mk.inj consumed).2.symm

end Flow

/-- Nothing has failed, and the main thread goes back to the queue only when the result that is
due is not there. -/
structure Calm (s : State P) : Prop where
  quiet : s.Quiet
  waiting : s.main = .popping ∨ s.main = .checkingPending → ∀ b ∈ s.pending, P.index b ≠ s.next

section Step
variable {s t : State P} {start mid stop : σ} {out : List β}

theorem Calm.of_frame (calm : Calm s) (quiet : t.Quiet) (main : t.main = s.main)
    (pending : t.pending = s.pending) (next : t.next = s.next) : Calm t :=
  ⟨quiet, by rw [main, pending, next]; exact calm.waiting⟩

theorem sourceStep_calm (sound : Sound P start out mid stop) (inv : Shutdown s)
    (kept : Conserved start s) (calm : Calm s) (taken : sourceStep s = some t) : Calm t := by
  obtain ⟨failed, source, workers, main⟩ := calm.quiet
  have known := inv.source
  have ending := kept.ending.trans sound.ending
  have quiet : ∀ (source' : SourceState α ε) (input : Queue α), (∀ e, source' ≠ .recording e) →
      Calm { s with source := source', input := input } := fun _ _ fine =>
    calm.of_frame ⟨failed, fine, workers, main⟩ rfl rfl rfl
  unfold sourceStep at taken
  split at taken
  case h_1 =>
    cases taken
    exact quiet _ _ (by simp)
  case h_2 e throws =>
    rw [throws] at ending
    cases ending
  case h_3 =>
    cases taken
    exact quiet _ _ (by simp)
  case h_4 =>
    split at taken
    · cases taken
      exact quiet _ _ (by simp)
    · split at taken
      · cases taken
        exact quiet _ _ (by simp)
      · cases taken
  case h_5 e recording => exact absurd recording (source e)
  case h_6 closing =>
    rw [closing] at known
    rw [show s.failed = true from known] at failed
    cases failed
  case h_7 => cases taken

theorem workerStep_calm {i : Fin P.workers} (sound : Sound P start out mid stop)
    (inv : Shutdown s) (kept : Conserved start s) (calm : Calm s)
    (taken : workerStep s i = some t) : Calm t := by
  obtain ⟨failed, source, workers, main⟩ := calm.quiet
  have known := inv.workers i
  have quiet : ∀ (input : Queue α) (output : Queue β) (w : WorkerState α β ε),
      (∀ e, w ≠ .recording e) →
      Calm ({ s with input := input, output := output }.setWorker i w) := by
    intro input output w fine
    refine calm.of_frame ⟨failed, source, fun j e => ?_, main⟩ rfl rfl rfl
    rw [State.setWorker_workers]
    by_cases same : j = i
    · subst same
      rw [Function.update_self]
      exact fine e
    · rw [Function.update_of_ne same]
      exact workers j e
  have closing : s.failed ≠ true := by
    rw [failed]
    exact Bool.noConfusion
  unfold workerStep at taken
  split at taken
  case h_1 =>
    cases taken
    rw [failed]
    exact quiet s.input s.output _ (by simp)
  case h_2 =>
    split at taken
    · cases taken
      exact quiet _ s.output _ (by simp)
    · split at taken
      · cases taken
        exact quiet s.input s.output _ (by simp)
      · cases taken
  case h_3 item working =>
    obtain ⟨b, worked⟩ := work_of_working sound kept working
    rw [worked] at taken
    cases taken
    exact quiet s.input s.output _ (by simp)
  case h_4 =>
    split at taken
    · cases taken
      exact quiet s.input s.output _ (by simp)
    · split at taken
      · cases taken
        exact quiet s.input _ _ (by simp)
      · cases taken
  case h_5 e recording => exact absurd recording (workers i e)
  case h_6 state | h_7 state =>
    rw [state] at known
    exact absurd known closing
  case h_8 => cases taken

theorem drainStep_calm (sound : Sound P start out mid stop) (kept : Conserved start s)
    (calm : Calm s) (draining : s.main = .draining) : Calm (drainStep s) := by
  obtain ⟨failed, source, workers, main⟩ := calm.quiet
  unfold drainStep
  split
  case h_1 missing =>
    refine ⟨⟨failed, source, workers, by simp⟩, fun _ b member here => ?_⟩
    exact List.find?_eq_none.mp missing b member (decide_eq_true here)
  case h_2 result found =>
    obtain ⟨sink, asked⟩ := consumes_next sound kept (List.mem_of_find?_eq_some found)
      (by simpa using List.find?_some found)
    rw [asked]
    exact ⟨⟨failed, source, workers, main⟩, by rw [draining]; simp⟩

theorem mainStep_calm (sound : Sound P start out mid stop) (inv : Shutdown s)
    (kept : Conserved start s) (calm : Calm s) (early : s.main ≠ .finishing)
    (taken : mainStep s = some t) : Calm t := by
  obtain ⟨failed, source, workers, main⟩ := calm.quiet
  have quiet : ∀ (output : Queue β) (main' : MainState β ε) (pending : List β),
      (∀ e, main' ≠ .recording e) → main' ≠ .popping → main' ≠ .checkingPending →
      Calm { s with output := output, main := main', pending := pending } :=
    fun _ _ _ fine notPopping notChecking => ⟨⟨failed, source, workers, fine⟩,
      fun here => (here.elim notPopping notChecking).elim⟩
  have known := inv.main
  unfold mainStep at taken
  split at taken
  case h_1 popping =>
    split at taken
    · cases taken
      exact quiet _ _ s.pending (by simp) (by simp) (by simp)
    · split at taken
      · cases taken
        exact ⟨⟨failed, source, workers, by simp⟩, fun _ => calm.waiting (.inl popping)⟩
      · cases taken
  case h_2 result handling =>
    have distinct := made_nodup sound kept
    have made : s.made = s.output.items ++ ([result] ++ (s.pending ++ s.delivered)) := by
      rw [State.made, handling]
      simp only [MainState.held, List.append_assoc]
    rw [made, List.map_append, List.map_append, List.map_append, kept.order] at distinct
    have fresh := (List.nodup_append.mp (List.nodup_append.mp distinct).2.1).2.2
    split at taken
    case isTrue stale =>
      exact absurd rfl (fresh _ (List.mem_singleton_self _) _
        (List.mem_append_right _ (List.mem_range.mpr stale)))
    · split at taken
      case isTrue duplicate =>
        obtain ⟨b, member, same⟩ := List.any_eq_true.mp duplicate
        exact absurd (of_decide_eq_true same).symm (fresh _ (List.mem_singleton_self _) _
          (List.mem_append_left _ (List.mem_map_of_mem member)))
      · cases taken
        exact quiet s.output _ _ (by simp) (by simp) (by simp)
  case h_3 draining =>
    cases taken
    exact drainStep_calm sound kept calm draining
  case h_4 checking =>
    rw [checking] at known
    obtain ⟨nothing, -⟩ := delivered_all sound inv kept failed known (by rw [checking]; rfl)
      (calm.waiting (.inr checking))
    rw [nothing] at taken
    cases taken
    exact quiet s.output _ _ (by simp) (by simp) (by simp)
  case h_5 checking =>
    rw [checking] at known
    have pending := kept.complete (by rw [checking]; rfl)
    obtain ⟨-, all⟩ := delivered_all sound inv kept failed known (by rw [checking]; rfl)
      (by rw [pending]; simp)
    have fine : P.sinkCheck s.sink = none := by
      rw [sink_of_delivered sound kept all]
      exact sound.checked
    rw [failed, fine] at taken
    cases taken
    exact quiet s.output .checkingFailed s.pending (by simp) (by simp) (by simp)
  case h_6 =>
    cases taken
    rw [failed]
    exact quiet s.output .finishing s.pending (by simp) (by simp) (by simp)
  case h_7 finishing => exact absurd finishing early
  case h_8 e recording => exact absurd recording (main e)
  case h_9 closing =>
    rw [closing] at known
    rw [show s.failed = true from known] at failed
    cases failed
  case h_10 | h_11 =>
    split at taken <;> cases taken
    exact quiet s.output _ s.pending (by simp) (by simp) (by simp)
  case h_12 => cases taken

theorem joinerStep_calm (calm : Calm s) (taken : joinerStep s = some t) : Calm t := by
  obtain ⟨failed, source, workers, main⟩ := calm.quiet
  unfold joinerStep at taken
  split at taken <;> cases taken
  exact calm.of_frame ⟨failed, source, workers, main⟩ rfl rfl rfl

theorem step_calm {a : Action P.workers ε} (sound : Sound P start out mid stop)
    (inv : Shutdown s) (kept : Conserved start s) (calm : Calm s) (own : a.Proper)
    (early : a = .main → s.main ≠ .finishing) (taken : step s a = some t) : Calm t := by
  cases a with
  | source => exact sourceStep_calm sound inv kept calm taken
  | worker i => exact workerStep_calm sound inv kept calm taken
  | joiner => exact joinerStep_calm calm taken
  | main => exact mainStep_calm sound inv kept calm (early rfl) taken
  | sourceFails e | workerFails i e | mainFails e => exact own.elim

end Step

section Run
variable {s t : State P} {start mid stop : σ} {out : List β}

theorem Delivering.all (sound : Sound P start out mid stop) (inv : Shutdown s)
    (delivering : Delivering start s) (finishing : s.main = .finishing) :
    s.delivered = out ∧ s.sink = mid := by
  have quiet := delivering.finishing finishing
  have kept := delivering.kept quiet
  have known := inv.main
  rw [finishing] at known
  have pending := kept.complete (by rw [finishing]; rfl)
  obtain ⟨-, all⟩ := delivered_all sound inv kept quiet.failed known (by rw [finishing]; rfl)
    (by rw [pending]; simp)
  exact ⟨all, sink_of_delivered sound kept all⟩

theorem init_calm (P : Pipeline α β ε σ) (start : σ) : Calm (init P start) := by
  refine ⟨⟨rfl, fun _ same => ?_, fun _ _ same => ?_, fun _ same => ?_⟩, fun _ _ member => ?_⟩
  · cases same
  · cases same
  · cases same
  · exact absurd member List.not_mem_nil

theorem Run.calm_or_completed (sound : Sound P start out mid stop)
    (run : Run OwnSteps (init P start) s) :
    (Delivering start s ∧ Calm s) ∨ Completed start s out mid := by
  induction run with
  | refl =>
    exact .inl ⟨⟨by simp [init], fun _ => init_conserved P start, by simp [init],
      by simp [init, MainState.joins]⟩, init_calm P start⟩
  | @next s t a run own taken ih =>
    rcases ih with ⟨delivering, calm⟩ | done
    · have inv := run.shutdown
      by_cases finishing : s.main = .finishing
      · obtain ⟨all, sink⟩ := delivering.all sound inv finishing
        by_cases asks : a = .main
        · subst asks
          rw [step, mainStep, finishing] at taken
          cases taken
          exact .inr (all ▸ sink ▸ finishStep_completed inv delivering finishing)
        · have after := step_calm sound inv (delivering.kept calm.quiet) calm own
            (fun same => absurd same asks) taken
          exact (step_delivering inv delivering taken).imp (fun later => ⟨later, after⟩)
            fun ends => all ▸ sink ▸ ends.2
      · have after := step_calm sound inv (delivering.kept calm.quiet) calm own
          (fun _ => finishing) taken
        exact .inl ⟨(step_delivering inv delivering taken).resolve_right
          fun ends => finishing ends.1, after⟩
    · exact .inr (step_completed done taken)

theorem Completed.quiet (sound : Sound P start out mid stop) (done : Completed start s out mid) :
    s.Quiet ∧ s.failure = none ∧ s.sink = stop := by
  have outcome := done.outcome
  rw [sound.finished] at outcome
  refine ⟨⟨by rw [State.failed, outcome.1]; rfl, fun e => ?_, fun i e => ?_, outcome.2⟩, outcome.1,
    by rw [done.sink, sound.finished]⟩
  · rw [done.source]
    exact fun same => by cases same
  · rw [done.workers i]
    exact fun same => by cases same

/-- A sound pipeline left to itself never fails and never gets stuck; once it has returned, the
sink has had all results in order and has finished. -/
theorem Run.sound (sound : Sound P start out mid stop) (run : Run OwnSteps (init P start) s) :
    s.Quiet ∧ ¬s.Stuck ∧ (s.main = .returned →
      s.failure = none ∧ s.calls = out.map .consume ++ [.finish] ∧ s.sink = stop) := by
  have quiet : ∀ {s : State P}, Run OwnSteps (init P start) s → s.Quiet := fun run =>
    (run.calm_or_completed sound).elim (fun calm => calm.2.quiet) fun done => (done.quiet sound).1
  have drained : ∀ {s : State P},
      Run OwnSteps (init P start) s → Run FailsDrained (init P start) s := by
    intro s run
    induction run with
    | refl => exact .refl
    | next run _ taken ih =>
      refine ih.next ?_ taken
      rintro - ⟨e, recording⟩
      exact absurd recording ((quiet run).main e)
  refine ⟨quiet run, (drained run).not_stuck, fun returned => ?_⟩
  rcases run.calm_or_completed sound with ⟨delivering, calm⟩ | done
  · exact absurd calm.quiet (delivering.joins (by rw [returned]; rfl))
  · obtain ⟨-, fine, sink⟩ := done.quiet sound
    exact ⟨fine, done.calls, sink⟩

end Run
end OrderedPipeline
