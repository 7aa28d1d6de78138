import Bseal.Lib.OrderedDelivery
import Mathlib.Data.Multiset.Bind

/-! What the workers of a pipeline work on. When the source numbers the items it pushes, along
every path it may take, no two of the work calls of a run are for the same number. -/
namespace OrderedPipeline
variable {α β ε σ : Type} {P : Pipeline α β ε σ}

/-- Along every path the pushed items are numbered `k`, `k + 1`, …, refused pushes included. -/
def Script.Numbered (key : α → Nat) : Nat → Script α ε → Prop
  | _, .done | _, .throw _ => True
  | k, .check go stopped => go.Numbered key k ∧ stopped.Numbered key k
  | k, .push item accepted refused =>
    key item = k ∧ accepted.Numbered key (k + 1) ∧ refused.Numbered key (k + 1)

theorem Script.Numbered.items {key : α → Nat} {k : Nat} {script : Script α ε}
    (numbered : script.Numbered key k) :
    script.items.map key = List.range' k script.items.length := by
  induction script generalizing k with
  | done | throw => rfl
  | check go stopped ihGo => exact ihGo numbered.1
  | push item accepted refused ihAccepted =>
    rw [Script.items, List.map_cons, numbered.1, ihAccepted numbered.2.1, List.length_cons,
      List.range'_succ]

def SourceState.Numbered (key : α → Nat) (k : Nat) : SourceState α ε → Prop
  | .running script => script.Numbered key k
  | .recording _ | .closing | .finished => True

def WorkerState.taken : WorkerState α β ε → Multiset α
  | .working item => {item}
  | .checking | .popping | .pushing _ | .recording _ | .closingIn | .closingOut | .exited => 0

def WorkerState.worked : WorkerState α β ε → List α
  | .working item => [item]
  | .checking | .popping | .pushing _ | .recording _ | .closingIn | .closingOut | .exited => []

def State.worked (s : State P) : Action P.workers ε → List α
  | .worker i => (s.workers i).worked
  | .source | .sourceFails _ | .workerFails _ _ | .joiner | .main | .mainFails _ => []

inductive Works (start : State P) : List α → State P → Prop
  | refl : Works start [] start
  | next {log : List α} {s t : State P} {a : Action P.workers ε} (run : Works start log s)
    (taken : step s a = some t) : Works start (log ++ s.worked a) t

/-- The items pushed so far that have not been dropped. -/
def pushed (log : List α) (s : State P) : Multiset α :=
  log + ∑ i, (s.workers i).taken + s.input.items

structure WorkedOnce (key : α → Nat) (k : Nat) (log : List α) (s : State P) : Prop where
  numbered : s.source.Numbered key k
  below : ∀ item ∈ pushed log s, key item < k
  distinct : (Multiset.map key (pushed log s)).Nodup

section Work
variable {s t : State P} {log log' : List α} {key : α → Nat} {k : Nat}

theorem WorkedOnce.of_le (once : WorkedOnce key k log s) (numbered : t.source.Numbered key k)
    (le : pushed log' t ≤ pushed log s) : WorkedOnce key k log' t where
  numbered := numbered
  below item mem := once.below item (Multiset.mem_of_le le mem)
  distinct := Multiset.nodup_of_le (Multiset.map_le_map le) once.distinct

theorem pushed_setWorker (log : List α) (u : State P) (i : Fin P.workers)
    (w : WorkerState α β ε) :
    pushed log (u.setWorker i w) + (u.workers i).taken = pushed log u + w.taken := by
  have sums := Threads.sum_update u.workers i w WorkerState.taken
  have split : pushed log (u.setWorker i w) =
      log + ∑ j, (Function.update u.workers i w j).taken + u.input.items := rfl
  rw [split, pushed, add_right_comm, add_assoc _ (∑ j, _) _, sums, ← add_assoc, add_right_comm]

theorem WorkedOnce.of_worker {i : Fin P.workers} {w : WorkerState α β ε} {u : State P}
    (once : WorkedOnce key k log s) (source : u.source = s.source)
    (workers : u.workers = s.workers) (items : u.input.items = s.input.items)
    (none : w.taken = 0) : WorkedOnce key k (log ++ (s.workers i).worked) (u.setWorker i w) := by
  refine once.of_le (by rw [State.setWorker_source, source]; exact once.numbered) ?_
  have moved := pushed_setWorker (log ++ (s.workers i).worked) u i w
  have same : pushed (log ++ (s.workers i).worked) u =
      pushed log s + ((s.workers i).worked : Multiset α) := by
    rw [pushed, pushed, workers, items, ← Multiset.coe_add]
    simp only [add_assoc, add_comm, add_left_comm]
  rw [same, none, add_zero, workers] at moved
  cases state : s.workers i with
  | working item =>
    rw [state] at moved
    exact (add_right_cancel moved).le
  | _ =>
    rw [state] at moved
    exact (Multiset.le_add_right _ _).trans (moved.le.trans (add_zero _).le)

theorem sourceStep_once (once : WorkedOnce key k log s) (taken : sourceStep s = some t) :
    ∃ k', WorkedOnce key k' log t := by
  have numbered := once.numbered
  unfold sourceStep at taken
  split at taken
  case h_3 running =>
    rw [running] at numbered
    cases taken
    refine ⟨k, once.of_le ?_ le_rfl⟩
    by_cases failed : s.failed = true
    · rw [if_pos failed]
      exact numbered.2
    · rw [if_neg failed]
      exact numbered.1
  case h_4 item accepted refused running =>
    rw [running] at numbered
    obtain ⟨here, accepted', refused'⟩ := numbered
    split at taken
    · cases taken
      exact ⟨k + 1, refused', fun x mem => (once.below x mem).trans (Nat.lt_succ_self k),
        once.distinct⟩
    · split at taken
      · cases taken
        have more : pushed log { s with
            input := s.input.put item, source := .running accepted } = item ::ₘ pushed log s := by
          rw [pushed, pushed, ← Multiset.add_cons]
          refine congrArg _ (Multiset.coe_eq_coe.mpr ?_)
          exact List.perm_append_singleton _ _
        refine ⟨k + 1, accepted', fun x mem => ?_, ?_⟩
        · rw [more, Multiset.mem_cons] at mem
          rcases mem with rfl | mem
          · rw [here]
            exact Nat.lt_succ_self k
          · exact (once.below x mem).trans (Nat.lt_succ_self k)
        · rw [more, Multiset.map_cons, Multiset.nodup_cons]
          refine ⟨fun again => ?_, once.distinct⟩
          obtain ⟨x, mem, same⟩ := Multiset.mem_map.mp again
          have below := once.below x mem
          rw [same, here] at below
          exact absurd below (lt_irrefl k)
      · cases taken
  case h_7 => cases taken
  all_goals
    cases taken
    exact ⟨k, once.of_le trivial le_rfl⟩

theorem workerStep_once {i : Fin P.workers} (once : WorkedOnce key k log s)
    (taken : workerStep s i = some t) :
    WorkedOnce key k (log ++ (s.workers i).worked) t := by
  have own : ∀ (u : State P) w, u.source = s.source → u.workers = s.workers →
      u.input.items = s.input.items → w.taken = 0 →
      WorkedOnce key k (log ++ (s.workers i).worked) (u.setWorker i w) :=
    fun u w source workers items none => once.of_worker source workers items none
  unfold workerStep at taken
  split at taken
  case h_1 =>
    cases taken
    exact own _ _ rfl rfl rfl (by split <;> rfl)
  case h_2 popping =>
    split at taken
    case h_1 item rest front =>
      cases taken
      rw [popping, WorkerState.worked, List.append_nil]
      refine once.of_le once.numbered ?_
      have whole : pushed log s = pushed log { s with input := { s.input with items := rest } } +
          {item} := by
        rw [pushed, pushed, front, ← Multiset.cons_coe, Multiset.add_cons,
          ← Multiset.singleton_add, add_comm]
      have moved := pushed_setWorker log { s with input := { s.input with items := rest } } i
        (.working item)
      rw [show ({ s with input := { s.input with items := rest } } : State P).workers i = .popping
        from popping] at moved
      exact ((add_zero _).symm.trans (moved.trans whole.symm)).le
    case h_2 =>
      split at taken <;> cases taken
      exact own _ _ rfl rfl rfl rfl
  case h_3 =>
    split at taken
    all_goals
      cases taken
      exact own _ _ rfl rfl rfl rfl
  case h_4 =>
    split at taken
    · cases taken
      exact own _ _ rfl rfl rfl rfl
    · split at taken <;> cases taken
      exact own _ _ rfl rfl rfl rfl
  case h_8 => cases taken
  all_goals
    cases taken
    exact own _ _ rfl rfl rfl rfl

theorem step_once {a : Action P.workers ε} (once : WorkedOnce key k log s)
    (taken : step s a = some t) : ∃ k', WorkedOnce key k' (log ++ s.worked a) t := by
  cases a with
  | source =>
    rw [State.worked, List.append_nil]
    exact sourceStep_once once taken
  | sourceFails e =>
    rw [State.worked, List.append_nil]
    simp only [step, sourceFails] at taken
    split at taken <;> cases taken
    exact ⟨k, once.of_le trivial le_rfl⟩
  | worker i => exact ⟨k, workerStep_once once taken⟩
  | workerFails i e =>
    rw [State.worked, List.append_nil]
    have dropped : t = s.setWorker i (.recording e) := by
      simp only [step, workerFails] at taken
      split at taken <;> cases taken <;> rfl
    have moved := pushed_setWorker log s i (.recording e)
    rw [← dropped] at moved
    refine ⟨k, once.of_le (by rw [dropped]; exact once.numbered) ?_⟩
    exact (Multiset.le_add_right _ _).trans (moved.le.trans (add_zero _).le)
  | joiner =>
    rw [State.worked, List.append_nil]
    simp only [step, joinerStep] at taken
    split at taken <;> cases taken
    exact ⟨k, once.of_le once.numbered le_rfl⟩
  | main =>
    rw [State.worked, List.append_nil]
    obtain ⟨source, input, workers⟩ := mainStep_frame taken
    refine ⟨k, once.of_le (by rw [source]; exact once.numbered) ?_⟩
    rw [pushed, pushed, workers, input]
  | mainFails e =>
    rw [State.worked, List.append_nil]
    simp only [step, mainFails] at taken
    split at taken <;> cases taken <;> exact ⟨k, once.of_le once.numbered le_rfl⟩

theorem Works.once {start : σ} (numbered : P.script.Numbered key k)
    (run : Works (init P start) log s) : ∃ k', WorkedOnce key k' log s := by
  induction run with
  | refl =>
    have none : pushed [] (init P start) = 0 := by
      have idle : ∑ i, ((init P start).workers i).taken = 0 := Finset.sum_eq_zero fun _ _ => rfl
      rw [pushed, idle]
      rfl
    exact ⟨k, numbered, by rw [none]; nofun, by rw [none]; exact Multiset.nodup_zero⟩
  | next run taken ih =>
    obtain ⟨_, once⟩ := ih
    exact step_once once taken

/-- No two work calls of a run are for the same number. -/
theorem Works.keys_nodup {start : σ} (numbered : P.script.Numbered key k)
    (run : Works (init P start) log s) : (log.map key).Nodup := by
  obtain ⟨_, once⟩ := run.once numbered
  have part : (log : Multiset α) ≤ pushed log s := by
    rw [pushed, add_assoc]
    exact Multiset.le_add_right _ _
  exact Multiset.coe_nodup.mp (Multiset.nodup_of_le (Multiset.map_le_map part) once.distinct)

def runLogged (log : List α) (s : State P) : List (Action P.workers ε) → Option (List α × State P)
  | [] => some (log, s)
  | a :: rest => (step s a).bind fun t => runLogged (log ++ s.worked a) t rest

theorem works_runLogged {start : State P} {actions : List (Action P.workers ε)}
    (run : Works start log s) (ran : runLogged log s actions = some (log', t)) :
    Works start log' t := by
  induction actions generalizing log s with
  | nil =>
    cases ran
    exact run
  | cons a rest ih =>
    obtain ⟨next, taken, more⟩ := Option.bind_eq_some_iff.mp ran
    exact ih (run.next taken) more

end Work

end OrderedPipeline
