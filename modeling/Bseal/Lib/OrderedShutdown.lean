import Bseal.Lib.OrderedPipeline

/-! How the threads of a pipeline stop each other. Each thread has an assertion about its own
control state, stable under every step of the others, and the assertions leave one way to
be stuck: the source waits on a full queue that nobody reads any more. -/
namespace OrderedPipeline
variable {α β ε σ : Type} {P : Pipeline α β ε σ}

structure Later (s t : State P) : Prop where
  failed : s.failed = true → t.failed = true
  input : s.input.closed = true → t.input.closed = true
  inputEmpty : s.input.closed = true → s.input.items = [] → t.input.items = []
  output : s.output.closed = true → t.output.closed = true
  outputEmpty : s.output.closed = true → s.output.items = [] → t.output.items = []
  source : s.source = .finished → t.source = .finished
  workers : ∀ i, s.workers i = .exited → t.workers i = .exited
  joined : s.joined = true → t.joined = true

theorem setWorker_exited (s : State P) (i j : Fin P.workers) (w : WorkerState α β ε)
    (busy : s.workers i ≠ .exited) (out : s.workers j = .exited) :
    (s.setWorker i w).workers j = .exited := by
  have other : j ≠ i := by
    rintro rfl
    exact busy out
  rw [State.setWorker_workers, Function.update_of_ne other, out]

theorem later_setWorker (s t : State P) (i : Fin P.workers) (w : WorkerState α β ε)
    (later : Later s t) (busy : s.workers i ≠ .exited) (same : t.workers = s.workers) :
    Later s (t.setWorker i w) where
  failed := later.failed
  input := later.input
  inputEmpty := later.inputEmpty
  output := later.output
  outputEmpty := later.outputEmpty
  source := later.source
  workers j out := setWorker_exited t i j w (by rwa [same]) (by rwa [same])
  joined := later.joined

theorem Later.refl (s : State P) : Later s s := by
  constructor <;> simp

theorem sourceStep_later {s t : State P} (taken : sourceStep s = some t) : Later s t := by
  unfold sourceStep at taken
  split at taken
  case h_4 =>
    split at taken
    · cases taken
      constructor <;> simp_all [State.failed]
    · split at taken
      · cases taken
        constructor <;> simp_all [State.failed, Queue.put]
      · cases taken
  all_goals
    cases taken
    try (constructor <;> simp_all [State.failed, State.record, Queue.close])

theorem workerStep_later {s t : State P} {i : Fin P.workers} (taken : workerStep s i = some t) :
    Later s t := by
  have busy : s.workers i ≠ .exited := by
    intro out
    simp [workerStep, out] at taken
  have frame : ∀ u w, Later s u → u.workers = s.workers → Later s (u.setWorker i w) :=
    fun u w later same => later_setWorker s u i w later busy same
  unfold workerStep at taken
  split at taken
  case h_2 =>
    split at taken
    · cases taken
      refine frame _ _ ?_ rfl
      constructor <;> simp_all [State.failed]
    · split at taken
      · cases taken
        exact frame s _ (.refl s) rfl
      · cases taken
  case h_3 =>
    split at taken
    all_goals
      cases taken
      exact frame s _ (.refl s) rfl
  case h_4 =>
    split at taken
    · cases taken
      exact frame s _ (.refl s) rfl
    · split at taken
      · cases taken
        refine frame _ _ ?_ rfl
        constructor <;> simp_all [State.failed, Queue.put]
      · cases taken
  case h_8 => cases taken
  all_goals
    cases taken
    refine frame _ _ ?_ rfl
    constructor <;> simp_all [State.failed, State.record, Queue.close]

theorem joinerStep_later {s t : State P} (taken : joinerStep s = some t) : Later s t := by
  unfold joinerStep at taken
  split at taken
  · cases taken
    constructor <;> simp_all [State.failed, Queue.close]
  · cases taken

structure SameThreads (s t : State P) : Prop where
  source : t.source = s.source
  input : t.input = s.input
  workers : t.workers = s.workers
  output : t.output = s.output
  failure : t.failure = s.failure
  joined : t.joined = s.joined

theorem SameThreads.failed {s t : State P} (same : SameThreads s t) : t.failed = s.failed := by
  rw [State.failed, State.failed, same.failure]

theorem SameThreads.later {s t : State P} (same : SameThreads s t) : Later s t where
  failed := by rw [same.failed]; exact id
  input := by rw [same.input]; exact id
  inputEmpty := by rw [same.input]; exact fun _ => id
  output := by rw [same.output]; exact id
  outputEmpty := by rw [same.output]; exact fun _ => id
  source := by rw [same.source]; exact id
  workers i := by rw [same.workers]; exact id
  joined := by rw [same.joined]; exact id

theorem drainStep_sameThreads (s : State P) : SameThreads s (drainStep s) := by
  unfold drainStep
  split
  · exact ⟨rfl, rfl, rfl, rfl, rfl, rfl⟩
  · split
    all_goals exact ⟨rfl, rfl, rfl, rfl, rfl, rfl⟩

theorem finishStep_sameThreads (s : State P) : SameThreads s (finishStep s) := by
  unfold finishStep
  split
  all_goals exact ⟨rfl, rfl, rfl, rfl, rfl, rfl⟩

theorem sameThreads_main (s : State P) (main : MainState β ε) (pending : List β) :
    SameThreads s { s with main := main, pending := pending } := ⟨rfl, rfl, rfl, rfl, rfl, rfl⟩

theorem mainStep_later {s t : State P} (taken : mainStep s = some t) : Later s t := by
  unfold mainStep at taken
  split at taken
  case h_1 =>
    split at taken
    · cases taken
      constructor <;> simp_all [State.failed]
    · split at taken
      · cases taken
        exact (sameThreads_main s _ _).later
      · cases taken
  case h_3 =>
    cases taken
    exact (drainStep_sameThreads s).later
  case h_7 =>
    cases taken
    exact (finishStep_sameThreads s).later
  case h_8 | h_9 =>
    cases taken
    constructor <;> simp_all [State.failed, State.record, Queue.close]
  case h_12 => cases taken
  all_goals
    (try split at taken) <;> (try split at taken) <;> cases taken <;>
    exact (sameThreads_main s _ _).later

theorem step_later {s t : State P} {a : Action P.workers ε} (taken : step s a = some t) :
    Later s t := by
  cases a with
  | source => exact sourceStep_later taken
  | sourceFails e =>
    simp only [step, sourceFails] at taken
    split at taken
    · cases taken
      constructor <;> simp_all [State.failed]
    · cases taken
  | worker i => exact workerStep_later taken
  | workerFails i e =>
    simp only [step, workerFails] at taken
    split at taken
    case h_5 => cases taken
    all_goals
      cases taken
      exact later_setWorker s s i _ (.refl s) (by simp_all) rfl
  | joiner => exact joinerStep_later taken
  | main => exact mainStep_later taken
  | mainFails e =>
    simp only [step, mainFails] at taken
    split at taken
    case h_8 => cases taken
    all_goals
      cases taken
      exact (sameThreads_main s _ _).later

/-- What the source, a worker and the main thread know in each control state. -/
def SourceOk (s : State P) : SourceState α ε → Prop
  | .running _ | .recording _ => True
  | .closing => s.failed = true
  | .finished => s.input.closed = true

def WorkerOk (s : State P) : WorkerState α β ε → Prop
  | .checking | .popping | .working _ | .pushing _ | .recording _ => True
  | .closingIn | .closingOut => s.failed = true
  | .exited => s.failed = true ∨ s.input.closed = true ∧ s.input.items = []

def MainOk (s : State P) : MainState β ε → Prop
  | .popping | .handling _ | .draining | .recording _ => True
  | .checkingPending | .checkingSink | .checkingFailed | .finishing =>
    s.output.closed = true ∧ s.output.items = []
  | .closing => s.failed = true
  | .joiningSource => s.output.closed = true
  | .joiningJoiner => s.output.closed = true ∧ s.source = .finished
  | .returned => s.output.closed = true ∧ s.source = .finished ∧ s.joined = true

structure Shutdown (s : State P) : Prop where
  source : SourceOk s s.source
  workers : ∀ i, WorkerOk s (s.workers i)
  main : MainOk s s.main
  input : s.input.closed = true → s.failed = true ∨ s.source = .finished
  output : s.output.closed = true → s.failed = true ∨ ∀ i, s.workers i = .exited
  joined : s.joined = true → s.output.closed = true ∧ ∀ i, s.workers i = .exited

theorem SourceOk.later {s t : State P} {source : SourceState α ε} (ok : SourceOk s source)
    (later : Later s t) : SourceOk t source := by
  cases source with
  | running script | recording e => trivial
  | closing => exact later.failed ok
  | finished => exact later.input ok

theorem WorkerOk.later {s t : State P} {w : WorkerState α β ε} (ok : WorkerOk s w)
    (later : Later s t) : WorkerOk t w := by
  cases w with
  | checking | popping | working item | pushing result | recording e => trivial
  | closingIn | closingOut => exact later.failed ok
  | exited =>
    rcases ok with failed | ⟨closed, empty⟩
    · exact .inl (later.failed failed)
    · exact .inr ⟨later.input closed, later.inputEmpty closed empty⟩

theorem MainOk.later {s t : State P} {main : MainState β ε} (ok : MainOk s main)
    (later : Later s t) : MainOk t main := by
  cases main with
  | popping | handling result | draining | recording e => trivial
  | checkingPending | checkingSink | checkingFailed | finishing =>
    exact ⟨later.output ok.1, later.outputEmpty ok.1 ok.2⟩
  | closing => exact later.failed ok
  | joiningSource => exact later.output ok
  | joiningJoiner => exact ⟨later.output ok.1, later.source ok.2⟩
  | returned => exact ⟨later.output ok.1, later.source ok.2.1, later.joined ok.2.2⟩

theorem Shutdown.of_later {s t : State P} (inv : Shutdown s) (later : Later s t)
    (source : t.source = s.source ∨ SourceOk t t.source)
    (workers : ∀ i, t.workers i = s.workers i ∨ WorkerOk t (t.workers i))
    (main : t.main = s.main ∨ MainOk t t.main)
    (input : t.input.closed = s.input.closed ∨ t.failed = true ∨ t.source = .finished)
    (output : t.output.closed = s.output.closed ∨ t.failed = true ∨ ∀ i, t.workers i = .exited)
    (joined : t.joined = s.joined ∨ t.output.closed = true ∧ ∀ i, t.workers i = .exited) :
    Shutdown t where
  source := by
    rcases source with same | ok
    · rw [same]
      exact inv.source.later later
    · exact ok
  workers i := by
    rcases workers i with same | ok
    · rw [same]
      exact (inv.workers i).later later
    · exact ok
  main := by
    rcases main with same | ok
    · rw [same]
      exact inv.main.later later
    · exact ok
  input closed := by
    rcases input with same | ok
    · exact (inv.input (same ▸ closed)).imp later.failed later.source
    · exact ok
  output closed := by
    rcases output with same | ok
    · exact (inv.output (same ▸ closed)).imp later.failed fun all i => later.workers i (all i)
    · exact ok
  joined now := by
    rcases joined with same | ok
    · obtain ⟨closed, all⟩ := inv.joined (same ▸ now)
      exact ⟨later.output closed, fun i => later.workers i (all i)⟩
    · exact ok

theorem sourceStep_shutdown {s t : State P} (inv : Shutdown s) (taken : sourceStep s = some t) :
    Shutdown t := by
  have later := sourceStep_later taken
  have known := inv.source
  unfold sourceStep at taken
  split at taken
  case h_4 =>
    split at taken
    · cases taken
      exact inv.of_later later (.inr trivial) (fun _ => .inl rfl) (.inl rfl) (.inl rfl)
        (.inl rfl) (.inl rfl)
    · split at taken
      · cases taken
        exact inv.of_later later (.inr trivial) (fun _ => .inl rfl) (.inl rfl) (.inl rfl)
          (.inl rfl) (.inl rfl)
      · cases taken
  case h_1 | h_6 =>
    cases taken
    exact inv.of_later later (.inr rfl) (fun _ => .inl rfl) (.inl rfl) (.inr (.inr rfl))
      (.inl rfl) (.inl rfl)
  case h_5 =>
    cases taken
    exact inv.of_later later (.inr rfl) (fun _ => .inl rfl) (.inl rfl) (.inl rfl) (.inl rfl)
      (.inl rfl)
  case h_7 => cases taken
  all_goals
    cases taken
    exact inv.of_later later (.inr trivial) (fun _ => .inl rfl) (.inl rfl) (.inl rfl) (.inl rfl)
      (.inl rfl)

theorem Shutdown.of_worker {s u : State P} (inv : Shutdown s) (i : Fin P.workers)
    (w : WorkerState α β ε) (later : Later s (u.setWorker i w)) (workers : u.workers = s.workers)
    (own : WorkerOk (u.setWorker i w) w) (source : u.source = s.source) (main : u.main = s.main)
    (input : u.input.closed = s.input.closed ∨ u.failed = true)
    (output : u.output.closed = s.output.closed ∨ u.failed = true) (joined : u.joined = s.joined) :
    Shutdown (u.setWorker i w) := by
  refine inv.of_later later (.inl source) (fun j => ?_) (.inl main) (input.imp id .inl)
    (output.imp id .inl) (.inl joined)
  by_cases hj : j = i
  · subst hj
    refine .inr ?_
    rw [State.setWorker_workers, Function.update_self]
    exact own
  · refine .inl ?_
    rw [State.setWorker_workers, Function.update_of_ne hj, workers]

theorem workerStep_shutdown {s t : State P} {i : Fin P.workers} (inv : Shutdown s)
    (taken : workerStep s i = some t) : Shutdown t := by
  have later := workerStep_later taken
  have known := inv.workers i
  unfold workerStep at taken
  split at taken
  case h_1 =>
    cases taken
    refine inv.of_worker i _ later rfl ?_ rfl rfl (.inl rfl) (.inl rfl) rfl
    split
    · exact .inl ‹_›
    · trivial
  case h_2 =>
    split at taken
    · cases taken
      exact inv.of_worker i _ later rfl trivial rfl rfl (.inl rfl) (.inl rfl) rfl
    · split at taken
      · cases taken
        exact inv.of_worker i _ later rfl (.inr ⟨‹_›, ‹_›⟩) rfl rfl (.inl rfl) (.inl rfl) rfl
      · cases taken
  case h_3 =>
    split at taken
    all_goals
      cases taken
      exact inv.of_worker i _ later rfl trivial rfl rfl (.inl rfl) (.inl rfl) rfl
  case h_4 busy =>
    split at taken
    case isTrue closed =>
      cases taken
      refine inv.of_worker i _ later rfl ?_ rfl rfl (.inl rfl) (.inl rfl) rfl
      -- the other workers have not all exited, so only a failure closes the output
      rcases inv.output closed with failed | all
      · exact .inl failed
      · rw [all i] at busy
        cases busy
    case isFalse =>
      split at taken
      · cases taken
        exact inv.of_worker i _ later rfl trivial rfl rfl (.inl rfl) (.inl rfl) rfl
      · cases taken
  case h_5 =>
    cases taken
    exact inv.of_worker i _ later rfl rfl rfl rfl (.inr rfl) (.inr rfl) rfl
  case h_6 closing =>
    cases taken
    rw [closing] at known
    exact inv.of_worker i _ later rfl known rfl rfl (.inr known) (.inl rfl) rfl
  case h_7 closing =>
    cases taken
    rw [closing] at known
    exact inv.of_worker i _ later rfl (.inl known) rfl rfl (.inl rfl) (.inr known) rfl
  case h_8 => cases taken

theorem joinerStep_shutdown {s t : State P} (inv : Shutdown s) (taken : joinerStep s = some t) :
    Shutdown t := by
  have later := joinerStep_later taken
  unfold joinerStep at taken
  split at taken
  case isTrue all =>
    cases taken
    exact inv.of_later later (.inl rfl) (fun _ => .inl rfl) (.inl rfl) (.inl rfl)
      (.inr (.inr all.2)) (.inr ⟨rfl, all.2⟩)
  case isFalse => cases taken

theorem Shutdown.of_sameThreads {s t : State P} (inv : Shutdown s) (same : SameThreads s t)
    (own : MainOk t t.main) : Shutdown t :=
  inv.of_later same.later (.inl same.source) (fun i => .inl (by rw [same.workers])) (.inr own)
    (.inl (by rw [same.input])) (.inl (by rw [same.output])) (.inl same.joined)

theorem drainStep_shutdown {s : State P} (inv : Shutdown s) (draining : s.main = .draining) :
    Shutdown (drainStep s) := by
  refine inv.of_sameThreads (drainStep_sameThreads s) ?_
  unfold drainStep
  split
  · trivial
  · split
    · rw [draining]
      trivial
    · trivial

theorem finishStep_shutdown {s : State P} (inv : Shutdown s)
    (closed : s.output.closed = true) : Shutdown (finishStep s) := by
  refine inv.of_sameThreads (finishStep_sameThreads s) ?_
  unfold finishStep
  split
  · exact closed
  · trivial

theorem mainStep_shutdown {s t : State P} (inv : Shutdown s) (taken : mainStep s = some t) :
    Shutdown t := by
  have later := mainStep_later taken
  have known := inv.main
  have silent : ∀ main pending, MainOk s main →
      Shutdown { s with main := main, pending := pending } := fun main pending own =>
    inv.of_sameThreads (sameThreads_main s main pending)
      (own.later (sameThreads_main s main pending).later)
  unfold mainStep at taken
  split at taken
  case h_1 =>
    split at taken
    · cases taken
      exact inv.of_later later (.inl rfl) (fun _ => .inl rfl) (.inr trivial) (.inl rfl) (.inl rfl)
        (.inl rfl)
    case _ empty =>
      split at taken
      case isTrue closed =>
        cases taken
        exact silent _ _ ⟨closed, empty⟩
      case isFalse => cases taken
  case h_2 =>
    split at taken
    · cases taken
      exact silent _ _ trivial
    · split at taken
      all_goals
        cases taken
        exact silent _ _ trivial
  case h_3 draining =>
    cases taken
    exact drainStep_shutdown inv draining
  case h_4 checking =>
    rw [checking] at known
    split at taken
    · cases taken
      exact silent _ _ trivial
    · cases taken
      exact silent _ _ known
  case h_5 checking =>
    rw [checking] at known
    split at taken
    · cases taken
      exact silent _ _ known
    · split at taken
      · cases taken
        exact silent _ _ trivial
      · cases taken
        exact silent _ _ known
  case h_6 checking =>
    rw [checking] at known
    cases taken
    refine silent _ _ ?_
    split
    · exact known.1
    · exact known
  case h_7 finishing =>
    rw [finishing] at known
    cases taken
    exact finishStep_shutdown inv known.1
  case h_8 =>
    cases taken
    exact inv.of_later later (.inl rfl) (fun _ => .inl rfl) (.inr rfl) (.inl rfl) (.inl rfl)
      (.inl rfl)
  case h_9 closing =>
    rw [closing] at known
    cases taken
    exact inv.of_later later (.inl rfl) (fun _ => .inl rfl) (.inr rfl) (.inl rfl)
      (.inr (.inl known)) (.inl rfl)
  case h_10 joining =>
    rw [joining] at known
    split at taken
    case isTrue finished =>
      cases taken
      exact silent _ _ ⟨known, finished⟩
    case isFalse => cases taken
  case h_11 joining =>
    rw [joining] at known
    split at taken
    case isTrue joined =>
      cases taken
      exact silent _ _ ⟨known.1, known.2, joined⟩
    case isFalse => cases taken
  case h_12 => cases taken

theorem step_shutdown {s t : State P} {a : Action P.workers ε} (inv : Shutdown s)
    (taken : step s a = some t) : Shutdown t := by
  have later := step_later taken
  cases a with
  | source => exact sourceStep_shutdown inv taken
  | sourceFails e =>
    simp only [step, sourceFails] at taken
    split at taken
    · cases taken
      exact inv.of_later later (.inr trivial) (fun _ => .inl rfl) (.inl rfl) (.inl rfl) (.inl rfl)
        (.inl rfl)
    · cases taken
  | worker i => exact workerStep_shutdown inv taken
  | workerFails i e =>
    simp only [step, workerFails] at taken
    split at taken
    case h_5 => cases taken
    all_goals
      cases taken
      exact inv.of_worker i _ later rfl trivial rfl rfl (.inl rfl) (.inl rfl) rfl
  | joiner => exact joinerStep_shutdown inv taken
  | main => exact mainStep_shutdown inv taken
  | mainFails e =>
    simp only [step, mainFails] at taken
    split at taken
    case h_8 => cases taken
    all_goals
      cases taken
      exact inv.of_sameThreads (sameThreads_main s _ _) trivial

theorem init_shutdown (sink : σ) : Shutdown (init P sink) where
  source := trivial
  workers _ := trivial
  main := trivial
  input := nofun
  output := nofun
  joined := nofun

theorem Run.shutdown {allowed : State P → Action P.workers ε → Prop} {sink : σ} {s : State P}
    (run : Run allowed (init P sink) s) : Shutdown s := by
  induction run with
  | refl => exact init_shutdown sink
  | next run meets taken inv => exact step_shutdown inv taken

structure State.Done (s : State P) : Prop where
  source : s.source = .finished
  workers : ∀ i, s.workers i = .exited
  joined : s.joined = true
  main : s.main = .returned

def Action.Proper {n : Nat} : Action n ε → Prop
  | .source | .worker _ | .joiner | .main => True
  | .sourceFails _ | .workerFails _ _ | .mainFails _ => False

/-- Some thread has not returned, and none has a step. -/
structure State.Stuck (s : State P) : Prop where
  undone : ¬s.Done
  noStep : ∀ a : Action P.workers ε, a.Proper → step s a = none

instance (s : State P) : Decidable s.Done :=
  decidable_of_iff (s.source = .finished ∧ (∀ i, s.workers i = .exited) ∧ s.joined = true ∧
    s.main = .returned) ⟨fun ⟨a, b, c, d⟩ => ⟨a, b, c, d⟩, fun ⟨a, b, c, d⟩ => ⟨a, b, c, d⟩⟩

instance (s : State P) : Decidable s.Stuck :=
  decidable_of_iff (¬s.Done ∧ (step s .source).isNone ∧ (∀ i, (step s (.worker i)).isNone) ∧
      (step s .joiner).isNone ∧ (step s .main).isNone) <| by
    simp only [Option.isNone_iff_eq_none]
    constructor
    · rintro ⟨undone, source, workers, joiner, main⟩
      refine ⟨undone, fun a proper => ?_⟩
      cases a with
      | source => exact source
      | worker i => exact workers i
      | joiner => exact joiner
      | main => exact main
      | sourceFails e | workerFails i e | mainFails e => exact proper.elim
    · rintro ⟨undone, noStep⟩
      exact ⟨undone, noStep _ trivial, fun i => noStep _ trivial, noStep _ trivial,
        noStep _ trivial⟩

section Stuck
variable {s : State P}

theorem sourceStep_none (blocked : sourceStep s = none) : s.source = .finished ∨
    (∃ item accepted refused, s.source = .running (.push item accepted refused)) ∧
      s.input.closed = false ∧ P.capacity ≤ s.input.items.length := by
  unfold sourceStep at blocked
  split at blocked
  case h_4 item accepted refused source =>
    split at blocked
    · cases blocked
    case isFalse opened =>
      split at blocked
      · cases blocked
      case isFalse full =>
        exact .inr ⟨⟨item, accepted, refused, source⟩, by simpa using opened, by omega⟩
  case h_7 source => exact .inl source
  all_goals cases blocked

theorem workerStep_none {i : Fin P.workers} (blocked : workerStep s i = none) :
    s.workers i = .exited ∨ s.input.items = [] ∧ s.input.closed = false ∨
      s.output.closed = false ∧ P.capacity ≤ s.output.items.length := by
  unfold workerStep at blocked
  split at blocked
  case h_2 =>
    split at blocked
    · cases blocked
    case h_2 empty =>
      split at blocked
      · cases blocked
      case isFalse opened => exact .inr (.inl ⟨empty, by simpa using opened⟩)
  case h_3 => split at blocked <;> cases blocked
  case h_4 =>
    split at blocked
    · cases blocked
    case isFalse opened =>
      split at blocked
      · cases blocked
      case isFalse full => exact .inr (.inr ⟨by simpa using opened, by omega⟩)
  case h_8 exited => exact .inl exited
  all_goals cases blocked

theorem mainStep_none (blocked : mainStep s = none) :
    s.main = .popping ∧ s.output.items = [] ∧ s.output.closed = false ∨
      s.main = .joiningSource ∧ s.source ≠ .finished ∨
      s.main = .joiningJoiner ∧ s.joined = false ∨ s.main = .returned := by
  unfold mainStep at blocked
  split at blocked
  case h_1 popping =>
    split at blocked
    · cases blocked
    case h_2 empty =>
      split at blocked
      · cases blocked
      case isFalse opened => exact .inl ⟨popping, empty, by simpa using opened⟩
  case h_2 => (split at blocked <;> try split at blocked) <;> cases blocked
  case h_4 => split at blocked <;> cases blocked
  case h_5 => (split at blocked <;> try split at blocked) <;> cases blocked
  case h_10 joining =>
    split at blocked
    · cases blocked
    case isFalse busy => exact .inr (.inl ⟨joining, busy⟩)
  case h_11 joining =>
    split at blocked
    · cases blocked
    case isFalse busy => exact .inr (.inr (.inl ⟨joining, by simpa using busy⟩))
  case h_12 returned => exact .inr (.inr (.inr returned))
  all_goals cases blocked

/-- The one way to be stuck: after a failure every worker has left, and the source waits on
the full queue that the failing thread did not close. -/
theorem stuck_shape (inv : Shutdown s) (stuck : s.Stuck) :
    s.failed = true ∧ (∀ i, s.workers i = .exited) ∧ s.input.closed = false ∧
      P.capacity ≤ s.input.items.length ∧
      ∃ item accepted refused, s.source = .running (.push item accepted refused) := by
  have capacity := P.capacityPos
  have source := sourceStep_none (stuck.noStep .source trivial)
  have workers := fun i => workerStep_none (stuck.noStep (.worker i) trivial)
  have main := inv.main
  have joiner : (∀ i, s.workers i = .exited) → s.joined = true := by
    intro all
    by_contra waiting
    have taken := stuck.noStep .joiner trivial
    rw [step, joinerStep, if_pos ⟨by simpa using waiting, all⟩] at taken
    cases taken
  rcases mainStep_none (stuck.noStep .main trivial) with
    ⟨_, empty, opened⟩ | ⟨joining, busy⟩ | ⟨joining, waiting⟩ | returned
  · -- the output is empty, so no worker waits to push, and some worker waits to pop
    exfalso
    have pops : ∃ i, s.workers i ≠ .exited := by
      by_contra none
      have all : ∀ i, s.workers i = .exited := fun i => by_contra fun busy => none ⟨i, busy⟩
      rw [(inv.joined (joiner all)).1] at opened
      cases opened
    obtain ⟨i, busy⟩ := pops
    rcases workers i with exited | ⟨dry, open_⟩ | ⟨_, full⟩
    · exact busy exited
    · rcases source with finished | ⟨_, _, full⟩
      · have known := inv.source
        rw [finished] at known
        rw [show s.input.closed = true from known] at open_
        cases open_
      · rw [dry, List.length_nil] at full
        omega
    · rw [empty, List.length_nil] at full
      omega
  · rw [joining] at main
    rcases source with finished | ⟨push, opened, full⟩
    · exact absurd finished busy
    · have all : ∀ i, s.workers i = .exited := by
        intro i
        rcases workers i with exited | ⟨dry, _⟩ | ⟨open_, _⟩
        · exact exited
        · rw [dry, List.length_nil] at full
          omega
        · rw [show s.output.closed = true from main] at open_
          cases open_
      refine ⟨?_, all, opened, full, push⟩
      have known := inv.workers ⟨0, P.workersPos⟩
      rw [all] at known
      rcases known with failed | ⟨closed, _⟩
      · exact failed
      · rw [closed] at opened
        cases opened
  · exfalso
    rw [joining] at main
    have closed : s.input.closed = true := by
      have known := inv.source
      rwa [main.2] at known
    have all : ∀ i, s.workers i = .exited := by
      intro i
      rcases workers i with exited | ⟨_, open_⟩ | ⟨open_, _⟩
      · exact exited
      · rw [closed] at open_
        cases open_
      · rw [main.1] at open_
        cases open_
    rw [joiner all] at waiting
    cases waiting
  · exfalso
    rw [returned] at main
    exact stuck.undone ⟨main.2.1, (inv.joined main.2.2).2, main.2.2, returned⟩

end Stuck

end OrderedPipeline
