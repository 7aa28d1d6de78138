import Bseal.Lib.Effect
import Mathlib.Data.Fintype.Basic

/-! A pipeline of threads over two bounded queues: a source that runs a script, workers
that may finish out of order, a joiner that closes the second queue once all workers have
exited, and a main thread that puts the results back in order before it joins the others.
Every queue operation and every read or write of the failure is one atomic step. -/
namespace OrderedPipeline

/-- What a source does: it looks at the failure, pushes items, and ends or throws. -/
inductive Script (α ε : Type) where
  | done
  | throw (e : ε)
  | check (go stopped : Script α ε)
  | push (item : α) (accepted refused : Script α ε)

structure Queue (τ : Type) where
  items : List τ
  closed : Bool

namespace Queue
variable {τ : Type}

def empty : Queue τ := ⟨[], false⟩

def put (q : Queue τ) (item : τ) : Queue τ := { q with items := q.items ++ [item] }

def close (q : Queue τ) : Queue τ := { q with closed := true }

end Queue

inductive SourceState (α ε : Type) where
  | running (script : Script α ε)
  | recording (e : ε)
  | closing
  | finished

inductive WorkerState (α β ε : Type) where
  | checking
  | popping
  | working (item : α)
  | pushing (result : β)
  | recording (e : ε)
  | closingIn
  | closingOut
  | exited

inductive MainState (β ε : Type) where
  | popping
  | handling (result : β)
  | draining
  | checkingPending
  | checkingSink
  | checkingFailed
  | finishing
  | recording (e : ε)
  | closing
  | joiningSource
  | joiningJoiner
  | returned

inductive Call (β : Type) where
  | consume (result : β)
  | finish
  deriving DecidableEq

structure Pipeline (α β ε σ : Type) where
  workers : Nat
  capacity : Nat
  workersPos : 0 < workers
  capacityPos : 0 < capacity
  script : Script α ε
  work : α → Except ε β
  index : β → Nat
  consume : β → Effect ε σ Unit
  finish : Effect ε σ Unit
  sinkCheck : σ → Option ε
  stale : ε
  duplicate : ε
  missing : ε

variable {α β ε σ : Type}

/-- The main thread's results wait in `pending` for the index `next`; `calls` is what the
sink was asked to do, in order. -/
structure State (P : Pipeline α β ε σ) where
  source : SourceState α ε
  input : Queue α
  workers : Fin P.workers → WorkerState α β ε
  output : Queue β
  failure : Option ε
  joined : Bool
  main : MainState β ε
  pending : List β
  next : Nat
  sink : σ
  calls : List (Call β)

variable {P : Pipeline α β ε σ}

namespace State

def failed (s : State P) : Bool := s.failure.isSome

/-- Only the first failure is kept. -/
def record (s : State P) (e : ε) : State P := { s with failure := some (s.failure.getD e) }

def setWorker (s : State P) (i : Fin P.workers) (w : WorkerState α β ε) : State P :=
  { s with workers := Function.update s.workers i w }

section SetWorker
variable (s : State P) (i : Fin P.workers) (w : WorkerState α β ε)

@[simp] theorem setWorker_source : (s.setWorker i w).source = s.source := rfl

@[simp] theorem setWorker_input : (s.setWorker i w).input = s.input := rfl

@[simp] theorem setWorker_workers :
    (s.setWorker i w).workers = Function.update s.workers i w := rfl

end SetWorker

end State

def init (P : Pipeline α β ε σ) (sink : σ) : State P where
  source := .running P.script
  input := .empty
  workers := fun _ => .checking
  output := .empty
  failure := none
  joined := false
  main := .popping
  pending := []
  next := 0
  sink := sink
  calls := []

section Steps

def sourceStep (s : State P) : Option (State P) :=
  match s.source with
  | .running .done => some { s with input := s.input.close, source := .finished }
  | .running (.throw e) => some { s with source := .recording e }
  | .running (.check go stopped) =>
    some { s with source := .running (if s.failed then stopped else go) }
  | .running (.push item accepted refused) =>
    if s.input.closed then some { s with source := .running refused }
    else if s.input.items.length < P.capacity then
      some { s with input := s.input.put item, source := .running accepted }
    else none
  | .recording e => some { s.record e with source := .closing }
  | .closing => some { s with input := s.input.close, source := .finished }
  | .finished => none

def sourceFails (s : State P) (e : ε) : Option (State P) :=
  match s.source with
  | .running _ => some { s with source := .recording e }
  | _ => none

def workerStep (s : State P) (i : Fin P.workers) : Option (State P) :=
  match s.workers i with
  | .checking => some (s.setWorker i (if s.failed then .exited else .popping))
  | .popping =>
    match s.input.items with
    | item :: rest =>
      some ({ s with input := { s.input with items := rest } }.setWorker i (.working item))
    | [] => if s.input.closed then some (s.setWorker i .exited) else none
  | .working item =>
    match P.work item with
    | .ok result => some (s.setWorker i (.pushing result))
    | .error e => some (s.setWorker i (.recording e))
  | .pushing result =>
    if s.output.closed then some (s.setWorker i .exited)
    else if s.output.items.length < P.capacity then
      some ({ s with output := s.output.put result }.setWorker i .checking)
    else none
  | .recording e => some ((s.record e).setWorker i .closingIn)
  | .closingIn => some ({ s with input := s.input.close }.setWorker i .closingOut)
  | .closingOut => some ({ s with output := s.output.close }.setWorker i .exited)
  | .exited => none

def workerFails (s : State P) (i : Fin P.workers) (e : ε) : Option (State P) :=
  match s.workers i with
  | .checking | .popping | .working _ | .pushing _ => some (s.setWorker i (.recording e))
  | _ => none

instance (w : WorkerState α β ε) : Decidable (w = .exited) :=
  match w with
  | .exited => isTrue rfl
  | .checking | .popping | .working _ | .pushing _ | .recording _ | .closingIn
  | .closingOut => isFalse nofun

instance (source : SourceState α ε) : Decidable (source = .finished) :=
  match source with
  | .finished => isTrue rfl
  | .running _ | .recording _ | .closing => isFalse nofun

instance (main : MainState β ε) : Decidable (main = .returned) :=
  match main with
  | .returned => isTrue rfl
  | .popping | .handling _ | .draining | .checkingPending | .checkingSink | .checkingFailed
  | .finishing | .recording _ | .closing | .joiningSource | .joiningJoiner => isFalse nofun

def joinerStep (s : State P) : Option (State P) :=
  if s.joined = false ∧ ∀ i, s.workers i = .exited then
    some { s with output := s.output.close, joined := true }
  else none

/-- Hand the next result to the sink, or go back to the queue when it is not there yet. -/
def drainStep (s : State P) : State P :=
  match s.pending.find? fun b => P.index b = s.next with
  | none => { s with main := .popping }
  | some result =>
    match Effect.exec (P.consume result) s.sink with
    | (.ok _, sink) =>
      { s with
        sink := sink
        calls := s.calls ++ [.consume result]
        pending := s.pending.filter fun b => P.index b ≠ s.next
        next := s.next + 1 }
    | (.error e, sink) =>
      { s with sink := sink, calls := s.calls ++ [.consume result], main := .recording e }

def finishStep (s : State P) : State P :=
  match Effect.exec P.finish s.sink with
  | (.ok _, sink) => { s with sink := sink, calls := s.calls ++ [.finish], main := .joiningSource }
  | (.error e, sink) => { s with sink := sink, calls := s.calls ++ [.finish], main := .recording e }

def mainStep (s : State P) : Option (State P) :=
  match s.main with
  | .popping =>
    match s.output.items with
    | result :: rest =>
      some { s with output := { s.output with items := rest }, main := .handling result }
    | [] => if s.output.closed then some { s with main := .checkingPending } else none
  | .handling result =>
    if P.index result < s.next then some { s with main := .recording P.stale }
    else if s.pending.any fun b => P.index b = P.index result then
      some { s with main := .recording P.duplicate }
    else some { s with pending := result :: s.pending, main := .draining }
  | .draining => some (drainStep s)
  | .checkingPending =>
    if ¬s.pending.isEmpty ∧ ¬s.failed then some { s with main := .recording P.missing }
    else some { s with main := .checkingSink }
  | .checkingSink =>
    if s.failed then some { s with main := .checkingFailed }
    else match P.sinkCheck s.sink with
      | some e => some { s with main := .recording e }
      | none => some { s with main := .checkingFailed }
  | .checkingFailed =>
    some { s with main := if s.failed then .joiningSource else .finishing }
  | .finishing => some (finishStep s)
  | .recording e => some { s.record e with main := .closing }
  | .closing => some { s with output := s.output.close, main := .joiningSource }
  | .joiningSource => if s.source = .finished then some { s with main := .joiningJoiner } else none
  | .joiningJoiner => if s.joined then some { s with main := .returned } else none
  | .returned => none

def mainFails (s : State P) (e : ε) : Option (State P) :=
  match s.main with
  | .popping | .handling _ | .draining | .checkingPending | .checkingSink | .checkingFailed
  | .finishing => some { s with main := .recording e }
  | _ => none

end Steps

inductive Action (n : Nat) (ε : Type) where
  | source
  | sourceFails (e : ε)
  | worker (i : Fin n)
  | workerFails (i : Fin n) (e : ε)
  | joiner
  | main
  | mainFails (e : ε)

def step (s : State P) : Action P.workers ε → Option (State P)
  | .source => sourceStep s
  | .sourceFails e => sourceFails s e
  | .worker i => workerStep s i
  | .workerFails i e => workerFails s i e
  | .joiner => joinerStep s
  | .main => mainStep s
  | .mainFails e => mainFails s e

/-- The states of the runs from `start` whose every step meets `allowed`. -/
inductive Run (allowed : State P → Action P.workers ε → Prop) (start : State P) : State P → Prop
  | refl : Run allowed start start
  | next {s t : State P} {a : Action P.workers ε} (run : Run allowed start s)
    (meets : allowed s a) (taken : step s a = some t) : Run allowed start t

abbrev Reaches (s t : State P) : Prop := Run (fun _ _ => True) s t

def runActions (s : State P) : List (Action P.workers ε) → Option (State P)
  | [] => some s
  | a :: rest => (step s a).bind fun t => runActions t rest

theorem reaches_runActions {start s t : State P} {actions : List (Action P.workers ε)}
    (run : Reaches start s) (ran : runActions s actions = some t) : Reaches start t := by
  induction actions generalizing s with
  | nil =>
    cases ran
    exact run
  | cons a rest ih =>
    obtain ⟨next, taken, more⟩ := Option.bind_eq_some_iff.mp ran
    exact ih (run.next trivial taken) more

theorem reaches_of_any {start : State P} {actions : List (Action P.workers ε)}
    {test : State P → Bool} (ran : (runActions start actions).any test = true) :
    ∃ s, Reaches start s ∧ test s = true := by
  obtain ⟨s, same, passed⟩ := (Option.any_eq_true _ _).mp ran
  exact ⟨s, reaches_runActions .refl same, passed⟩

end OrderedPipeline
