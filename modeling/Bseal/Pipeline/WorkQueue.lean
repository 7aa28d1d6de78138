import Bseal.Lib.OrderedPipeline
import Bseal.Lib.Threads

/-! `pipeline/WorkQueue.hpp` below the pipelines: any number of threads in `push`, `pop` and
`close`. A critical section is one step; a thread that finds its predicate false joins the wait
set in that step, and looks again once it is notified or wakes up by itself. -/
namespace Bseal.Pipeline.WorkQueue
open OrderedPipeline (Queue)
open Threads

/-- The constructor's `capacity == 0 ? 1 : capacity`. -/
def slots (capacity : Nat) : Nat := if capacity = 0 then 1 else capacity

/-- Where a thread is: about to lock the mutex in a call (`notified`: for the next check of the
predicate, after a notification), in a wait set, or in the second half of `close`. -/
inductive Status (α : Type) where
  | idle
  | pushing (value : α) (notified : Bool)
  | waitsNotFull (value : α)
  | popping (notified : Bool)
  | waitsNotEmpty
  | closing
  | notifiesFull
  | notifiesEmpty

structure State (ι α : Type) where
  closed : Bool
  queue : List α
  threads : ι → Status α

/-- What a call returns, at its critical section; every other step is silent. -/
inductive Event (ι α : Type) where
  | push (thread : ι) (value : α) (accepted : Bool)
  | pop (thread : ι) (value : Option α)
  | silent (thread : ι)

namespace Event
variable {ι α : Type}

def thread : Event ι α → ι
  | push i _ _ | pop i _ | silent i => i

def accepted : Event ι α → List α
  | push _ v true => [v]
  | push _ _ false | pop _ _ | silent _ => []

def popped : Event ι α → List α
  | pop _ (some v) => [v]
  | pop _ none | push _ _ _ | silent _ => []

end Event

section CondVars
variable {α : Type}

def notFull : CondVar (Status α) where
  wake
    | .waitsNotFull v => some (.pushing v true)
    | _ => none
  notified
    | .pushing _ notified => notified
    | _ => false
  wake_wake x y moved := by cases x <;> cases moved; rfl
  wake_notified x y moved := by cases x <;> cases moved; rfl
  waits_notified x waiting := by cases x <;> first | rfl | cases waiting

def notEmpty : CondVar (Status α) where
  wake
    | .waitsNotEmpty => some (.popping true)
    | _ => none
  notified
    | .popping notified => notified
    | _ => false
  wake_wake x y moved := by cases x <;> cases moved; rfl
  wake_notified x y moved := by cases x <;> cases moved; rfl
  waits_notified x waiting := by cases x <;> first | rfl | cases waiting

end CondVars

section Steps
variable {ι α : Type} [DecidableEq ι]

def State.set (s : State ι α) (i : ι) (status : Status α) : State ι α :=
  { s with threads := Function.update s.threads i status }

def State.CanPush (capacity : Nat) (s : State ι α) : Prop :=
  s.closed = true ∨ s.queue.length < slots capacity

def State.CanPop (s : State ι α) : Prop := s.closed = true ∨ s.queue ≠ []

inductive Step (capacity : Nat) : State ι α → Event ι α → State ι α → Prop
  | callPush {s : State ι α} {i : ι} (v : α) (here : s.threads i = .idle) :
      Step capacity s (.silent i) (s.set i (.pushing v false))
  | callPop {s : State ι α} {i : ι} (here : s.threads i = .idle) :
      Step capacity s (.silent i) (s.set i (.popping false))
  | callClose {s : State ι α} {i : ι} (here : s.threads i = .idle) :
      Step capacity s (.silent i) (s.set i .closing)
  | pushWaits {s : State ι α} {i : ι} {v : α} {b : Bool} (here : s.threads i = .pushing v b)
      (full : ¬s.CanPush capacity) : Step capacity s (.silent i) (s.set i (.waitsNotFull v))
  | pushRefused {s : State ι α} {i : ι} {v : α} {b : Bool} (here : s.threads i = .pushing v b)
      (closed : s.closed = true) : Step capacity s (.push i v false) (s.set i .idle)
  | pushed {s : State ι α} {i : ι} {v : α} {b : Bool} {threads : ι → Status α}
      (here : s.threads i = .pushing v b) (room : s.CanPush capacity)
      (isOpen : s.closed = false)
      (notified : notEmpty.NotifyOne (s.set i .idle).threads threads) :
      Step capacity s (.push i v true) { s with queue := s.queue ++ [v], threads := threads }
  | popWaits {s : State ι α} {i : ι} {b : Bool} (here : s.threads i = .popping b)
      (empty : ¬s.CanPop) : Step capacity s (.silent i) (s.set i .waitsNotEmpty)
  | popNothing {s : State ι α} {i : ι} {b : Bool} (here : s.threads i = .popping b)
      (returns : s.CanPop) (empty : s.queue = []) :
      Step capacity s (.pop i none) (s.set i .idle)
  | popped {s : State ι α} {i : ι} {b : Bool} {v : α} {rest : List α} {threads : ι → Status α}
      (here : s.threads i = .popping b) (front : s.queue = v :: rest)
      (notified : notFull.NotifyOne (s.set i .idle).threads threads) :
      Step capacity s (.pop i (some v)) { s with queue := rest, threads := threads }
  | closes {s : State ι α} {i : ι} (here : s.threads i = .closing) (isOpen : s.closed = false) :
      Step capacity s (.silent i) { s.set i .notifiesFull with closed := true }
  | closesAgain {s : State ι α} {i : ι} (here : s.threads i = .closing)
      (closed : s.closed = true) : Step capacity s (.silent i) (s.set i .idle)
  | notifiesFull {s : State ι α} {i : ι} (here : s.threads i = .notifiesFull) :
      Step capacity s (.silent i)
        { s with threads := notFull.notifyAll (s.set i .notifiesEmpty).threads }
  | notifiesEmpty {s : State ι α} {i : ι} (here : s.threads i = .notifiesEmpty) :
      Step capacity s (.silent i)
        { s with threads := notEmpty.notifyAll (s.set i .idle).threads }
  | wakesInPush {s : State ι α} {i : ι} {v : α} (here : s.threads i = .waitsNotFull v) :
      Step capacity s (.silent i) (s.set i (.pushing v false))
  | wakesInPop {s : State ι α} {i : ι} (here : s.threads i = .waitsNotEmpty) :
      Step capacity s (.silent i) (s.set i (.popping false))

inductive Run (capacity : Nat) (start : State ι α) : List (Event ι α) → State ι α → Prop
  | refl : Run capacity start [] start
  | next {events : List (Event ι α)} {s t : State ι α} {e : Event ι α}
      (run : Run capacity start events s) (step : Step capacity s e t) :
      Run capacity start (events ++ [e]) t

end Steps

def initial (ι α : Type) : State ι α := ⟨false, [], fun _ => .idle⟩

/-! The queue that the pipelines are proved against: every call is one atomic step. -/

section Atomic
variable {ι α : Type}

def State.abstract (s : State ι α) : Queue α := ⟨s.queue, s.closed⟩

inductive Atomic (capacity : Nat) : Queue α → Event ι α → Queue α → Prop
  | accepted {q : Queue α} {i : ι} {v : α} (isOpen : q.closed = false)
      (room : q.items.length < slots capacity) : Atomic capacity q (.push i v true) (q.put v)
  | refused {q : Queue α} {i : ι} {v : α} (closed : q.closed = true) :
      Atomic capacity q (.push i v false) q
  | popped {q : Queue α} {i : ι} {v : α} {rest : List α} (front : q.items = v :: rest) :
      Atomic capacity q (.pop i (some v)) { q with items := rest }
  | drained {q : Queue α} {i : ι} (closed : q.closed = true) (empty : q.items = []) :
      Atomic capacity q (.pop i none) q
  | closes {q : Queue α} {i : ι} : Atomic capacity q (.silent i) q.close
  | stays {q : Queue α} {i : ι} : Atomic capacity q (.silent i) q

inductive AtomicRun (capacity : Nat) (start : Queue α) : List (Event ι α) → Queue α → Prop
  | refl : AtomicRun capacity start [] start
  | next {events : List (Event ι α)} {q r : Queue α} {e : Event ι α}
      (run : AtomicRun capacity start events q) (step : Atomic capacity q e r) :
      AtomicRun capacity start (events ++ [e]) r

variable {capacity : Nat} {events : List (Event ι α)} {e : Event ι α}

section Refinement
variable [DecidableEq ι] {s t : State ι α}

theorem Step.atomic (step : Step capacity s e t) : Atomic capacity s.abstract e t.abstract := by
  cases step with
  | callPush | callPop | callClose | pushWaits | popWaits | closesAgain | notifiesFull
  | notifiesEmpty | wakesInPush | wakesInPop => exact .stays
  | closes => exact .closes
  | pushRefused here closed => exact .refused closed
  | pushed here room isOpen notified =>
    exact .accepted isOpen (room.resolve_left (by simp [isOpen]))
  | popNothing here returns empty =>
    exact .drained (returns.resolve_right (by simp [empty])) empty
  | popped here front notified => exact .popped front

/-- The queue with its condition variables refines the atomic one. -/
theorem Run.atomic (run : Run capacity s events t) :
    AtomicRun capacity s.abstract events t.abstract := by
  induction run with
  | refl => exact .refl
  | next _ step ih => exact .next ih step.atomic

end Refinement

variable {q r : Queue α}

theorem Atomic.fifo (step : Atomic capacity q e r) :
    e.popped ++ r.items = q.items ++ e.accepted := by
  cases step with
  | accepted => rfl
  | popped front => exact front.symm.trans (List.append_nil _).symm
  | refused | drained | closes | stays => exact (List.append_nil _).symm

theorem Atomic.closed (step : Atomic capacity q e r) (closed : q.closed = true) :
    r.closed = true ∧ e.accepted = [] := by
  cases step with
  | accepted isOpen => rw [closed] at isOpen; cases isOpen
  | closes => exact ⟨rfl, rfl⟩
  | refused | popped | drained | stays => exact ⟨closed, rfl⟩

namespace AtomicRun

/-- First in, first out, with nothing lost and nothing twice. -/
theorem fifo (run : AtomicRun capacity q events r) :
    events.flatMap Event.popped ++ r.items = q.items ++ events.flatMap Event.accepted := by
  induction run with
  | refl => exact (List.append_nil _).symm
  | @next events r u e _ step ih =>
    rw [List.flatMap_append, List.flatMap_append, List.flatMap_singleton, List.flatMap_singleton]
    calc events.flatMap Event.popped ++ e.popped ++ u.items
        = events.flatMap Event.popped ++ (r.items ++ e.accepted) := by
          rw [List.append_assoc, step.fifo]
      _ = q.items ++ events.flatMap Event.accepted ++ e.accepted := by
          rw [← List.append_assoc, ih]
      _ = q.items ++ (events.flatMap Event.accepted ++ e.accepted) := List.append_assoc _ _ _

theorem closed (run : AtomicRun capacity q events r) (closed : q.closed = true) :
    r.closed = true ∧ events.flatMap Event.accepted = [] := by
  induction run with
  | refl => exact ⟨closed, rfl⟩
  | next run step ih =>
    obtain ⟨still, nothing⟩ := step.closed ih.1
    refine ⟨still, ?_⟩
    rw [List.flatMap_append, ih.2, List.flatMap_singleton, nothing, List.append_nil]

end AtomicRun
end Atomic

/-! No wake-up is lost. -/

section Wakeups
variable {ι α : Type} {capacity : Nat}

def Status.Notifies : Status α → Prop
  | .notifiesFull | .notifiesEmpty => True
  | _ => False

def Status.Waits : Status α → Prop
  | .waitsNotFull _ | .waitsNotEmpty => True
  | _ => False

theorem Status.not_waits {x : Status α} (leaves : ¬x.Waits) :
    notFull.waits x = false ∧ notEmpty.waits x = false := by
  cases x with
  | waitsNotFull | waitsNotEmpty => exact absurd trivial leaves
  | idle | pushing | popping | closing | notifiesFull | notifiesEmpty => exact ⟨rfl, rfl⟩

theorem Status.notifies_iff {x : Status α} :
    x.Notifies ↔ x = .notifiesFull ∨ x = .notifiesEmpty := by
  cases x <;> simp [Notifies]

/-- What no step but those of `close` undoes: no new waiter, and the closing threads go on. -/
structure Quiet (threads threads' : ι → Status α) : Prop where
  full : (∃ i, notFull.waits (threads' i) = true) → ∃ i, notFull.waits (threads i) = true
  empty : (∃ i, notEmpty.waits (threads' i) = true) → ∃ i, notEmpty.waits (threads i) = true
  stays : ∀ i, (threads i).Notifies → threads' i = threads i
  closers : ∀ i, (threads' i).Notifies → (threads i).Notifies

/-- While the queue is open, waiters of either side have enough notified threads ahead of them;
once it is closed, a thread that is closing it has yet to notify them. -/
structure Sound [Fintype ι] (capacity : Nat) (s : State ι α) : Prop where
  bounded : s.queue.length ≤ slots capacity
  poppers : s.closed = false → notEmpty.Covered s.queue.length s.threads
  pushers : s.closed = false → notFull.Covered (slots capacity - s.queue.length) s.threads
  closers : ∀ i, (s.threads i).Notifies → s.closed = true
  lastFull : s.closed = true → (∃ i, notFull.waits (s.threads i) = true) →
    ∃ j, s.threads j = .notifiesFull
  lastEmpty : s.closed = true → (∃ i, notEmpty.waits (s.threads i) = true) →
    ∃ j, (s.threads j).Notifies

variable {threads threads' threads'' : ι → Status α}

theorem Quiet.refl (threads : ι → Status α) : Quiet threads threads :=
  ⟨id, id, fun _ _ => rfl, fun _ => id⟩

theorem Quiet.trans (first : Quiet threads threads') (second : Quiet threads' threads'') :
    Quiet threads threads'' where
  full waiting := first.full (second.full waiting)
  empty waiting := first.empty (second.empty waiting)
  stays i closer := by
    have same := first.stays i closer
    rw [second.stays i (same ▸ closer), same]
  closers i closer := first.closers i (second.closers i closer)

theorem Sound.lasts [Fintype ι] {s t : State ι α} (sound : Sound capacity s)
    (quiet : Quiet s.threads t.threads) (same : t.closed = s.closed) :
    (∀ i, (t.threads i).Notifies → t.closed = true) ∧
      (t.closed = true → (∃ i, notFull.waits (t.threads i) = true) →
        ∃ j, t.threads j = .notifiesFull) ∧
      (t.closed = true → (∃ i, notEmpty.waits (t.threads i) = true) →
        ∃ j, (t.threads j).Notifies) := by
  rw [same]
  refine ⟨fun i closer => sound.closers i (quiet.closers i closer), ?_, ?_⟩
  · intro closed waiting
    obtain ⟨j, closer⟩ := sound.lastFull closed (quiet.full waiting)
    exact ⟨j, (quiet.stays j (by rw [closer]; trivial)).trans closer⟩
  · intro closed waiting
    obtain ⟨j, closer⟩ := sound.lastEmpty closed (quiet.empty waiting)
    exact ⟨j, by rwa [quiet.stays j closer]⟩

variable [DecidableEq ι] {i : ι} {x y : Status α}

theorem Quiet.set (here : threads i = x) (before : ¬x.Notifies) (after : ¬y.Notifies)
    (leaves : ¬y.Waits) : Quiet threads (Function.update threads i y) := by
  obtain ⟨full, empty⟩ := y.not_waits leaves
  refine ⟨CondVar.waits_of_update full, CondVar.waits_of_update empty, ?_, ?_⟩
  · intro j closer
    have other : j ≠ i := by
      rintro rfl
      exact before (here ▸ closer)
    exact Function.update_of_ne other y threads
  · intro j closer
    by_cases same : j = i
    · subst same
      rw [Function.update_self] at closer
      exact absurd closer after
    · rwa [Function.update_of_ne same] at closer

theorem Quiet.notifyOneEmpty (notified : notEmpty.NotifyOne threads threads') :
    Quiet threads threads' := by
  cases notified with
  | nobody => exact .refl threads
  | one j y moved =>
    cases here : threads j <;> rw [here] at moved <;> cases moved
    exact .set here id id id

theorem Quiet.notifyOneFull (notified : notFull.NotifyOne threads threads') :
    Quiet threads threads' := by
  cases notified with
  | nobody => exact .refl threads
  | one j y moved =>
    cases here : threads j <;> rw [here] at moved <;> cases moved
    exact .set here id id id

theorem not_notifies_update (none : ∀ j, ¬(threads j).Notifies) (after : ¬y.Notifies) (j : ι) :
    ¬(Function.update threads i y j).Notifies := by
  by_cases same : j = i
  · subst same
    rwa [Function.update_self]
  · rw [Function.update_of_ne same]
    exact none j

variable [Fintype ι] {s t : State ι α} {e : Event ι α}

theorem Sound.move (sound : Sound capacity s) (here : s.threads i = x)
    (before : ¬x.Notifies) (after : ¬y.Notifies) (leaves : ¬y.Waits)
    (fresh : s.closed = false → notFull.notified x = false ∧ notEmpty.notified x = false) :
    Sound capacity (s.set i y) := by
  obtain ⟨full, empty⟩ := y.not_waits leaves
  obtain ⟨closers, lastFull, lastEmpty⟩ :=
    sound.lasts (t := s.set i y) (.set here before after leaves) rfl
  subst here
  exact ⟨sound.bounded, fun isOpen => (sound.poppers isOpen).move (fresh isOpen).2 empty,
    fun isOpen => (sound.pushers isOpen).move (fresh isOpen).1 full, closers, lastFull, lastEmpty⟩

omit [DecidableEq ι] in
theorem Sound.none_notifies (sound : Sound capacity s) (isOpen : s.closed = false) (j : ι) :
    ¬(s.threads j).Notifies := by
  intro closer
  rw [sound.closers j closer] at isOpen
  cases isOpen

omit [DecidableEq ι] in
theorem Sound.of_open (isOpen : t.closed = false) (bounded : t.queue.length ≤ slots capacity)
    (poppers : notEmpty.Covered t.queue.length t.threads)
    (pushers : notFull.Covered (slots capacity - t.queue.length) t.threads)
    (closers : ∀ i, ¬(t.threads i).Notifies) : Sound capacity t where
  bounded := bounded
  poppers _ := poppers
  pushers _ := pushers
  closers i closer := absurd closer (closers i)
  lastFull closed := by rw [isOpen] at closed; cases closed
  lastEmpty closed := by rw [isOpen] at closed; cases closed

theorem Sound.pushWaits (sound : Sound capacity s) {v : α} {b : Bool}
    (here : s.threads i = .pushing v b) (full : ¬s.CanPush capacity) :
    Sound capacity (s.set i (.waitsNotFull v)) := by
  obtain ⟨isOpen, noRoom⟩ := not_or.mp full
  have isOpen := Bool.eq_false_of_not_eq_true isOpen
  refine .of_open isOpen sound.bounded ((sound.poppers isOpen).move (by rw [here]; rfl) rfl) ?_
    (not_notifies_update (sound.none_notifies isOpen) id)
  have nothing : slots capacity - s.queue.length = 0 := by omega
  rw [State.set, nothing]
  exact CondVar.covered_zero _

theorem Sound.popWaits (sound : Sound capacity s) {b : Bool} (here : s.threads i = .popping b)
    (empty : ¬s.CanPop) : Sound capacity (s.set i .waitsNotEmpty) := by
  obtain ⟨isOpen, nothing⟩ := not_or.mp empty
  have isOpen := Bool.eq_false_of_not_eq_true isOpen
  refine .of_open isOpen sound.bounded ?_ ((sound.pushers isOpen).move (by rw [here]; rfl) rfl)
    (not_notifies_update (sound.none_notifies isOpen) id)
  rw [State.set, not_not.mp nothing]
  exact CondVar.covered_zero _

theorem covered_notifyOneEmpty {supply : Nat} (covered : notFull.Covered supply threads)
    (notified : notEmpty.NotifyOne threads threads') : notFull.Covered supply threads' := by
  cases notified with
  | nobody => exact covered
  | one j y moved =>
    cases here : threads j <;> rw [here] at moved <;> cases moved
    exact covered.move (by rw [here]; rfl) rfl

theorem covered_notifyOneFull {supply : Nat} (covered : notEmpty.Covered supply threads)
    (notified : notFull.NotifyOne threads threads') : notEmpty.Covered supply threads' := by
  cases notified with
  | nobody => exact covered
  | one j y moved =>
    cases here : threads j <;> rw [here] at moved <;> cases moved
    exact covered.move (by rw [here]; rfl) rfl

theorem Sound.pushed (sound : Sound capacity s) {v : α} {b : Bool}
    (here : s.threads i = .pushing v b) (room : s.CanPush capacity) (isOpen : s.closed = false)
    (notified : notEmpty.NotifyOne (s.set i .idle).threads threads) :
    Sound capacity { s with queue := s.queue ++ [v], threads := threads } := by
  have room : s.queue.length < slots capacity := room.resolve_left (by simp [isOpen])
  have length : (s.queue ++ [v]).length = s.queue.length + 1 := List.length_append
  have quiet := (Quiet.set (y := .idle) here id id id).trans (.notifyOneEmpty notified)
  refine .of_open isOpen (by rw [length]; exact room) ?_ ?_
    fun j closer => sound.none_notifies isOpen j (quiet.closers j closer)
  · rw [length]
    exact ((sound.poppers isOpen).move (by rw [here]; rfl) rfl).notifyOne notified
  · have supply : slots capacity - s.queue.length = slots capacity - (s.queue.length + 1) + 1 := by
      omega
    have pushers := sound.pushers isOpen
    rw [supply] at pushers
    rw [length]
    exact covered_notifyOneEmpty (pushers.take rfl) notified

theorem Sound.popped (sound : Sound capacity s) {b : Bool} {v : α} {rest : List α}
    (here : s.threads i = .popping b) (front : s.queue = v :: rest)
    (notified : notFull.NotifyOne (s.set i .idle).threads threads) :
    Sound capacity { s with queue := rest, threads := threads } := by
  have length : s.queue.length = rest.length + 1 := by rw [front, List.length_cons]
  have bounded := sound.bounded
  rw [length] at bounded
  have quiet := (Quiet.set (y := .idle) here id id id).trans (.notifyOneFull notified)
  obtain ⟨closers, lastFull, lastEmpty⟩ :=
    sound.lasts (t := { s with queue := rest, threads := threads }) quiet rfl
  refine ⟨(Nat.le_succ _).trans bounded, fun isOpen => ?_, fun isOpen => ?_, closers, lastFull,
    lastEmpty⟩
  · have poppers := sound.poppers isOpen
    rw [length] at poppers
    exact covered_notifyOneFull (poppers.take rfl) notified
  · have supply : slots capacity - rest.length = slots capacity - s.queue.length + 1 := by omega
    rw [supply]
    exact ((sound.pushers isOpen).move (by rw [here]; rfl) rfl).notifyOne notified

theorem Sound.closes (sound : Sound capacity s) :
    Sound capacity { s.set i .notifiesFull with closed := true } where
  bounded := sound.bounded
  poppers isOpen := by cases isOpen
  pushers isOpen := by cases isOpen
  closers _ _ := rfl
  lastFull _ _ := ⟨i, Function.update_self i _ s.threads⟩
  lastEmpty _ _ :=
    ⟨i, (congrArg Status.Notifies (Function.update_self i _ s.threads)).mpr trivial⟩

theorem Sound.notifiesFull (sound : Sound capacity s) (here : s.threads i = .notifiesFull) :
    Sound capacity { s with threads := notFull.notifyAll (s.set i .notifiesEmpty).threads } := by
  have closed : s.closed = true := sound.closers i (by rw [here]; trivial)
  have next : notFull.notifyAll (s.set i .notifiesEmpty).threads i = .notifiesEmpty := by
    have now : (s.set i .notifiesEmpty).threads i = .notifiesEmpty := Function.update_self _ _ _
    rw [CondVar.notifyAll_of_wake_none (by rw [now]; rfl), now]
  refine ⟨sound.bounded, fun isOpen => ?_, fun isOpen => ?_, fun _ _ => closed, ?_, ?_⟩
  · rw [closed] at isOpen
    cases isOpen
  · rw [closed] at isOpen
    cases isOpen
  · rintro - ⟨j, waiting⟩
    rw [CondVar.notifyAll_waits] at waiting
    cases waiting
  · exact fun _ _ => ⟨i, (congrArg Status.Notifies next).mpr trivial⟩

omit [DecidableEq ι] [Fintype ι] in
theorem waits_of_notifyEmpty (x : Status α)
    (waiting : notFull.waits ((notEmpty.wake x).getD x) = true) : notFull.waits x = true := by
  cases x with
  | waitsNotFull => rfl
  | idle | pushing | popping | waitsNotEmpty | closing | notifiesFull | notifiesEmpty =>
    cases waiting

theorem Sound.notifiesEmpty (sound : Sound capacity s) (here : s.threads i = .notifiesEmpty) :
    Sound capacity { s with threads := notEmpty.notifyAll (s.set i .idle).threads } := by
  have closed : s.closed = true := sound.closers i (by rw [here]; trivial)
  refine ⟨sound.bounded, fun isOpen => ?_, fun isOpen => ?_, fun _ _ => closed, ?_, ?_⟩
  · rw [closed] at isOpen
    cases isOpen
  · rw [closed] at isOpen
    cases isOpen
  · rintro - ⟨j, waiting⟩
    have before : notFull.waits ((s.set i .idle).threads j) = true :=
      waits_of_notifyEmpty _ waiting
    obtain ⟨k, closer⟩ := sound.lastFull closed (CondVar.waits_of_update rfl ⟨j, before⟩)
    have other : k ≠ i := by
      rintro rfl
      rw [here] at closer
      cases closer
    have now : (s.set i .idle).threads k = .notifiesFull :=
      (Function.update_of_ne other _ _).trans closer
    exact ⟨k, (CondVar.notifyAll_of_wake_none (by rw [now]; rfl)).trans now⟩
  · rintro - ⟨j, waiting⟩
    rw [CondVar.notifyAll_waits] at waiting
    cases waiting

theorem Sound.step (sound : Sound capacity s) (step : Step capacity s e t) :
    Sound capacity t := by
  cases step with
  | callPush v here => exact sound.move here id id id fun _ => ⟨rfl, rfl⟩
  | callPop here => exact sound.move here id id id fun _ => ⟨rfl, rfl⟩
  | callClose here => exact sound.move here id id id fun _ => ⟨rfl, rfl⟩
  | wakesInPush here => exact sound.move here id id id fun _ => ⟨rfl, rfl⟩
  | wakesInPop here => exact sound.move here id id id fun _ => ⟨rfl, rfl⟩
  | closesAgain here closed => exact sound.move here id id id fun _ => ⟨rfl, rfl⟩
  | pushRefused here closed =>
    refine sound.move here id id id fun isOpen => ?_
    rw [closed] at isOpen
    cases isOpen
  | popNothing here returns empty =>
    refine sound.move here id id id fun isOpen => ?_
    rcases returns with closed | more
    · rw [closed] at isOpen
      cases isOpen
    · exact absurd empty more
  | pushWaits here full => exact sound.pushWaits here full
  | popWaits here empty => exact sound.popWaits here empty
  | pushed here room isOpen notified => exact sound.pushed here room isOpen notified
  | popped here front notified => exact sound.popped here front notified
  | closes => exact sound.closes
  | notifiesFull here => exact sound.notifiesFull here
  | notifiesEmpty here => exact sound.notifiesEmpty here

omit [DecidableEq ι] in
theorem Sound.initial (capacity : Nat) : Sound capacity (initial ι α) where
  bounded := Nat.zero_le _
  poppers _ := CondVar.covered_zero _
  pushers _ := by rintro ⟨_, ⟨⟩⟩
  closers _ closer := by cases closer
  lastFull closed := by cases closed
  lastEmpty closed := by cases closed

theorem Run.sound {events : List (Event ι α)} (run : Run capacity s events t)
    (sound : Sound capacity s) : Sound capacity t := by
  induction run with
  | refl => exact sound
  | next _ step ih => exact ih.step step

omit [DecidableEq ι] in
/-- A waiting thread whose predicate holds is covered by a notified thread or by `close`. -/
theorem Sound.notFull_waiter (sound : Sound capacity s) {v : α}
    (waiting : s.threads i = .waitsNotFull v) (ready : s.CanPush capacity) :
    (∃ j w, s.threads j = .pushing w true) ∨ ∃ j, s.threads j = .notifiesFull := by
  have waits : notFull.waits (s.threads i) = true := by rw [waiting]; rfl
  cases closed : s.closed with
  | true => exact Or.inr (sound.lastFull closed ⟨i, waits⟩)
  | false =>
    have room := ready.resolve_left (by simp [closed])
    obtain ⟨j, notified⟩ := (sound.pushers closed).exists_notified waits (Nat.sub_pos_of_lt room)
    cases status : s.threads j <;> rw [status] at notified <;> cases notified
    exact Or.inl ⟨j, _, status⟩

omit [DecidableEq ι] in
theorem Sound.notEmpty_waiter (sound : Sound capacity s)
    (waiting : s.threads i = .waitsNotEmpty) (ready : s.CanPop) :
    (∃ j, s.threads j = .popping true) ∨
      ∃ j, s.threads j = .notifiesFull ∨ s.threads j = .notifiesEmpty := by
  have waits : notEmpty.waits (s.threads i) = true := by rw [waiting]; rfl
  cases closed : s.closed with
  | true =>
    obtain ⟨j, closer⟩ := sound.lastEmpty closed ⟨i, waits⟩
    exact Or.inr ⟨j, Status.notifies_iff.mp closer⟩
  | false =>
    have more := ready.resolve_left (by simp [closed])
    obtain ⟨j, notified⟩ :=
      (sound.poppers closed).exists_notified waits (List.length_pos_iff.mpr more)
    cases status : s.threads j <;> rw [status] at notified <;> cases notified
    exact Or.inl ⟨j, status⟩

end Wakeups

section Closed
variable {ι α : Type} [DecidableEq ι] {capacity : Nat} {s : State ι α} {i : ι} {b : Bool}

theorem Step.push_closed {v : α} (closed : s.closed = true) (here : s.threads i = .pushing v b) :
    (∃ t, Step capacity s (.push i v false) t) ∧
      ∀ e t, Step capacity s e t → e.thread = i → e = .push i v false := by
  refine ⟨⟨_, .pushRefused here closed⟩, ?_⟩
  rintro e t step rfl
  cases step with
  | pushRefused now =>
    rw [Event.thread, now] at here
    cases here
    rfl
  | pushWaits now full => exact absurd (Or.inl closed) full
  | pushed now room isOpen => rw [closed] at isOpen; cases isOpen
  | callPush _ now | callPop now | callClose now | popWaits now | popNothing now | popped now
  | closes now | closesAgain now | notifiesFull now | notifiesEmpty now | wakesInPush now
  | wakesInPop now => rw [Event.thread, now] at here; cases here

theorem Step.pop_closed (closed : s.closed = true) (here : s.threads i = .popping b) :
    (∃ t, Step capacity s (.pop i s.queue.head?) t) ∧
      ∀ e t, Step capacity s e t → e.thread = i → e = .pop i s.queue.head? := by
  constructor
  · cases front : s.queue with
    | nil => exact ⟨_, .popNothing here (Or.inl closed) front⟩
    | cons v rest =>
      obtain ⟨threads, notified⟩ := notFull.exists_notifyOne (s.set i .idle).threads
      exact ⟨_, .popped here front notified⟩
  · rintro e t step rfl
    cases step with
    | popNothing now returns empty => rw [empty]; rfl
    | popped now front => rw [front]; rfl
    | popWaits now empty => exact absurd (Or.inl closed) empty
    | callPush _ now | callPop now | callClose now | pushWaits now | pushRefused now | pushed now
    | closes now | closesAgain now | notifiesFull now | notifiesEmpty now | wakesInPush now
    | wakesInPop now => rw [Event.thread, now] at here; cases here

end Closed

theorem slots_eq (capacity : Nat) : slots capacity = max capacity 1 := by
  unfold slots
  split <;> omega

theorem workQueue_correct {ι α : Type} [Fintype ι] [DecidableEq ι] (capacity : Nat)
    (events : List (Event ι α)) (s : State ι α)
    (run : Run capacity (initial ι α) events s) :
    (events.flatMap Event.popped ++ s.queue = events.flatMap Event.accepted ∧
      s.queue.length ≤ max capacity 1) ∧
    (s.closed = true →
      (∀ i v b, s.threads i = .pushing v b → (∃ t, Step capacity s (.push i v false) t) ∧
        ∀ e t, Step capacity s e t → e.thread = i → e = .push i v false) ∧
      (∀ i b, s.threads i = .popping b → (∃ t, Step capacity s (.pop i s.queue.head?) t) ∧
        ∀ e t, Step capacity s e t → e.thread = i → e = .pop i s.queue.head?) ∧
      ∀ later t, Run capacity s later t → t.closed = true ∧
        later.flatMap Event.accepted = [] ∧ later.flatMap Event.popped ++ t.queue = s.queue) ∧
    (∀ i v, s.threads i = .waitsNotFull v → s.CanPush capacity →
      (∃ j w, s.threads j = .pushing w true) ∨ ∃ j, s.threads j = .notifiesFull) ∧
    ∀ i, s.threads i = .waitsNotEmpty → s.CanPop →
      (∃ j, s.threads j = .popping true) ∨
        ∃ j, s.threads j = .notifiesFull ∨ s.threads j = .notifiesEmpty := by
  have sound := run.sound (.initial capacity)
  refine ⟨⟨run.atomic.fifo, by rw [← slots_eq]; exact sound.bounded⟩, fun closed => ⟨?_, ?_, ?_⟩,
    fun _ _ => sound.notFull_waiter, fun _ => sound.notEmpty_waiter⟩
  · exact fun _ _ _ here => Step.push_closed closed here
  · exact fun _ _ here => Step.pop_closed closed here
  · intro later t after
    obtain ⟨still, nothing⟩ := after.atomic.closed closed
    have fifo := after.atomic.fifo
    rw [nothing, List.append_nil] at fifo
    exact ⟨still, nothing, fifo⟩

def handover : List (Event Bool Nat) :=
  [.silent true, .silent true, .silent false, .push false 7 true]

theorem handover_run : ∃ s, Run 1 (initial Bool Nat) handover s ∧ s.queue = [7] := by
  have start : Run 1 (initial Bool Nat) [] (initial Bool Nat) := .refl
  have calls := start.next (.callPop (i := true) rfl)
  have empty : ¬((initial Bool Nat).set true (.popping false)).CanPop := by
    rintro (closed | more)
    · cases closed
    · exact more rfl
  have waits := calls.next (Step.popWaits (i := true) rfl empty)
  have pushes := waits.next (Step.callPush (i := false) 7 rfl)
  have handed := pushes.next (Step.pushed (i := false) rfl (Or.inr Nat.one_pos) rfl
    (.one true _ rfl))
  exact ⟨_, handed, rfl⟩

theorem workQueue_correct_handover : ∃ s, Run 1 (initial Bool Nat) handover s ∧
    handover.flatMap Event.popped ++ s.queue = handover.flatMap Event.accepted ∧
    s.queue.length ≤ max 1 1 := by
  obtain ⟨s, run, -⟩ := handover_run
  exact ⟨s, run, (workQueue_correct 1 handover s run).1⟩

end Bseal.Pipeline.WorkQueue
