import Mathlib.Algebra.BigOperators.Group.Finset.Basic
import Mathlib.Data.Fintype.BigOperators

/-! Threads that wait on condition variables. The wait set of a variable is the set of threads
whose status says so; `notify_one` moves one of them on, `notify_all` every one. A wake-up is
not lost when each unit of what the threads wait for has a notified thread that will look. -/
namespace Threads
variable {ι σ : Type}

theorem sum_update [Fintype ι] [DecidableEq ι] {M : Type} [AddCommMonoid M] (f : ι → σ) (i : ι)
    (x : σ)
    (m : σ → M) : ∑ j, m (Function.update f i x j) + m (f i) = ∑ j, m (f j) + m x := by
  rw [← Finset.add_sum_erase _ _ (Finset.mem_univ i),
    ← Finset.add_sum_erase _ (fun j => m (f j)) (Finset.mem_univ i), Function.update_self]
  have rest : ∑ j ∈ Finset.univ.erase i, m (Function.update f i x j) =
      ∑ j ∈ Finset.univ.erase i, m (f j) :=
    Finset.sum_congr rfl fun j hj => by rw [Function.update_of_ne (Finset.ne_of_mem_erase hj)]
  rw [rest, add_right_comm (m x), add_right_comm (m (f i)), add_comm (m x)]

/-- What a condition variable is to the statuses of the threads: `wake` moves a thread of the
wait set on and is `none` on every other thread. -/
structure CondVar (σ : Type) where
  wake : σ → Option σ
  notified : σ → Bool
  wake_wake : ∀ x y, wake x = some y → wake y = none
  wake_notified : ∀ x y, wake x = some y → notified y = true
  waits_notified : ∀ x, (wake x).isSome = true → notified x = false

namespace CondVar
variable (cv : CondVar σ)

def waits (x : σ) : Bool := (cv.wake x).isSome

/-- `notify_one`: any thread of the wait set, or nothing when it is empty. -/
inductive NotifyOne [DecidableEq ι] (threads : ι → σ) : (ι → σ) → Prop
  | one (i : ι) (x : σ) (waiting : cv.wake (threads i) = some x) :
      NotifyOne threads (Function.update threads i x)
  | nobody (empty : ∀ i, cv.wake (threads i) = none) : NotifyOne threads threads

theorem exists_notifyOne [DecidableEq ι] (threads : ι → σ) :
    ∃ threads', cv.NotifyOne threads threads' := by
  by_cases waiter : ∃ i x, cv.wake (threads i) = some x
  · obtain ⟨i, x, waiting⟩ := waiter
    exact ⟨_, .one i x waiting⟩
  · refine ⟨threads, .nobody fun i => Option.eq_none_iff_forall_ne_some.mpr fun x waiting => ?_⟩
    exact waiter ⟨i, x, waiting⟩

def notifyAll (threads : ι → σ) : ι → σ := fun i => (cv.wake (threads i)).getD (threads i)

variable {cv} in
theorem waits_of_update [DecidableEq ι] {threads : ι → σ} {i : ι} {x : σ}
    (stays : cv.waits x = false)
    (waiting : ∃ j, cv.waits (Function.update threads i x j) = true) :
    ∃ j, cv.waits (threads j) = true := by
  obtain ⟨j, waiting⟩ := waiting
  by_cases same : j = i
  · subst same
    rw [Function.update_self, stays] at waiting
    cases waiting
  · rw [Function.update_of_ne same] at waiting
    exact ⟨j, waiting⟩

section Covered
variable [Fintype ι]

/-- The threads that a notification has moved on and that have not looked yet. -/
def pending (threads : ι → σ) : Nat := ∑ i, (cv.notified (threads i)).toNat

/-- While some thread waits, each unit of the supply has a notified thread. -/
def Covered (supply : Nat) (threads : ι → σ) : Prop :=
  (∃ i, cv.waits (threads i) = true) → supply ≤ cv.pending threads

variable {cv} {threads threads' : ι → σ} {supply : Nat} {i : ι} {x : σ}

theorem exists_notified (pending : 0 < cv.pending threads) :
    ∃ i, cv.notified (threads i) = true := by
  by_contra nobody
  push Not at nobody
  have zero : cv.pending threads = 0 := by
    refine Finset.sum_eq_zero fun i _ => ?_
    rw [Bool.eq_false_of_not_eq_true (nobody i)]
    rfl
  omega

theorem covered_zero (threads : ι → σ) : cv.Covered 0 threads := fun _ => Nat.zero_le _

theorem Covered.exists_notified (covered : cv.Covered supply threads)
    (waiting : cv.waits (threads i) = true) (available : 0 < supply) :
    ∃ j, cv.notified (threads j) = true :=
  CondVar.exists_notified (available.trans_le (covered ⟨i, waiting⟩))

variable [DecidableEq ι]

variable (cv) in
theorem pending_update (threads : ι → σ) (i : ι) (x : σ) :
    cv.pending (Function.update threads i x) + (cv.notified (threads i)).toNat =
      cv.pending threads + (cv.notified x).toNat :=
  sum_update threads i x fun y => (cv.notified y).toNat

theorem Covered.move (covered : cv.Covered supply threads)
    (before : cv.notified (threads i) = false) (after : cv.waits x = false) :
    cv.Covered supply (Function.update threads i x) := by
  intro waiting
  have enough := covered (waits_of_update after waiting)
  have counts := cv.pending_update threads i x
  rw [before, Bool.toNat_false] at counts
  omega

theorem Covered.take (covered : cv.Covered (supply + 1) threads) (after : cv.waits x = false) :
    cv.Covered supply (Function.update threads i x) := by
  intro waiting
  have enough := covered (waits_of_update after waiting)
  have counts := cv.pending_update threads i x
  have := Bool.toNat_le (cv.notified (threads i))
  omega

theorem Covered.notifyOne (covered : cv.Covered supply threads)
    (notified : cv.NotifyOne threads threads') : cv.Covered (supply + 1) threads' := by
  intro waiting
  cases notified with
  | one i x moved =>
    have before := cv.waits_notified (threads i) (Option.isSome_of_eq_some moved)
    have counts := cv.pending_update threads i x
    have enough := covered ⟨i, Option.isSome_of_eq_some moved⟩
    rw [before, cv.wake_notified _ _ moved, Bool.toNat_false, Bool.toNat_true] at counts
    omega
  | nobody empty =>
    obtain ⟨j, waiting⟩ := waiting
    rw [waits, empty j] at waiting
    cases waiting

end Covered

variable {cv} {threads : ι → σ}

theorem notifyAll_waits (i : ι) : cv.waits (cv.notifyAll threads i) = false := by
  unfold notifyAll waits
  cases moved : cv.wake (threads i) with
  | none => rw [Option.getD_none, moved, Option.isSome_none]
  | some x => rw [Option.getD_some, cv.wake_wake _ _ moved, Option.isSome_none]

theorem notifyAll_of_wake_none {i : ι} (stays : cv.wake (threads i) = none) :
    cv.notifyAll threads i = threads i := by
  rw [notifyAll, stays, Option.getD_none]

end CondVar
end Threads
