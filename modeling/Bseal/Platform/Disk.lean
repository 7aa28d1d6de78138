import Bseal.Common.Errors
import Mathlib.Logic.Function.Basic

/-! The regular files a component works on, as a map from paths to contents. Every
file operation may fail, and a failed one leaves the files as they were; the operations
that took place are kept in order. -/
namespace Bseal.Platform

inductive DurabilityMode where
  | off
  | bestEffort
  | on
  deriving DecidableEq, Repr

abbrev Files := Bytes → Option Bytes

inductive DiskOp where
  | createDirectories (dir : Bytes)
  | create (path : Bytes)
  | append (path bytes : Bytes)
  | reopen (path : Bytes)
  | patch (path : Bytes) (offset : Nat) (bytes : Bytes)
  | remove (path : Bytes)
  | openReadonly (path : Bytes)
  | fsync (path : Bytes)
  deriving DecidableEq, Repr

/-- Write `bytes` over `content` from `offset` on; a gap is filled with zeros. -/
def overwrite (content : Bytes) (offset : Nat) (bytes : Bytes) : Bytes :=
  (content ++ List.replicate (offset - content.length) 0).take offset ++ bytes ++
    content.drop (offset + bytes.length)

theorem overwrite_middle (front old back new : Bytes) (same : new.length = old.length) :
    overwrite (front ++ old ++ back) front.length new = front ++ new ++ back := by
  unfold overwrite
  rw [Nat.sub_eq_zero_of_le (by simp only [List.length_append]; omega), List.replicate_zero,
    List.append_nil, List.append_assoc front old back, List.take_left' rfl, same,
    ← List.length_append, ← List.append_assoc front old back, List.drop_left' rfl]

def DiskOp.apply (files : Files) : DiskOp → Files
  | .create path => Function.update files path (some [])
  | .append path bytes => Function.update files path ((files path).map (· ++ bytes))
  | .patch path offset bytes =>
    Function.update files path ((files path).map fun content => overwrite content offset bytes)
  | .remove path => Function.update files path none
  | .createDirectories _ | .reopen _ | .openReadonly _ | .fsync _ => files

/-- The system a run meets: the names its generator draws, and the error text of each
operation that fails. -/
structure System where
  names : Nat → Bytes
  faults : Nat → Option String

structure Disk where
  files : Files
  log : List DiskOp
  attempts : Nat
  drawn : Nat

/-- What may be on the disk once the streams are closed. `close()` and the destructors flush what
is still buffered and nobody asks how that ended, so it is known only where nothing fails. -/
def System.Leaves (sys : System) (disk : Disk) (files : Files) : Prop :=
  (∀ k, sys.faults k = none) → files = disk.files

namespace Disk
variable (sys : System)

/-- Reopening needs the file to be there. -/
def fault (disk : Disk) (op : DiskOp) : Option String :=
  match op with
  | .reopen path => if disk.files path = none then some "No such file or directory"
    else sys.faults disk.attempts
  | _ => sys.faults disk.attempts

def done (disk : Disk) (op : DiskOp) : Disk :=
  { disk with
    files := op.apply disk.files
    log := disk.log ++ [op]
    attempts := disk.attempts + 1 }

def failed (disk : Disk) : Disk := { disk with attempts := disk.attempts + 1 }

def draw (disk : Disk) : Disk := { disk with drawn := disk.drawn + 1 }

def Faulted (disk : Disk) : Prop := ∃ k < disk.attempts, (sys.faults k).isSome

@[simp] theorem done_files (disk : Disk) (op : DiskOp) :
    (disk.done op).files = op.apply disk.files := rfl

theorem failed_faulted (disk : Disk) (op : DiskOp) (there : ∀ path, op = .reopen path →
    disk.files path ≠ none) (fault : (disk.fault sys op).isSome) : disk.failed.Faulted sys := by
  refine ⟨disk.attempts, Nat.lt_succ_self _, ?_⟩
  cases op with
  | reopen path =>
    simp only [Disk.fault] at fault
    rwa [if_neg (there path rfl)] at fault
  | _ => exact fault

theorem files_append (disk : Disk) (path bytes content : Bytes)
    (here : disk.files path = some content) :
    (disk.done (.append path bytes)).files =
      Function.update disk.files path (some (content ++ bytes)) := by
  rw [done_files, DiskOp.apply, here]
  rfl

theorem files_append_append (disk : Disk) (path content a b : Bytes)
    (here : disk.files path = some content) :
    ((disk.done (.append path a)).done (.append path b)).files =
      Function.update disk.files path (some (content ++ a ++ b)) := by
  have first := disk.files_append path a content here
  have there : (disk.done (.append path a)).files path = some (content ++ a) := by
    rw [first, Function.update_self]
  rw [files_append _ path b _ there, first, Function.update_idem]

theorem files_create_append (disk : Disk) (path a b : Bytes) :
    (((disk.done (.create path)).done (.append path a)).done (.append path b)).files =
      Function.update disk.files path (some (a ++ b)) := by
  have created : (disk.done (.create path)).files path = some [] := Function.update_self ..
  rw [files_append_append _ path [] a b created, List.nil_append, done_files, DiskOp.apply,
    Function.update_idem]

theorem files_patch (disk : Disk) (path front old back new : Bytes)
    (here : disk.files path = some (front ++ old ++ back)) (same : new.length = old.length) :
    (disk.done (.patch path front.length new)).files =
      Function.update disk.files path (some (front ++ new ++ back)) := by
  rw [done_files, DiskOp.apply, here, Option.map_some, overwrite_middle front old back new same]

end Disk
end Bseal.Platform
