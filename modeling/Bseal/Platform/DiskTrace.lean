import Bseal.Platform.Disk
import Mathlib.Data.List.Induction

/-! What the operations that took place mean for the files: the state behind each of them, the
files they have created and left, and when they stay off all others. -/
namespace Bseal.Platform

def replayOps (files : Files) (ops : List DiskOp) : Files := ops.foldl DiskOp.apply files

def DiskOp.leaves (own : List Bytes) : DiskOp → List Bytes
  | .create path => path :: own
  | .remove path => own.filter (· ≠ path)
  | _ => own

/-- The files that these operations created and did not remove. -/
def leftOver (ops : List DiskOp) : List Bytes := ops.foldl DiskOp.leaves []

/-- The operation creates a new file or works on one of `own`. -/
def DiskOp.Respects (files : Files) (own : List Bytes) : DiskOp → Prop
  | .create path => files path = none
  | .append path _ | .patch path _ _ | .reopen path | .remove path => path ∈ own
  | .createDirectories _ | .openReadonly _ | .fsync _ => True

/-- Every operation works on a file that an earlier one created, or creates a new one. -/
def Respect (files : Files) (own : List Bytes) : List DiskOp → Prop
  | [] => True
  | op :: ops => op.Respects files own ∧ Respect (op.apply files) (op.leaves own) ops

theorem replayOps_concat (files : Files) (ops : List DiskOp) (op : DiskOp) :
    replayOps files (ops ++ [op]) = op.apply (replayOps files ops) := by
  rw [replayOps, List.foldl_append]
  rfl

theorem leftOver_concat (ops : List DiskOp) (op : DiskOp) :
    leftOver (ops ++ [op]) = op.leaves (leftOver ops) := by
  rw [leftOver, List.foldl_append]
  rfl

theorem respect_concat (files : Files) (own : List Bytes) (ops : List DiskOp) (op : DiskOp) :
    Respect files own (ops ++ [op]) ↔
      Respect files own ops ∧ op.Respects (replayOps files ops) (ops.foldl DiskOp.leaves own) := by
  induction ops generalizing files own with
  | nil => simp [Respect, replayOps]
  | cons first ops ih =>
    rw [List.cons_append, Respect, Respect, ih, and_assoc]
    rfl

structure Owned (start files : Files) (own : List Bytes) : Prop where
  outside : ∀ path ∉ own, files path = start path
  inside : ∀ path ∈ own, start path = none ∧ files path ≠ none

def DiskOp.target : DiskOp → Option Bytes
  | .create path | .append path _ | .patch path _ _ | .remove path => some path
  | .createDirectories _ | .reopen _ | .openReadonly _ | .fsync _ => none

theorem DiskOp.apply_of_ne {op : DiskOp} {path : Bytes} (files : Files)
    (other : op.target ≠ some path) : op.apply files path = files path := by
  have differs (p : Bytes) (names : op.target = some p) : path ≠ p :=
    fun same => other (same ▸ names)
  cases op with
  | create p => exact Function.update_of_ne (differs p rfl) _ _
  | append p b => exact Function.update_of_ne (differs p rfl) _ _
  | patch p o b => exact Function.update_of_ne (differs p rfl) _ _
  | remove p => exact Function.update_of_ne (differs p rfl) _ _
  | createDirectories _ => rfl
  | reopen _ => rfl
  | openReadonly _ => rfl
  | fsync _ => rfl

theorem replayOps_of_ne {ops : List DiskOp} {path : Bytes} (files : Files)
    (others : ∀ op ∈ ops, op.target ≠ some path) : replayOps files ops path = files path := by
  induction ops generalizing files with
  | nil => rfl
  | cons op ops ih =>
    obtain ⟨first, rest⟩ := List.forall_mem_cons.mp others
    exact (ih (op.apply files) rest).trans (DiskOp.apply_of_ne files first)

def DiskOp.Edits (op : DiskOp) : Prop := ∀ own, op.leaves own = own

theorem overwrite_length (content : Bytes) (offset : Nat) (bytes : Bytes) :
    (overwrite content offset bytes).length = max content.length (offset + bytes.length) := by
  unfold overwrite
  simp only [List.length_append, List.length_take, List.length_drop, List.length_replicate]
  omega

theorem DiskOp.grows (op : DiskOp) (edits : op.Edits) {files : Files} {path content : Bytes}
    (here : files path = some content) :
    ∃ grown, op.apply files path = some grown ∧ content.length ≤ grown.length := by
  by_cases same : op.target = some path
  · cases op with
    | create p => exact absurd (congrArg List.length (edits [])) (by simp [DiskOp.leaves])
    | append p b =>
      cases same
      exact ⟨content ++ b, by rw [DiskOp.apply, Function.update_self, here]; rfl, by simp⟩
    | patch p o b =>
      cases same
      refine ⟨overwrite content o b, by rw [DiskOp.apply, Function.update_self, here]; rfl, ?_⟩
      rw [overwrite_length]
      exact Nat.le_max_left _ _
    | remove p => exact absurd (edits [p]) (by simp [DiskOp.leaves])
    | createDirectories _ => cases same
    | reopen _ => cases same
    | openReadonly _ => cases same
    | fsync _ => cases same
  · exact ⟨content, by rw [DiskOp.apply_of_ne files same, here], le_rfl⟩

theorem Owned.update {start files : Files} {own : List Bytes} (owned : Owned start files own)
    {path : Bytes} (member : path ∈ own) (f : Bytes → Bytes) :
    Owned start (Function.update files path ((files path).map f)) own := by
  constructor
  · intro other absent
    rw [Function.update_of_ne (fun same : other = path => absent (same ▸ member))]
    exact owned.outside other absent
  · intro other inside
    refine ⟨(owned.inside other inside).1, ?_⟩
    by_cases same : other = path
    · rw [same, Function.update_self]
      simpa using (owned.inside path member).2
    · rw [Function.update_of_ne same]
      exact (owned.inside other inside).2

theorem DiskOp.Respects.congr {op : DiskOp} {files : Files} {own own' : List Bytes}
    (respects : op.Respects files own) (same : ∀ path, path ∈ own → path ∈ own') :
    op.Respects files own' := by
  cases op with
  | create path => exact respects
  | append path _ => exact same path respects
  | patch path _ _ => exact same path respects
  | reopen path => exact same path respects
  | remove path => exact same path respects
  | createDirectories _ => trivial
  | openReadonly _ => trivial
  | fsync _ => trivial

/-- One operation that respects the others' files keeps it so. -/
theorem Owned.apply {start files : Files} {own : List Bytes} (owned : Owned start files own)
    {op : DiskOp} (respects : op.Respects files own) :
    Owned start (op.apply files) (op.leaves own) := by
  cases op with
  | create path =>
    have fresh : path ∉ own := fun member => (owned.inside path member).2 respects
    constructor
    · intro other absent
      rw [DiskOp.leaves, List.mem_cons, not_or] at absent
      rw [DiskOp.apply, Function.update_of_ne absent.1]
      exact owned.outside other absent.2
    · intro other inside
      rcases List.mem_cons.mp inside with rfl | inside
      · rw [DiskOp.apply, Function.update_self]
        exact ⟨(owned.outside other fresh).symm.trans respects, by simp⟩
      · rw [DiskOp.apply, Function.update_of_ne (fun same : other = path => fresh (same ▸ inside))]
        exact owned.inside other inside
  | append path bytes => exact owned.update respects _
  | patch path offset bytes => exact owned.update respects _
  | remove path =>
    constructor
    · intro other absent
      by_cases same : other = path
      · rw [same, DiskOp.apply, Function.update_self]
        exact (owned.inside path respects).1.symm
      · rw [DiskOp.apply, Function.update_of_ne same]
        refine owned.outside other fun member => absent ?_
        exact List.mem_filter.mpr ⟨member, decide_eq_true same⟩
    · intro other inside
      obtain ⟨member, differs⟩ := List.mem_filter.mp inside
      rw [DiskOp.apply, Function.update_of_ne (of_decide_eq_true differs)]
      exact owned.inside other member
  | createDirectories _ => exact owned
  | reopen _ => exact owned
  | openReadonly _ => exact owned
  | fsync _ => exact owned

theorem Respect.owned {start : Files} {ops : List DiskOp} (respect : Respect start [] ops) :
    Owned start (replayOps start ops) (leftOver ops) := by
  induction ops using List.reverseRecOn with
  | nil => exact ⟨fun _ _ => rfl, fun _ member => absurd member List.not_mem_nil⟩
  | append_singleton ops op ih =>
    obtain ⟨before, last⟩ := (respect_concat _ _ _ _).mp respect
    rw [replayOps_concat, leftOver_concat]
    exact (ih before).apply last

/-- From `start`, the operations `ops` have led to this disk; `P` held of the files behind each
of them, and they have stayed off the files they did not create. -/
structure Ran (P : Files → Prop) (start disk : Disk) (ops : List DiskOp) : Prop where
  log : disk.log = start.log ++ ops
  files : disk.files = replayOps start.files ops
  throughout : ∀ k, P (replayOps start.files (ops.take k))
  respect : Respect start.files [] ops

section Ran
variable {P : Files → Prop} {start disk : Disk} {ops : List DiskOp}

theorem ran_refl (here : P start.files) : Ran P start start [] :=
  ⟨(List.append_nil _).symm, rfl, fun k => by rw [List.take_nil]; exact here, trivial⟩

theorem Ran.done (ran : Ran P start disk ops) (op : DiskOp) (here : P (op.apply disk.files))
    (respects : op.Respects disk.files (leftOver ops)) :
    Ran P start (disk.done op) (ops ++ [op]) := by
  refine ⟨?_, ?_, ?_, ?_⟩
  · rw [← List.append_assoc, ← ran.log]
    rfl
  · rw [replayOps_concat, ← ran.files]
    rfl
  · intro k
    by_cases before : k ≤ ops.length
    · rw [List.take_append_of_le_length before]
      exact ran.throughout k
    · rw [List.take_of_length_le (by rw [List.length_append, List.length_singleton]; omega),
        replayOps_concat, ← ran.files]
      exact here
  · rw [respect_concat, ← ran.files]
    exact ⟨ran.respect, respects⟩

theorem Ran.failed (ran : Ran P start disk ops) : Ran P start disk.failed ops :=
  ⟨ran.log, ran.files, ran.throughout, ran.respect⟩

theorem Ran.draw (ran : Ran P start disk ops) : Ran P start disk.draw ops :=
  ⟨ran.log, ran.files, ran.throughout, ran.respect⟩

theorem Ran.owned (ran : Ran P start disk ops) : Owned start.files disk.files (leftOver ops) := by
  rw [ran.files]
  exact ran.respect.owned

end Ran
end Bseal.Platform
