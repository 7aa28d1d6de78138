import Bseal.Archive.ArchiveGrammar
import Bseal.Archive.Containment

/-! Where the links of an extraction lead. The sanitizer reads a link's target whole, the system
up to its first NUL: `..` can hide in front of one. -/
namespace Bseal.Archive
open Effect FileTree Platform

def FileSystem.start (t : DiskTree) : FileSystem := ⟨t, none, false, [], 0⟩

section Run
variable (host : Host) (options : ArchiveReaderOptions) (T : List FileName)

/-- The reader after a sequence of `process_record` calls, those that threw among them. -/
def afterRecords : List ArchiveRecord → Extraction FileSystem → Extraction FileSystem
  | [], e => e
  | record :: records, e =>
    afterRecords records (exec (processRecord (diskOps host) options (below T []) record) e).2

/-- Nothing outside `T` has changed or was acted on, and every link in `T` resolves inside. -/
structure ActsInside (before : DiskTree) (w : FileSystem) : Prop where
  frame : Tree.SameOutside T before w.tree
  touched : ∀ p ∈ w.touched, T <+: p
  links : ∀ p target, T <+: p → w.tree.node p = some (.link target) →
    (resolve readTarget w.tree true kMaxSymlinks [] (p.map .name)).Within T

variable {T}

theorem up_notMem_names (p : List FileName) : Step.up ∉ p.map Step.name := by
  intro up
  obtain ⟨n, -, same⟩ := List.mem_map.mp up
  cases same

theorem Confined.actsInside {base : DiskTree} {w : FileSystem} (c : Confined T base w) :
    ActsInside T base w where
  frame := c.frame
  touched := c.touched
  links := by
    rintro p target ⟨rest, rfl⟩ -
    rw [List.map_append, resolve_names readTarget w.tree true _ [] T _ c.root]
    exact (resolve_leads readTarget w.tree true _ T _).within c.links (List.prefix_refl T)
      (up_notMem_names rest)

theorem confined_start {t : DiskTree} (dir : t.IsDir T)
    (empty : ∀ p, T <+: p → p ≠ T → t.node p = none) : Confined T t (.start t) where
  frame := .refl t T
  root := dir
  links := by
    intro p target under link
    change t.node p = _ at link
    by_cases same : p = T
    · obtain ⟨a, here⟩ := dir
      rw [same, here] at link
      cases link
    · rw [empty p under same] at link
      cases link
  touched := fun _ member => absurd member List.not_mem_nil
  stream := fun _ opened => by cases opened

theorem Guarded.afterRecords {base : DiskTree} {e : Extraction FileSystem}
    (g : Guarded T base e) (records : List ArchiveRecord)
    (clean : ∀ record ∈ records, CleanRecord options record) :
    Guarded T base (afterRecords host options T records e) := by
  induction records generalizing e with
  | nil => exact g
  | cons record records ih =>
    refine ih ?_ fun r member => clean r (List.mem_cons_of_mem _ member)
    exact (g.processRecord host options record (clean record List.mem_cons_self)).final

/-- From an empty temporary directory, records whose accepted link targets have no `..` in front
of a NUL keep everything inside it. -/
theorem records_act_inside (t : DiskTree) (dir : t.IsDir T)
    (empty : ∀ p, T <+: p → p ≠ T → t.node p = none) (records : List ArchiveRecord)
    (clean : ∀ record ∈ records, CleanRecord options record) :
    ActsInside T t (afterRecords host options T records (.initial (.start t))).world := by
  have start : Guarded T t (.initial (.start t)) :=
    ⟨confined_start dir empty, fun opened => by cases opened⟩
  exact (start.afterRecords host options records clean).world.actsInside

end Run

def outName : FileName := ⟨ascii "out", by decide⟩
def tmpName : FileName := ⟨ascii "tmp", by decide⟩
theorem isFileName_a : IsFileName (ascii "a") := by decide

def aName : FileName := ⟨ascii "a", isFileName_a⟩

def outTree : DiskTree :=
  ((Tree.empty Attributes.fresh).put [] outName (.dir .fresh)).put [outName] tmpName (.dir .fresh)

def quietHost : Host := ⟨fun _ => none, fun _ => 0⟩

def linkNamed (name : String) (target : Bytes) : EntryMetadata :=
  ⟨.symlink, ascii name, 0, 0, ⟨0, none, none⟩, target⟩

def linkToDirectory : List ArchiveRecord :=
  [beginRecord, ⟨.directoryEntry, encodeEntryMetadata (entryNamed .directory "d")⟩,
    ⟨.symlinkEntry, encodeEntryMetadata (linkNamed "l" (ascii "d"))⟩,
    ⟨.fileEntry, encodeEntryMetadata (entryNamed .regularFile "l/a")⟩, ⟨.fileEnd, []⟩]

theorem outTree_isDir : outTree.IsDir [outName, tmpName] := ⟨.fresh, by decide⟩

theorem outTree_below (p : List FileName) (under : [outName, tmpName] <+: p)
    (other : p ≠ [outName, tmpName]) : outTree.node p = none := by
  have root : p ≠ [] := fun none => absurd (none ▸ under) (by decide)
  have out : p ≠ [outName] := fun single => absurd (single ▸ under) (by decide)
  unfold outTree
  rw [Tree.put_node_of_ne _ _ other, Tree.put_node_of_ne _ _ out]
  cases p with
  | nil => exact absurd rfl root
  | cons => rfl

theorem records_act_inside_linkToDirectory :
    ActsInside [outName, tmpName] outTree (afterRecords quietHost linksOptions
      [outName, tmpName] linkToDirectory (.initial (.start outTree))).world := by
  refine records_act_inside quietHost linksOptions outTree outTree_isDir outTree_below _ ?_
  intro record member kind m parsed
  have link : parseEntryMetadata (encodeEntryMetadata (linkNamed "l" (ascii "d"))) =
      .ok (linkNamed "l" (ascii "d")) :=
    (parseEntryMetadata_ok _ _).mpr ⟨⟨by decide, by decide, by decide, by decide, by decide⟩, rfl⟩
  simp only [linkToDirectory, List.mem_cons, List.not_mem_nil, or_false] at member
  rcases member with rfl | rfl | rfl | rfl | rfl
  · cases kind
  · cases kind
  · rw [link] at parsed
    cases parsed
    exact fun _ _ => by decide
  · cases kind
  · cases kind

def hiddenUp : List ArchiveRecord :=
  [beginRecord, ⟨.symlinkEntry, encodeEntryMetadata (linkNamed "l" (dotDot ++ [0]))⟩,
    ⟨.fileEntry, encodeEntryMetadata (entryNamed .regularFile "l/a")⟩, ⟨.fileEnd, []⟩]

theorem hiddenUp_escapes :
    (exec (processRecords (diskOps quietHost) linksOptions (below [outName, tmpName] []) hiddenUp)
      (.initial (.start outTree))).1 = .ok () ∧
    ¬ActsInside [outName, tmpName] outTree (afterRecords quietHost linksOptions
      [outName, tmpName] hiddenUp (.initial (.start outTree))).world := by
  constructor
  · have accepted : (exec (processRecords (diskOps quietHost) linksOptions
        (below [outName, tmpName] []) hiddenUp) (.initial (.start outTree))).1.isOk = true := by
      decide +kernel
    rcases outcome : (exec (processRecords (diskOps quietHost) linksOptions
        (below [outName, tmpName] []) hiddenUp) (.initial (.start outTree))).1 with e | u
    · rw [outcome] at accepted
      cases accepted
    · rfl
  · intro inside
    have written : [outName, aName] ∈ (afterRecords quietHost linksOptions
        [outName, tmpName] hiddenUp (.initial (.start outTree))).world.touched := by
      decide +kernel
    exact absurd (inside.touched _ written) (by decide)

end Bseal.Archive
