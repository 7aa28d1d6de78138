import Bseal.Archive.OutputContainment

/-! `commit_temp_tree` of `archive/ArchiveReader`, one entry of the temporary tree after the
other. The listing comes from the system, in any order that has shallow entries first. -/
namespace Bseal.Archive
open Effect FileTree Platform

/-- The flush hooks that are set. They look at the disk and may throw. -/
structure DurabilityHooks where
  flushFile : Option (OutPath → DurabilityMode → FileSystem → Result Unit)
  flushDir : Option (OutPath → DurabilityMode → FileSystem → Result Unit)

def flushWith (hook : Option (OutPath → DurabilityMode → FileSystem → Result Unit))
    (mode : DurabilityMode) (path : OutPath) : Effect Failure FileSystem Unit :=
  match hook with
  | some flush =>
    if mode ≠ .off then do
      let w ← get
      lift (flush path mode w)
    else pure ()
  | none => pure ()

def isSymlink (t : DiskTree) (path : OutPath) : Bool :=
  match lookup t false path with
  | .found p => (t.node p).any Node.isLink
  | _ => false

/-- `is_directory`, which follows links, and not `is_symlink`. -/
def isPlainDirectory (t : DiskTree) (path : OutPath) : Bool :=
  statusOf t path = .directory && !isSymlink t path

section Commit
variable (host : Host) (hooks : DurabilityHooks) (options : ArchiveReaderOptions)
  (tempRoot : OutPath)

def commitEntry (safeTree : SafeOutputTree) (src : List FileName) :
    Effect Failure FileSystem Unit := do
  let w ← get
  match relativeTo w.tree (below src []) tempRoot with
  | .error message => throw (invalid ("cannot compute temporary relative path: " ++ message))
  | .ok rel =>
    if isPlainDirectory w.tree (below src []) then ensureDirs host safeTree rel
    else do
      renameInto host safeTree src rel options.overwriteExisting
      flushWith hooks.flushFile options.durabilityMode (options.outputRoot ++ rel)

def commitEntries (safeTree : SafeOutputTree) : List (List FileName) →
    Effect Failure FileSystem Unit
  | [] => pure ()
  | src :: paths => do
    commitEntry host hooks options tempRoot safeTree src
    commitEntries safeTree paths

/-- `paths` is what `recursive_directory_iterator` found, sorted. -/
def commitTempTree (paths : List (List FileName)) : Effect Failure FileSystem Unit := do
  let safeTree ← makeSafeOutputTree host options.outputRoot options.hardenedExtractMode
  commitEntries host hooks options tempRoot safeTree paths
  flushWith hooks.flushDir options.durabilityMode options.outputRoot

end Commit

/-- Every entry below the temporary root once, by depth. The order within a depth is open: the
iterator has none and the sort is not stable. -/
structure Listing (t : DiskTree) (temp : List FileName) (paths : List (List FileName)) : Prop where
  nodup : paths.Nodup
  entries : ∀ p, p ∈ paths ↔ ∃ names, names ≠ [] ∧ p = temp ++ names ∧ t.node p ≠ none
  sorted : paths.Pairwise fun a b => a.length ≤ b.length

end Bseal.Archive
