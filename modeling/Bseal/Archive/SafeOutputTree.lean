import Bseal.Archive.LexicalPaths
import Bseal.Archive.ReaderLifetime

/-! `archive/SafeOutputTree` on a POSIX host: the backend over directory descriptors and the
portable one. A descriptor is the physical path of its directory. Queries are truthful; a call
that changes something may fail. -/
namespace Bseal.Archive
open Effect FileTree

def ebusy : String := "Device or resource busy"
def einval : String := "Invalid argument"
def enotempty : String := "Directory not empty"

namespace OutPath

/-- `path::filename`; nothing for an empty path. -/
def filename (path : OutPath) : Bytes := path.getLast?.getD []

/-- The path that the system reads, without a slash at its end. -/
def bare (path : OutPath) : OutPath :=
  if (cutNames path).getLast? = some [] then (cutNames path).dropLast else cutNames path

/-- The last step of the path that the system reads; none for the root directory. -/
def lastStep (path : OutPath) : Option (FileTree.Step FileName) := path.bare.getLast?.map toStep

def named (path : OutPath) : Bool :=
  match path.lastStep with
  | some (.name _) => true
  | _ => false

end OutPath

def entryAt (cur : List FileName) (name : Bytes) : List FileName :=
  match toStep name with
  | .name n => cur ++ [n]
  | .up => cur.dropLast
  | .self => cur

def statAt (t : DiskTree) (cur : List FileName) (name : Bytes) : Option DiskNode :=
  if cutNul name = [] then none else t.node (entryAt cur name)

/-- `rename` of what is at `p` to the name `n` in the directory `d`. A directory in place is one
that `create_directories` has just made: it is empty, and gives way to another. -/
def renamed (t : DiskTree) (p d : List FileName) (n : FileName) : Except String DiskTree :=
  match t.node p with
  | none => .error enoent
  | some x =>
    if p = d ++ [n] then .ok t
    else if p <+: d then .error einval
    else if d ++ [n] <+: p then .error enotempty
    else match t.node (d ++ [n]) with
      | none => .ok (t.move p d n)
      | some y =>
        if x.isDir = y.isDir then .ok (t.move p d n)
        else .error (if y.isDir then eisdir else enotdir)

namespace FileSystem
variable (host : Host)

/-- Another tree, in which the objects at `places` were removed or moved. -/
def setTree (w : FileSystem) (t : DiskTree) (places : List (List FileName)) : FileSystem :=
  { w with tree := t, touched := w.touched ++ places }

/-- `open` with `O_DIRECTORY`, and where it leads. -/
def openRoot (path : OutPath) : Effect String FileSystem (List FileName) :=
  call host do
    let w ← get
    match lookup w.tree true path with
    | .found p => do
      throwIf (¬w.tree.IsDir p) enotdir
      pure p
    | .missing _ _ | .notFound => throw enoent
    | .failed => throw eloop

/-- `mkdirat`, for which what is there already is no error. -/
def mkdirAt (cur : List FileName) (name : Bytes) : Effect String FileSystem Unit :=
  call host do
    throwIf (cutNul name = []) enoent
    let w ← get
    match toStep name with
    | .name n =>
      if w.tree.node (cur ++ [n]) = none then set (w.create cur n (.dir .fresh)) else pure ()
    | .up | .self => pure ()

def unlinkAt (cur : List FileName) (name : Bytes) : Effect String FileSystem Unit :=
  call host do
    let w ← get
    match statAt w.tree cur name with
    | none => throw enoent
    | some x => do
      throwIf x.isDir eisdir
      let p := entryAt cur name
      set (w.setTree (w.tree.erase p) [p])

/-- `renameat` from a path into a directory. -/
def renameAt (src : List FileName) (cur : List FileName) (name : Bytes) :
    Effect String FileSystem Unit :=
  call host do
    let w ← get
    match lookup w.tree false (below src []) with
    | .found p =>
      match toStep name with
      | .name n => do
        let t ← lift (renamed w.tree p cur n)
        set (w.setTree t [p, cur ++ [n]])
      | .up | .self => throw (if cutNul name = [] then enoent else ebusy)
    | .missing _ _ | .notFound => throw enoent
    | .failed => throw eloop

/-- `std::filesystem::rename`. It takes a slash at the end for a directory only. -/
def rename (src : List FileName) (dest : OutPath) : Effect String FileSystem Unit :=
  call host do
    let w ← get
    match lookup w.tree false (below src []) with
    | .found p => do
      throwIf (dest.bare ≠ cutNames dest ∧ ¬w.tree.IsDir p) enotdir
      match lookup w.tree false dest.bare with
      | .missing d n => do
        let t ← lift (renamed w.tree p d n)
        set (w.setTree t [p, d ++ [n]])
      | .found q =>
        match q.getLast? with
        | some n => do
          throwIf (dest.named = false) ebusy
          let t ← lift (renamed w.tree p q.dropLast n)
          set (w.setTree t [p, q])
        | none => throw ebusy
      | .notFound => throw enoent
      | .failed => throw eloop
    | .missing _ _ | .notFound => throw enoent
    | .failed => throw eloop

/-- `std::filesystem::remove_all`, which follows no last link, and `remove` of a link. What the
path leads to is removed, or only emptied where it has no name to go by: behind dots, or behind a
slash that has followed a link. -/
def removeAllAt (path : OutPath) : Effect String FileSystem Unit :=
  call host do
    let w ← get
    match lookup w.tree false path with
    | .found p =>
      if path.named ∧ lookup w.tree false path.bare = .found p then
        set (w.setTree (w.tree.erase p) [p])
      else do
        let emptied := w.tree.clear p
        set (w.setTree emptied [])
        match path.lastStep with
        | some (.name _) => throw enotdir
        -- a `..` out of what was removed leads nowhere any more, which is no error
        | some .up => throwIf (lookup emptied false path = .found p) enotempty
        | some .self => throw einval
        | none => throw ebusy
    | .missing _ _ | .notFound => pure ()
    | .failed => throw eloop

def probe : Effect String FileSystem Unit := call host (pure ())

end FileSystem

structure SafeOutputTree where
  rootPath : OutPath
  rootFd : Option (List FileName)

section Backends
variable (host : Host)

def hardened (message : String) : String := "hardened extraction: " ++ message

def makeSafeOutputTree (root : OutPath) (mode : HardenedExtractMode) :
    Effect Failure FileSystem SafeOutputTree := do
  let w ← get
  let rootPath := match weaklyCanonical w.tree root with
    | .ok canonical => canonical
    | .error _ => root
  if mode ≠ .off then do
    let fd ← fsCall (hardened ("cannot open output root '" ++ root.string ++ "': "))
      (FileSystem.openRoot host root)
    pure ⟨rootPath, some fd⟩
  else pure ⟨rootPath, none⟩

/-- One round of the loop of `open_dir_hardened`. -/
def openComponent (cur : List FileName) (name : Bytes) :
    Effect Failure FileSystem (List FileName) := do
  let called (call : String) := hardened (call ++ "('" ++ text name ++ "'): ")
  fsCall (called "mkdirat") (FileSystem.mkdirAt host cur name)
  fsCall (called "fstatat") (FileSystem.probe host)
  let w ← get
  match statAt w.tree cur name with
  | none => throw (invalid (called "fstatat" ++ enoent))
  | some (.link _) => throw (invalid (hardened ("symlink at path component '" ++ text name ++
      "'; aborting to prevent path escape outside output root")))
  | some (.file _ _) => throw (invalid (hardened ("expected directory at '" ++ text name ++
      "' but found a non-directory entry")))
  | some (.dir _) => do
    fsCall (called "openat") (FileSystem.probe host)
    pure (entryAt cur name)

def openComponents (cur : List FileName) : OutPath → Effect Failure FileSystem (List FileName)
  | [] => pure cur
  | name :: rest =>
    if name = [] ∨ name = dot then openComponents cur rest
    else if name = dotDot then throw (invalid (hardened "'..' path component rejected"))
    else do
      let next ← openComponent host cur name
      openComponents next rest

def openDirHardened (rootFd : List FileName) (relDirPath : OutPath) :
    Effect Failure FileSystem (List FileName) := do
  fsCall (hardened "dup(root_fd) failed: ") (FileSystem.probe host)
  openComponents host rootFd relDirPath

def ensureDirs (tree : SafeOutputTree) (relDirPath : OutPath) : Effect Failure FileSystem Unit :=
  if relDirPath = [] then pure ()
  else match tree.rootFd with
    | some fd => do
      let _ ← openDirHardened host fd relDirPath
      pure ()
    | none => fsCall "cannot create directory: "
        (FileSystem.createDirectories host (tree.rootPath ++ relDirPath))

/-- `rename_into` with the descriptor of the root. -/
def renameIntoHardened (rootPath : OutPath) (rootFd : List FileName) (srcAbs : List FileName)
    (destRel : OutPath) (overwrite : Bool) : Effect Failure FileSystem Unit := do
  let destName := destRel.filename
  let parentFd ← openDirHardened host rootFd destRel.parent
  let w ← get
  match statAt w.tree parentFd destName with
  | none => pure ()
  | some x => do
    throwIf (¬overwrite) (invalid ("output path already exists: " ++ (rootPath ++ destRel).string))
    throwIf x.isDir (invalid
      (hardened ("cannot replace existing directory: " ++ (rootPath ++ destRel).string)))
    fsCall (hardened ("unlinkat('" ++ text destName ++ "'): "))
      (FileSystem.unlinkAt host parentFd destName)
  fsCall (hardened ("renameat('" ++ text destName ++ "'): "))
    (FileSystem.renameAt host srcAbs parentFd destName)

/-- What is in the way of the portable backend goes, or is refused. -/
def clearDestination (dest : OutPath) (overwrite : Bool) : Effect Failure FileSystem Unit := do
  let w ← get
  if present w.tree dest then do
    throwIf (¬overwrite) (invalid ("output path already exists: " ++ dest.string))
    fsCall "cannot remove existing output path: " (FileSystem.removeAllAt host dest)
  else pure ()

/-- The guard against a link that leads outside: `*rel.begin() == ".."`. It passes where there
is no canonical path. -/
def escapesRoot (t : DiskTree) (rootPath parent : OutPath) : Bool :=
  match weaklyCanonical t parent with
  | .ok realParent => (lexicallyRelative realParent rootPath).head? = some dotDot
  | .error _ => false

def promoteTo (rootPath : OutPath) (srcAbs : List FileName) (dest : OutPath) :
    Effect Failure FileSystem Unit := do
  fsCall "cannot create parent directory: " (FileSystem.createDirectories host dest.parent)
  let w ← get
  throwIf (escapesRoot w.tree rootPath dest.parent = true)
    (invalid ("output path escapes output root via symlink: " ++ dest.string))
  fsCall "cannot promote temporary output file: " (FileSystem.rename host srcAbs dest)

/-- `rename_into` without a descriptor. -/
def renameIntoPortable (rootPath : OutPath) (srcAbs : List FileName) (destRel : OutPath)
    (overwrite : Bool) : Effect Failure FileSystem Unit := do
  clearDestination host (rootPath ++ destRel) overwrite
  promoteTo host rootPath srcAbs (rootPath ++ destRel)

def renameInto (tree : SafeOutputTree) (srcAbs : List FileName) (destRel : OutPath)
    (overwrite : Bool) : Effect Failure FileSystem Unit :=
  match tree.rootFd with
  | some fd => renameIntoHardened host tree.rootPath fd srcAbs destRel overwrite
  | none => renameIntoPortable host tree.rootPath srcAbs destRel overwrite

end Backends
end Bseal.Archive
