import Bseal.Archive.PathSanitizer
import Bseal.Lib.Effect
import Bseal.Lib.FileTree
import Mathlib.Data.List.TakeWhile

/-! The POSIX calls under `archive/`, over a file tree, and what the standard library makes of
them. A call sees a path up to its first NUL. Every call may fail, and is counted. -/
namespace Bseal.Archive
open Effect FileTree

def IsFileName (n : Bytes) : Prop :=
  n ≠ [] ∧ n ≠ dot ∧ n ≠ dotDot ∧ (0 : Byte) ∉ n ∧ slash ∉ n

instance (n : Bytes) : Decidable (IsFileName n) := inferInstanceAs (Decidable (_ ∧ _))

abbrev FileName := { n : Bytes // IsFileName n }

structure Attributes where
  mode : Option UInt32
  modified : Option Int64
  deriving DecidableEq

def Attributes.fresh : Attributes := ⟨none, none⟩

abbrev DiskNode := Node Bytes Attributes Bytes
abbrev DiskTree := Tree FileName Bytes Attributes Bytes

/-- The bytes of a C string. -/
def cutNul (text : Bytes) : Bytes := text.takeWhile (· ≠ 0)

theorem zero_notMem_cutNul (text : Bytes) : (0 : Byte) ∉ cutNul text := by
  intro here
  simpa using List.mem_takeWhile_imp here

theorem cutNul_of_notMem {text : Bytes} (clean : (0 : Byte) ∉ text) : cutNul text = text := by
  rw [cutNul, List.takeWhile_eq_self_iff]
  intro b hb
  have : b ≠ 0 := fun zero => clean (zero ▸ hb)
  simpa using this

def toStep (component : Bytes) : Step FileName :=
  if name : IsFileName (cutNul component) then .name ⟨cutNul component, name⟩
  else if cutNul component = dotDot then .up
  else .self

/-- The steps of a path. A component with a NUL is cut there and is the last one. -/
def osSteps : OutPath → List (Step FileName)
  | [] => []
  | c :: cs => toStep c :: if (0 : Byte) ∈ c then [] else osSteps cs

def readTarget (target : Bytes) : Bool × List (Step FileName) :=
  (target.head? = some slash, (splitSlash target).map toStep)

def enoent : String := "No such file or directory"
def eexist : String := "File exists"
def enotdir : String := "Not a directory"
def eisdir : String := "Is a directory"
def eloop : String := "Too many levels of symbolic links"

/-- `MAXSYMLINKS` of the kernel. -/
def kMaxSymlinks : Nat := 40

def below (T : List FileName) (names : OutPath) : OutPath := T.map Subtype.val ++ names

section Lookup
variable {κ α : Type} (t : Tree FileName κ α Bytes)

def lookup (follow : Bool) (path : OutPath) : Outcome FileName :=
  resolve readTarget t follow kMaxSymlinks [] (osSteps path)

inductive FileStatus where
  | directory
  | other
  | notFound
  | unknown
  deriving DecidableEq

def statusOf (path : OutPath) : FileStatus :=
  match lookup t true path with
  | .found p => if t.IsDir p then .directory else .other
  | .missing _ _ | .notFound => .notFound
  | .failed => .unknown

/-- `lexically_normal` of an absolute path. -/
def lexicallyNormal (path : OutPath) : OutPath :=
  let names := path.foldl (fun names c =>
    if c = dot ∨ c = [] then names
    else if c = dotDot then names.dropLast
    else names ++ [c]) []
  match path.getLast? with
  | some last =>
    if (last = dot ∨ last = [] ∨ last = dotDot) ∧ names ≠ [] then names ++ [[]] else names
  | none => names

def leadingComponents (front : OutPath) : OutPath → Except String (OutPath × OutPath)
  | [] => .ok (front, [])
  | c :: cs =>
    match statusOf t (front ++ [c]) with
    | .directory | .other => leadingComponents (front ++ [c]) cs
    | .notFound => .ok (front, c :: cs)
    | .unknown => .error eloop

/-- `weakly_canonical`: the physical path of what is there, else of its leading part. -/
def weaklyCanonical (path : OutPath) : Except String OutPath :=
  match lookup t true path with
  | .found p => .ok (below p [])
  | .failed => .error eloop
  | .missing _ _ | .notFound =>
    match leadingComponents t [] path with
    | .error message => .error message
    | .ok (front, rest) =>
      match lookup t true front with
      | .found p => .ok (lexicallyNormal (below p rest))
      | _ => .error enoent

/-- `lexically_relative` of two canonical paths. -/
def lexicallyRelative : OutPath → OutPath → OutPath
  | [], [] => [dot]
  | path, [] => path
  | [], base => List.replicate base.length dotDot
  | c :: cs, b :: bs =>
    if c = b then lexicallyRelative cs bs
    else List.replicate (b :: bs).length dotDot ++ c :: cs

/-- `std::filesystem::relative`. -/
def relativeTo (path base : OutPath) : Except String OutPath :=
  match weaklyCanonical t path with
  | .error message => .error message
  | .ok p =>
    match weaklyCanonical t base with
    | .error message => .error message
    | .ok b => .ok (lexicallyRelative p b)

end Lookup

section Physical
theorem cutNul_fileName (n : FileName) : cutNul n.1 = n.1 := cutNul_of_notMem n.2.2.2.2.1

theorem toStep_fileName (n : FileName) : toStep n.1 = .name n := by
  have name : IsFileName (cutNul n.1) := by
    rw [cutNul_fileName]
    exact n.2
  rw [toStep, dif_pos name]
  exact congrArg Step.name (Subtype.ext (cutNul_fileName n))

theorem osSteps_append_names (t : List FileName) (names : OutPath) :
    osSteps (t.map Subtype.val ++ names) = t.map .name ++ osSteps names := by
  induction t with
  | nil => rfl
  | cons n t ih =>
    rw [List.map_cons, List.cons_append, osSteps, if_neg n.2.2.2.2.1, toStep_fileName, ih]
    rfl

variable {κ α : Type} {T : List FileName}

theorem lookup_below (t : Tree FileName κ α Bytes) (root : t.IsDir T) (follow : Bool)
    (names : OutPath) :
    lookup t follow (below T names) =
      resolve readTarget t follow kMaxSymlinks T (osSteps names) := by
  unfold lookup below
  rw [osSteps_append_names, resolve_names readTarget t follow _ [] T (osSteps names) root,
    List.nil_append]

theorem lookup_leads (t : Tree FileName κ α Bytes) (root : t.IsDir T) (follow : Bool)
    (names : OutPath) :
    Leads readTarget t follow T (osSteps names) (lookup t follow (below T names)) := by
  rw [lookup_below t root]
  exact resolve_leads readTarget t follow _ T _

theorem below_child (root : List FileName) (n : FileName) :
    below (root ++ [n]) [] = below root [n.1] := by
  rw [below, below, List.map_append, List.append_nil]
  rfl

theorem lookup_child {t : Tree FileName κ α Bytes} {root : List FileName}
    (dir : t.IsDir root) (n : FileName) :
    lookup t false (below root [n.1]) =
      if t.node (root ++ [n]) = none then .missing root n else .found (root ++ [n]) := by
  have steps : osSteps [n.1] = [.name n] := by
    rw [osSteps, toStep_fileName, if_neg n.2.2.2.2.1]
    rfl
  rw [lookup_below t dir, steps]
  change walk readTarget t false _ root [.name n] = _
  rw [walk]
  rcases here : t.node (root ++ [n]) with _ | _ | _ | _ <;> rfl

end Physical

/-- The calls that fail, with their messages, and how much of a failing write gets through. -/
structure Host where
  faults : Nat → Option String
  written : Nat → Nat

/-- The tree, the file behind the output stream, and the objects that were created, truncated,
written or changed so far. -/
structure FileSystem where
  tree : DiskTree
  stream : Option (List FileName)
  streamGood : Bool
  touched : List (List FileName)
  attempts : Nat

namespace FileSystem

def tick (w : FileSystem) : FileSystem := { w with attempts := w.attempts + 1 }

def create (w : FileSystem) (d : List FileName) (n : FileName) (x : DiskNode) : FileSystem :=
  { w with tree := w.tree.put d n x, touched := w.touched ++ [d ++ [n]] }

def change (w : FileSystem) (p : List FileName) (f : DiskNode → DiskNode)
    (keeps : ∀ x, (f x).isDir = x.isDir) : FileSystem :=
  { w with tree := w.tree.modify p f keeps, touched := w.touched ++ [p] }

end FileSystem

def setContent (f : Bytes → Bytes) : DiskNode → DiskNode
  | .file a content => .file a (f content)
  | x => x

theorem setContent_isDir (f : Bytes → Bytes) (x : DiskNode) :
    (setContent f x).isDir = x.isDir := by
  cases x <;> rfl

def setAttributes (f : Attributes → Attributes) : DiskNode → DiskNode
  | .file a content => .file (f a) content
  | .dir a => .dir (f a)
  | x => x

theorem setAttributes_isDir (f : Attributes → Attributes) (x : DiskNode) :
    (setAttributes f x).isDir = x.isDir := by
  cases x <;> rfl

namespace FileSystem
variable (host : Host)

def call {α : Type} (act : Effect String FileSystem α) : Effect String FileSystem α := do
  let w ← get
  set w.tick
  match host.faults w.attempts with
  | some message => throw message
  | none => act

def status (path : OutPath) : Effect String FileSystem FileStatus := do
  let w ← get
  set w.tick
  match host.faults w.attempts with
  | some _ => pure .unknown
  | none => pure (statusOf w.tree path)

def mkdir (path : OutPath) : Effect String FileSystem Bool :=
  call host do
    let w ← get
    match lookup w.tree false path with
    | .missing d n => do
      set (w.create d n (.dir .fresh))
      pure true
    | .found _ => pure false
    | .notFound => throw enoent
    | .failed => throw eloop

/-- `std::filesystem::create_directory`: a directory that is there already will do. -/
def createDirectory (path : OutPath) : Effect String FileSystem Unit := do
  let created ← mkdir host path
  if created then pure ()
  else do
    let st ← status host path
    throwIf (st ≠ .directory) eexist

/-- The missing part of a path, last component first: the walk up to what is there, and the
directories on the way back. -/
def createMissing : List Bytes → Effect String FileSystem Unit
  | [] => pure ()
  | component :: up => do
    let st ← status host up.reverse
    match st with
    | .other => throw enotdir
    | .notFound => createMissing up
    | .directory | .unknown => pure ()
    if component = dot ∨ component = dotDot then pure ()
    else createDirectory host (component :: up).reverse

/-- Dots at the end are passed over. Where nothing is left to make, what the library does is
undefined, and an error here. -/
def createBehindDots : List Bytes → Effect String FileSystem Unit
  | [] => throw enoent
  | component :: up =>
    if component = dot ∨ component = dotDot then do
      let st ← status host up.reverse
      match st with
      | .notFound => createBehindDots up
      | .other => throw enotdir
      | .directory | .unknown => throw enoent
    else createMissing host (component :: up)

/-- `std::filesystem::create_directories`; a trailing slash goes. -/
def createDirectories (path : OutPath) : Effect String FileSystem Unit := do
  let st ← status host path
  match st with
  | .directory => pure ()
  | .other => throw enotdir
  | .unknown => throw eloop
  | .notFound =>
    createBehindDots host (if path.getLast? = some [] then path.dropLast else path).reverse

/-- `ofstream::open` with `trunc`: `O_CREAT | O_TRUNC`. -/
def openFile (path : OutPath) : Effect String FileSystem Unit :=
  call host do
    let w ← get
    match lookup w.tree true path with
    | .missing d n =>
      let made := w.create d n (.file .fresh [])
      set { made with stream := some (d ++ [n]), streamGood := true }
    | .found p => do
      throwIf (w.tree.IsDir p) eisdir
      let emptied := w.change p (setContent fun _ => []) (setContent_isDir _)
      set { emptied with stream := some p, streamGood := true }
    | .notFound => throw enoent
    | .failed => throw eloop

/-- A stream that has failed once writes no more. -/
def writeFile (bytes : Bytes) : Effect Unit FileSystem Unit := do
  let w ← get
  match w.stream, w.streamGood with
  | some p, true =>
    match host.faults w.attempts with
    | none => set (w.tick.change p (setContent (· ++ bytes)) (setContent_isDir _))
    | some _ => do
      let front := bytes.take (host.written w.attempts)
      let cut := w.tick.change p (setContent (· ++ front)) (setContent_isDir _)
      set { cut with streamGood := false }
      throw ()
  | _, _ => throw ()

def closeFile : Effect Unit FileSystem Unit := do
  let w ← get
  set { w.tick with stream := none }
  throwIf (w.stream = none ∨ w.streamGood = false ∨ (host.faults w.attempts).isSome) ()

/-- `chmod` and `utimes` follow links. -/
def changeAttributes (path : OutPath) (f : Attributes → Attributes) :
    Effect String FileSystem Unit :=
  call host do
    let w ← get
    match lookup w.tree true path with
    | .found p => set (w.change p (setAttributes f) (setAttributes_isDir f))
    | .missing _ _ | .notFound => throw enoent
    | .failed => throw eloop

def symlink (target : Bytes) (path : OutPath) : Effect String FileSystem Unit :=
  call host do
    throwIf (cutNul target = []) enoent
    let w ← get
    match lookup w.tree false path with
    | .missing d n => set (w.create d n (.link (cutNul target)))
    | .found _ => throw eexist
    | .notFound => throw enoent
    | .failed => throw eloop

end FileSystem
end Bseal.Archive
