import Bseal.Common.Errors

/-! `archive/PathSanitizer` over POSIX path texts. Iterating over a
`std::filesystem::path` yields the components below: the root directory first, no
empty component in the middle, and a last empty component after a trailing slash. -/
namespace Bseal.Archive

def slash : Byte := 0x2f
def dot : Bytes := ascii "."
def dotDot : Bytes := ascii ".."

/-- The segments between slashes, empty ones included. -/
def splitSlash : Bytes → List Bytes
  | [] => [[]]
  | b :: bs =>
    if b = slash then [] :: splitSlash bs
    else match splitSlash bs with
      | [] => [[b]]
      | seg :: segs => (b :: seg) :: segs

/-- The file names of a path: empty segments vanish, except a last one after some name. -/
def fileNames : List Bytes → List Bytes
  | [] => []
  | [last] => [last]
  | seg :: segs => if seg.isEmpty then fileNames segs else seg :: fileNames segs

def pathComponents (path : Bytes) : List Bytes :=
  if path.head? = some slash then
    match fileNames (splitSlash path) with
    | [last] => if last.isEmpty then [[slash]] else [[slash], last]
    | names => [slash] :: names
  else if path.isEmpty then []
  else fileNames (splitSlash path)

/-- `path::generic_string`: the components with one slash between names. -/
def genericString (path : Bytes) : Bytes :=
  match pathComponents path with
  | [] => []
  | root :: names =>
    if root = [slash] then root ++ [slash].intercalate names
    else [slash].intercalate (root :: names)

def isAlpha (b : Byte) : Bool := (0x41 ≤ b && b ≤ 0x5a) || (0x61 ≤ b && b ≤ 0x7a)

def backslash : Byte := 0x5c

/-- Windows drive letters and UNC prefixes, which POSIX does not take for absolute paths. -/
def hasWindowsRoot : Bytes → Bool
  | c0 :: c1 :: _ => (isAlpha c0 && c1 == 0x3a) || (c0 == backslash && c1 == backslash)
  | _ => false

def isSafeRelativePath (path : Bytes) : Bool :=
  !path.isEmpty && path.head? ≠ some slash && !hasWindowsRoot (genericString path) &&
    (pathComponents path).all fun part => part ≠ dotDot && !part.isEmpty

/-- An absolute path as its component names; a last empty name is a trailing slash. -/
abbrev OutPath := List Bytes

def OutPath.parent (path : OutPath) : OutPath := path.dropLast

def OutPath.string (path : OutPath) : String := text (slash :: [slash].intercalate path)

/-- `lexically_normal` of a path without `..`: the dots go, a last one leaves its slash. -/
def normalNames (names : List Bytes) : List Bytes :=
  names.filter (· ≠ dot) ++ if names.getLast? = some dot then [[]] else []

def makeSafeOutputPath (outputRoot : OutPath) (archivePath : Bytes) : Result OutPath :=
  if isSafeRelativePath archivePath then
    .ok (outputRoot ++ normalNames (pathComponents archivePath))
  else .error (.invalidArgument "unsafe archive path rejected during extraction")

end Bseal.Archive
