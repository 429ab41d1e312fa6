/-!
# Paths

A path is a text with slashes.  Two paths are the same if they have the same
components: repeated slashes, slashes at the end and single dots inside do not
count, a single dot at the beginning does.  Paths are ordered component by
component, so that a directory comes before everything whose name merely begins
like it.
-/

namespace SmaliFlow

/-- One component of a path. -/
inductive Component where
  | root
  | current
  | parent
  | name (text : String)
  deriving DecidableEq, Repr

namespace Component

/--
The component that a piece between slashes stands for, past the first piece.
-/
def ofPiece? (piece : String) : Option Component :=
  if piece = "" || piece = "." then
    none
  else if piece = ".." then
    some .parent
  else
    some (.name piece)

/-- A key whose order is the order of components. -/
def key : Component → List Nat
  | .root => [0]
  | .current => [1]
  | .parent => [2]
  | .name text => 3 :: text.toList.map Char.toNat

end Component

namespace Path

/--
The pieces between slashes; the letters of the piece being read are kept in
reverse.
-/
def piecesFrom : (text piece : List Char) → List String
  | [], piece => [String.ofList piece.reverse]
  | '/' :: text, piece => String.ofList piece.reverse :: piecesFrom text []
  | letter :: text, piece => piecesFrom text (letter :: piece)

/-- The pieces between the slashes of a path, of which there is at least one. -/
def pieces (path : String) : List String :=
  piecesFrom path.toList []

/-- Whether a path begins with a slash. -/
def isAbsolute (path : String) : Bool :=
  path.toList.head? == some '/'

/-- The components of a path. -/
def components (path : String) : List Component :=
  let first :=
    if isAbsolute path then
      [Component.root]
    else if (pieces path).head? == some "." then
      [Component.current]
    else
      []
  first ++ (pieces path).filterMap Component.ofPiece?

/-- What tells paths apart and puts them in order. -/
abbrev Key := List (List Nat)

/-- The key of a path. -/
def key (path : String) : Key :=
  (components path).map Component.key

/-- Whether a path comes before another one or is the same. -/
def atMost (left right : String) : Bool :=
  (compare (key left) (key right)).isLE

/-- Whether the components of `ending` are the last ones of a path. -/
def endsWith (path ending : String) : Bool :=
  (components ending).isSuffixOf (components path)

/-- How many octets a name may have. -/
def nameLimit : Nat :=
  255

/-- How many octets a path may have. -/
def lengthLimit : Nat :=
  4095

/-- Whether a path has too many octets to be looked up. -/
def isTooLong (path : String) : Bool :=
  lengthLimit < path.utf8ByteSize

/-- Whether a path ends with a slash, and so can only stand for a directory. -/
def isDirectoryPath (path : String) : Bool :=
  path.toList.getLast? == some '/'

/-- The path of an entry of a directory. -/
def join (directory name : String) : String :=
  if isDirectoryPath directory then
    directory ++ name
  else
    directory ++ "/" ++ name

/--
The letters after the last dot of a file name that does not begin with it.
-/
def extension? (name : String) : Option String :=
  let letters := name.toList.reverse
  match letters.dropWhile (· != '.') with
  | _ :: _ :: _ => some (String.ofList (letters.takeWhile (· != '.')).reverse)
  | _ => none

end Path

end SmaliFlow
