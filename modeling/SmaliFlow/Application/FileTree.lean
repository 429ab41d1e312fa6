import SmaliFlow.Application.Path
import SmaliFlow.SourceError

/-!
# File trees

A tree of directories and files, in which paths are looked up as an operating
system does it: a piece of a path can only be taken inside a directory, a single
dot stays and two dots go up, except at the root.  Absolute paths begin at the
root, and all others in the working directory.
-/

namespace SmaliFlow

/-- A file or a directory. -/
inductive FileTree where
  | file (content : Bytes)
  | directory (entries : List (String × FileTree))

namespace FileTree

/-- A directory without entries. -/
def empty : FileTree :=
  .directory []

/-! ## Looking up -/

/--
Follow the pieces of a path from a place in the tree, given the directories
above that place, the nearest one first.  The last of these is the root.
-/
def walk : (place : FileTree) → (above : List FileTree) →
    (pieces : List String) →
    Except AccessError FileTree
  | place, _, [] => .ok place
  | .file _, _, _ :: _ => .error .notDirectory
  | .directory entries, above, piece :: pieces =>
      if piece = "" || piece = "." then
        walk (.directory entries) above pieces
      else if piece = ".." then
        match above with
        | [] => walk (.directory entries) [] pieces
        | parent :: above => walk parent above pieces
      else if Path.nameLimit < piece.utf8ByteSize then
        .error .nameTooLong
      else
        match entries.lookup piece with
        | some entry => walk entry (.directory entries :: above) pieces
        | none => .error .notFound

/-! ## Entries below a directory -/

/-- Whether a file name is that of a class file. -/
def isClassFileName (name : String) : Bool :=
  Path.extension? name == some "smali"

mutual

/-- The class files below an entry with the given name and path. -/
def classFiles (name path : String) : FileTree → List String
  | .file _ => if isClassFileName name then [path] else []
  | .directory entries => classFilesIn path entries

/-- The class files below the entries of a directory with the given path. -/
def classFilesIn (path : String) : List (String × FileTree) → List String
  | [] => []
  | entry :: entries => classFilesAt path entry ++ classFilesIn path entries

/-- The class files below one entry of a directory with the given path. -/
def classFilesAt (path : String) : String × FileTree → List String
  | (name, tree) => classFiles name (Path.join path name) tree

end

mutual

/--
The directories below an entry with the given path, with the entry itself.
-/
def directories (path : String) : FileTree → List String
  | .file _ => []
  | .directory entries => path :: directoriesIn path entries

/-- The directories below the entries of a directory with the given path. -/
def directoriesIn (path : String) : List (String × FileTree) → List String
  | [] => []
  | entry :: entries => directoriesAt path entry ++ directoriesIn path entries

/-- The directories below one entry of a directory with the given path. -/
def directoriesAt (path : String) : String × FileTree → List String
  | (name, tree) => directories (Path.join path name) tree

end

/-! ## Writing -/

/-- The entries of a directory; a file has none. -/
def entries : FileTree → List (String × FileTree)
  | .file _ => []
  | .directory entries => entries

/-- Put an entry in the place of the one with the same name, or at the end. -/
def setEntry (name : String) (entry : FileTree) :
    List (String × FileTree) → List (String × FileTree)
  | [] => [(name, entry)]
  | (other, old) :: entries =>
      if other = name then
        (name, entry) :: entries
      else
        (other, old) :: setEntry name entry entries

/--
Change what lies at the end of a list of names, making directories on the way.
-/
def alter (change : FileTree → FileTree) :
    (names : List String) → FileTree → FileTree
  | [], tree => change tree
  | name :: names, tree =>
      let entry := alter change names ((tree.entries.lookup name).getD empty)
      .directory (setEntry name entry tree.entries)

/--
The names that pieces of a path lead to; two dots take away the name before
them.
-/
def names (pieces : List String) : List String :=
  (pieces.foldl
    (fun names piece =>
      if piece = "" || piece = "." then
        names
      else if piece = ".." then
        names.drop 1
      else
        piece :: names)
    []).reverse

/--
Make every directory that is passed on the way along the pieces of a path.
-/
def makeDirectories (tree : FileTree) (pieces : List String) : FileTree :=
  (List.range (pieces.length + 1)).foldl
    (fun tree count => tree.alter id (names (pieces.take count))) tree

/-- Make a directory and the directories on the way to it. -/
def makeDirectory (tree : FileTree) (path : String) : FileTree :=
  tree.makeDirectories (Path.pieces path)

/-- Write a file, making the directories on the way to it. -/
def write (tree : FileTree) (path : String) (content : Bytes) : FileTree :=
  let pieces := Path.pieces path
  (tree.makeDirectories pieces.dropLast).alter (fun _ => .file content)
    (names pieces)

/-- Write a file, or make a directory if the path ends with a slash. -/
def put (tree : FileTree) (path : String) (content : Bytes) : FileTree :=
  if Path.isDirectoryPath path then
    tree.makeDirectory path else tree.write path content

end FileTree

/--
A tree of directories and the names that lead from its root to the working
directory.
-/
structure FileSystem where
  root : FileTree
  working : List String

namespace FileSystem

/-- A working directory below a root without other entries. -/
def ofWorking (directory : FileTree) : FileSystem where
  root := .directory [("home", directory)]
  working := ["home"]

instance : Coe FileTree FileSystem :=
  ⟨ofWorking⟩

/-- What a path leads to. -/
def find (system : FileSystem) (path : String) : Except AccessError FileTree :=
  if path.toList.contains '\x00' then
    .error .zeroOctet
  else if path = "" then
    .error .notFound
  else if Path.isTooLong path then
    .error .nameTooLong
  else if Path.isAbsolute path then
    system.root.walk [] (Path.pieces path)
  else
    system.root.walk [] (system.working ++ Path.pieces path)

/-- The content of the file that a path leads to. -/
def read (system : FileSystem) (path : String) : Except AccessError Bytes := do
  match ← system.find path with
  | .file content => return content
  | .directory _ => throw .isDirectory

/--
The beginning of the file that a path leads to, with at most `count` octets.
-/
def readAtMost (system : FileSystem) (path : String) (count : Nat) :
    Except AccessError Bytes := do
  return (← system.read path).take count

/-- The entries of the directory that a path leads to. -/
def list (system : FileSystem) (path : String) :
    Except AccessError (List (String × FileTree)) := do
  match ← system.find path with
  | .file _ => throw .notDirectory
  | .directory entries => return entries

end FileSystem

end SmaliFlow
