import Std.Data.TreeMap
import SmaliFlow.Application.FileTree
import SmaliFlow.ClassFile.Basic

/-!
# Applications

An application holds the classes that have been read, in the order of their
paths, and the files that were refused.  Every accepted class gets the next free
label, and labels are never given twice, not even when a path is read again and
its class replaced.
-/

namespace SmaliFlow

namespace ClassFile

/--
Read a class file.  Not more of it is taken from the file system than is needed
to see that it is too large.
-/
def load
    (settings : Settings)
    (system : FileSystem)
    (path : String)
    (label : Nat) :
    Report ClassFile :=
  match system.readAtMost path settings.wantedCount with
  | .error cause => { events := [], outcome := .error (.unreadable path cause) }
  | .ok content =>
      if settings.maxFileSize < content.length then
        { events := [],
          outcome := .error (.fileTooLarge path settings.maxFileSize) }
      else
        read settings path label content

end ClassFile

/-- The classes of one application. -/
structure Application where
  settings : Settings
  /-- The classes by their paths. -/
  classes : Std.TreeMap Path.Key ClassFile := ∅
  /-- The refused files in the order they were tried, with the causes. -/
  skipped : List (String × SourceError) := []
  /-- The label of the next class. -/
  nextLabel : Nat := 0

namespace Application

/-- The classes in the order of their paths. -/
def files (application : Application) : List ClassFile :=
  application.classes.values

/-- How many classes there are. -/
def size (application : Application) : Nat :=
  application.classes.size

/-- What trying to add a file gives. -/
structure Addition where
  application : Application
  accepted : Bool
  events : List Event

/-- Read a file and add its class, or record why it was refused. -/
def addFile (application : Application) (system : FileSystem) (path : String) :
    Addition :=
  let report :=
    ClassFile.load application.settings system path application.nextLabel
  match report.outcome with
  | .ok file =>
      { application :=
          { application with
            classes := application.classes.insert (Path.key path) file
            nextLabel := application.nextLabel + 1 }
        accepted := true
        events := report.events }
  | .error error =>
      { application :=
          { application with skipped := application.skipped ++ [(path, error)] }
        accepted := false
        events := report.events ++ [.fileSkipped path error] }

/-- Add files in order; what is reported is kept in the order of the files. -/
def addFiles
    (application : Application)
    (system : FileSystem)
    (paths : List String) :
    Application × List Event :=
  paths.foldl
    (fun (application, events) path =>
      let addition := application.addFile system path
      (addition.application, events ++ addition.events))
    (application, [])

/--
The class files below a directory in the order of their paths.  A directory that
cannot be listed, because there is none or its path is too long, is an error.
-/
def classFilePaths (system : FileSystem) (directory : String) :
    Except SourceError (List String) :=
  match system.list directory with
  | .error cause => .error (.unreadable directory cause)
  | .ok entries =>
      match (FileTree.directoriesIn directory entries).find? Path.isTooLong with
      | some inner => .error (.unreadable inner .nameTooLong)
      | none =>
          .ok ((FileTree.classFilesIn directory entries).mergeSort Path.atMost)

/-- Read all class files below a directory.  Refused files are only recorded. -/
def load (settings : Settings) (system : FileSystem) (directory : String) :
    Report Application :=
  match classFilePaths system directory with
  | .error error => { events := [], outcome := .error error }
  | .ok paths =>
      let (application, events) := addFiles { settings } system paths
      let loaded : Event :=
        .directoryLoaded directory application.size application.skipped.length
      { events := events ++ [loaded], outcome := .ok application }

/-! ## Questions about an application -/

/-- The class that was read from a path. -/
def classAt? (application : Application) (path : String) : Option ClassFile :=
  application.classes[Path.key path]?

/-- The first class with the given dotted name. -/
def classNamed? (application : Application) (name : String) :
    Option ClassFile :=
  application.files.find? fun file => file.name == name

/-- The classes of a package. -/
def classesInPackage (application : Application) (package : String) :
    List ClassFile :=
  application.files.filter fun file => file.package == package

/-- The classes whose paths end with the given components. -/
def classesEndingWith (application : Application) (ending : String) :
    List ClassFile :=
  application.files.filter fun file => Path.endsWith file.path ending

/-! ## Changes to an application -/

/-- Change the class that was read from a path. -/
def modifyClass
    (application : Application)
    (path : String)
    (change : ClassFile → ClassFile) : Application :=
  { application with
    classes := application.classes.modify (Path.key path) change }

end Application

end SmaliFlow
