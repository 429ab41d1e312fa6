import SmaliFlow.ClassFile.Attributes
import SmaliFlow.ClassFile.Region
import SmaliFlow.Method.Basic

/-!
# Class files

Reading a class file gives its lines, its methods with their control flow, its
fields and its attributes.  A file is refused only if it breaks a limit, if a
method is not closed, or if no class is declared; a method whose control flow
cannot be rebuilt is kept without blocks.
-/

namespace SmaliFlow

/-- A class that has been read. -/
structure ClassFile where
  /-- The path as it was given. -/
  path : String
  /-- The number of the class in its application. -/
  label : Nat
  lines : Array Line
  methods : Array Method
  fields : Array Field
  modifiers : List Modifier
  /-- The dotted name with its package. -/
  name : String
  superClass : Option String
  interfaces : Array String
  sourceFile : Option String
  /-- Whether the class belongs to bundled advertising code. -/
  isAd : Bool
  isObfuscated : Bool := false
  /-- An entropy from elsewhere, which replaces the one that the lines have. -/
  givenEntropy : Option Float := none

/-- The outcome of reading, with everything that was reported on the way. -/
structure Report (α : Type) where
  events : List Event
  outcome : Except SourceError α

namespace Line

/-- The line as part of the given method, whose control flow has been built. -/
def assign (line : Line) (method : Nat) : Line :=
  { line.classify with owner := some method }

end Line

namespace Method

/-- Declare a method, build its control flow and number its blocks. -/
def ofLines (label : Nat) (lines : List IndexedLine) : Method :=
  let listing := Flow.Listing.ofLines lines
  ((declare label listing).build listing).discover

/-- What reading a method of the given file reports. -/
def events (path : String) (method : Method) : List Event :=
  (method.fault.map fun fault => Event.noControlFlow path fault).toList ++
    method.discoveryEvents

end Method

namespace ClassFile

/-! ## Reading -/

/-- Mark the lines of the given methods as theirs. -/
def assignLines (methods : Array Method) (lines : Array Line) : Array Line :=
  methods.foldl
    (fun lines method =>
      method.lines.foldl
        (fun lines id => lines.modify id fun line => line.assign method.label)
          lines)
    lines

/--
Put a class together from its marked lines, its methods and its attributes.
-/
def assemble
    (settings : Settings)
    (path : String)
    (label : Nat)
    (lines : Array Line)
    (methods : Array Method)
    (attributes : Attributes)
    (descriptor : Bytes) : ClassFile where
  path
  label
  lines
  methods
  fields := attributes.fields
  modifiers := attributes.modifiers
  name := ClassName.dotted descriptor
  superClass := attributes.superClass
  interfaces := attributes.interfaces
  sourceFile := attributes.sourceFile
  isAd := settings.isAdPath path ||
    settings.isAdPath (Utf8.decode (ClassName.inner descriptor))

/-- Methods that have blocks. -/
def methodsWithBlocks (file : ClassFile) : List Method :=
  file.methods.toList.filter fun method => !method.isEmpty

/--
Methods without blocks: nothing is executed, or the control flow cannot be
rebuilt.
-/
def methodsWithoutBlocks (file : ClassFile) : List Method :=
  file.methods.toList.filter Method.isEmpty

/-- The event that the class has been read. -/
def readEvent (file : ClassFile) : Event :=
  .classRead file.name file.lines.size file.methods.size
    file.methodsWithoutBlocks.length

/-- Read a class from its divided lines. -/
def ofOutline
    (settings : Settings)
    (path : String)
    (label : Nat)
    (lines : Array Line)
    (outline : Outline) : Report ClassFile :=
  let methods :=
    outline.methods.zipIdx.map fun (lines, label) => Method.ofLines label lines
  let events := methods.flatMap (Method.events path)
  -- From here on every line of a method is classified; the attributes see the
  -- others.
  let lines := assignLines methods.toArray lines
  let attributes := Attributes.ofLines (outline.othersIn lines)
  match attributes.descriptor with
  | some descriptor =>
      let file :=
        assemble settings path label lines methods.toArray attributes descriptor
      { events := events ++ [file.readEvent], outcome := .ok file }
  | none => { events, outcome := .error (.malformed .missingClass) }

/-- Read the octets of a class file. -/
def read (settings : Settings) (path : String) (label : Nat) (source : Bytes) :
    Report ClassFile :=
  match Line.readAll settings path source with
  | .error error => { events := [], outcome := .error error }
  | .ok lines =>
      match Outline.ofLines lines with
      | .error fault => { events := [], outcome := .error (.malformed fault) }
      | .ok outline => ofOutline settings path label lines outline

/-! ## Questions about a class -/

/-- The package in dotted form. -/
def package (file : ClassFile) : String :=
  ClassName.package file.name

/-- The name without its package. -/
def simpleName (file : ClassFile) : String :=
  ClassName.simple file.name

/-- The first method with the given name. -/
def findMethod? (file : ClassFile) (name : String) : Option Method :=
  file.methods.find? fun method => method.header.name == name

/-- A block of a method. -/
def block? (file : ClassFile) (method block : Nat) : Option Flow.Block := do
  let method ← file.methods[method]?
  method.blocks[block]?

/-- The lines with the given indices. -/
def linesAt (file : ClassFile) (ids : List Nat) : List Line :=
  ids.filterMap fun id => file.lines[id]?

/-- The last executed line of a block. -/
def lastInstruction? (file : ClassFile) (method block : Nat) : Option Line := do
  let block ← file.block? method block
  block.lines.reverse.findSome? fun id => file.lines[id]?.filter Line.isCode

/-- An identifier that no other block of an application has. -/
def blockId (file : ClassFile) (method block : Nat) : String :=
  let label := file.label
  s!"{label}-{method}-{block}"

/-- How often each octet occurs in the lines. -/
def octetCounts (file : ClassFile) : Array Nat :=
  file.lines.foldl
    (fun counts line =>
      line.text.foldl (fun counts octet => counts.modify octet.toNat (· + 1))
        counts)
    (Array.replicate 256 0)

/-- The entropy of the octets of the lines, in bits. -/
def lineEntropy (file : ClassFile) : Float :=
  let counts := file.octetCounts
  let total := Float.ofNat (counts.foldl (· + ·) 0)
  counts.foldl
    (fun entropy count =>
      if count = 0 then
        entropy
      else
        let share := Float.ofNat count / total
        entropy + -share * share.log2)
    0

/-- The entropy that was given, or else that of the lines. -/
def entropy (file : ClassFile) : Float :=
  file.givenEntropy.getD file.lineEntropy

/-! ## Changes to a class -/

/-- Replace the entropy of the lines. -/
def setEntropy (file : ClassFile) (entropy : Float) : ClassFile :=
  { file with givenEntropy := some entropy }

/-- Record whether the class looks obfuscated. -/
def setObfuscated (file : ClassFile) (isObfuscated : Bool) : ClassFile :=
  { file with isObfuscated }

/-- Classify a line. -/
def classifyLine (file : ClassFile) (id : Nat) : ClassFile :=
  { file with lines := file.lines.modify id Line.classify }

/-- Classify all lines. -/
def classifyLines (file : ClassFile) : ClassFile :=
  { file with lines := file.lines.map Line.classify }

/-- Tag a line with a permission. -/
def tagLine (file : ClassFile) (id : Nat) (permission : String) : ClassFile :=
  { file with lines := file.lines.modify id fun line => line.tag permission }

end ClassFile

end SmaliFlow
