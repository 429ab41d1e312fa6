import SmaliFlow.Application.Basic
import SmaliFlow.Proofs.Reading

/-!
# Labels of classes

An application gives every class it accepts the next free label.  Adding a file
either accepts one class under the path of the file, or records one refusal and
changes nothing else; a class that is found by its path can be edited, which
keeps its label.  The invariant of such steps says that every label is below the
next free one and belongs to one path only.

The identifier of a block is written with the label of its class, the index of
its method and its own index.  Digits never hold the dash between them, so all
three can be read off, and over a whole run two blocks never share an
identifier.
-/

namespace SmaliFlow

/-! ## Identifiers of blocks -/

namespace ClassFile

theorem dash_notMem_toDigits (number : Nat) : '-' ∉ Nat.toDigits 10 number := by
  intro member
  have digit := Nat.isDigit_of_mem_toDigits (by decide) (by decide) member
  exact absurd digit (by decide)

theorem toDigits_inj
    {left right : Nat}
    (same : Nat.toDigits 10 left = Nat.toDigits 10 right) :
    left = right := by
  calc
    left = Nat.ofDigitChars 10 (Nat.toDigits 10 left) 0 :=
      Nat.ofDigitChars_ten_toDigits.symm
    _ = Nat.ofDigitChars 10 (Nat.toDigits 10 right) 0 := by rw [same]
    _ = right := Nat.ofDigitChars_ten_toDigits

/-- The first dash of a text ends what stands before it. -/
theorem eq_of_append_dash
    {front other back rest : List Char}
    (plain : '-' ∉ front)
    (otherPlain : '-' ∉ other)
    (same : front ++ '-' :: back = other ++ '-' :: rest) :
    front = other ∧ back = rest := by
  rcases List.append_eq_append_iff.mp same with
    ⟨gap, joined, split⟩ | ⟨gap, joined, split⟩
  · cases gap with
    | nil => simp_all
    | cons letter gap => simp_all
  · cases gap with
    | nil => simp_all
    | cons letter gap => simp_all

theorem toList_blockId (file : ClassFile) (method block : Nat) :
    (file.blockId method block).toList =
      Nat.toDigits 10 file.label ++ '-' :: (Nat.toDigits 10 method ++
        '-' :: Nat.toDigits 10 block) := by
  have dash : (toString "-").toList = ['-'] := rfl
  simp [blockId, dash]

/-- An identifier tells the label, the method and the block. -/
theorem blockId_eq_iff
    (left right : ClassFile)
    (method otherMethod block otherBlock : Nat) :
    left.blockId method block = right.blockId otherMethod otherBlock ↔
      left.label = right.label ∧ method = otherMethod ∧ block = otherBlock := by
  constructor
  · intro same
    have letters := congrArg String.toList same
    rw [toList_blockId, toList_blockId] at letters
    rcases eq_of_append_dash (dash_notMem_toDigits _)
        (dash_notMem_toDigits _) letters with
      ⟨label, rest⟩
    rcases eq_of_append_dash (dash_notMem_toDigits _)
        (dash_notMem_toDigits _) rest with
      ⟨methods, blocks⟩
    exact ⟨toDigits_inj label, toDigits_inj methods, toDigits_inj blocks⟩
  · rintro ⟨label, rfl, rfl⟩
    simp only [blockId, label]

/-! ## Labels of accepted files -/

/-- A class that is loaded keeps the path and the label it was given. -/
theorem path_label_of_load
    {settings : Settings}
    {system : FileSystem}
    {path : String}
    {label : Nat}
    {file : ClassFile}
    (loaded : (load settings system path label).outcome = .ok file) :
    file.path = path ∧ file.label = label := by
  unfold load at loaded
  split at loaded
  · cases loaded
  · split at loaded
    · cases loaded
    · rcases (read_eq_ok_iff _ _ _ _ _).mp loaded with ⟨-, _, _, -, -, rfl⟩
      exact ⟨rfl, rfl⟩

end ClassFile

namespace Application

/-! ## What a step does -/

/-- How a class that has been found by its path may be edited. -/
inductive Edit where
  | setEntropy (entropy : Float)
  | setObfuscated (isObfuscated : Bool)

/-- The class after an edit. -/
def Edit.apply : Edit → ClassFile → ClassFile
  | .setEntropy entropy, file => file.setEntropy entropy
  | .setObfuscated isObfuscated, file => file.setObfuscated isObfuscated

/-- What may happen to an application. -/
inductive Step where
  /-- A file is added, as the file system has it at that time. -/
  | add (system : FileSystem) (path : String)
  /-- The class with the given path is edited. -/
  | edit (path : String) (edit : Edit)

/-- The application after a step. -/
def perform (application : Application) : Step → Application
  | .add system path => (application.addFile system path).application
  | .edit path edit => application.modifyClass path edit.apply

/-- Whether a step adds a file and the file is accepted. -/
def accepts (application : Application) : Step → Bool
  | .add system path => (application.addFile system path).accepted
  | .edit _ _ => false

/-- The application after several steps. -/
def run (application : Application) (steps : List Step) : Application :=
  steps.foldl perform application

/-- How many of several steps add a file that is accepted. -/
def acceptedCount (application : Application) : List Step → Nat
  | [] => 0
  | step :: steps =>
      (application.accepts step).toNat +
        (application.perform step).acceptedCount steps

/-- A file that can be loaded is accepted under its path. -/
theorem addFile_of_ok
    {application : Application}
    {system : FileSystem}
    {path : String}
    {file : ClassFile}
    (loaded : (ClassFile.load application.settings system path
      application.nextLabel).outcome =
      .ok file) :
    (application.addFile system path).accepted = true ∧
      (application.addFile system path).application =
        { application with
          classes := application.classes.insert (Path.key path) file
          nextLabel := application.nextLabel + 1 } := by
  simp only [addFile, loaded, and_self]

/-- A file that cannot be loaded is recorded, and nothing else changes. -/
theorem addFile_of_error
    {application : Application}
    {system : FileSystem}
    {path : String}
    {error : SourceError}
    (refused : (ClassFile.load application.settings system path
      application.nextLabel).outcome =
      .error error) :
    (application.addFile system path).accepted = false ∧
      (application.addFile system path).application =
        { application with
          skipped := application.skipped ++ [(path, error)] } := by
  simp only [addFile, refused, and_self]

theorem getElem?_insert_class
    (classes : Std.TreeMap Path.Key ClassFile)
    (key other : Path.Key)
    (file : ClassFile) :
    (classes.insert key file)[other]? = if key = other then
      some file else classes[other]? := by
  rw [Std.TreeMap.getElem?_insert]
  simp only [Std.LawfulEqOrd.compare_eq_iff_eq]

theorem getElem?_modifyClass
    (application : Application)
    (path : String)
    (change : ClassFile → ClassFile)
    (key : Path.Key) :
    (application.modifyClass path change).classes[key]? =
      if Path.key path = key then application.classes[key]?.map change
      else application.classes[key]? := by
  rw [modifyClass, Std.TreeMap.getElem?_modify]
  simp only [Std.LawfulEqOrd.compare_eq_iff_eq]
  split
  · rename_i same
    rw [same]
  · rfl

/-! ## The invariant of labels -/

/--
After `count` accepted files, all labels are below `count` and each has one
path.
-/
structure Labelled (application : Application) (count : Nat) : Prop where
  next : application.nextLabel = count
  below : ∀ (key : Path.Key) (file : ClassFile),
    application.classes[key]? = some file →
    file.label < application.nextLabel
  distinct : ∀ (key other : Path.Key) (file another : ClassFile),
    application.classes[key]? = some file →
      application.classes[other]? = some another →
    file.label = another.label → key = other

/-- An application without classes has given no label. -/
theorem labelled_new (settings : Settings) : Labelled { settings } 0 where
  next := rfl
  below := by simp
  distinct := by simp

namespace Labelled

variable {application : Application} {count : Nat}

/-- A new class takes a label that no class has. -/
theorem accept
    (labelled : application.Labelled count)
    {file : ClassFile}
    (label : file.label = application.nextLabel)
    (key : Path.Key) :
    Labelled
      { application with
        classes := application.classes.insert key file
        nextLabel := application.nextLabel + 1 }
      (count + 1) where
  next := congrArg (· + 1) labelled.next
  below := by
    intro other another found
    simp only [getElem?_insert_class] at found
    split at found
    · cases found
      simp only [label]
      omega
    · have below := labelled.below other another found
      simp only
      omega
  distinct := by
    intro first second left right firstFound secondFound same
    simp only [getElem?_insert_class] at firstFound secondFound
    split at firstFound
    · rename_i isFirst
      split at secondFound
      · rename_i isSecond
        exact isFirst.symm.trans isSecond
      · cases firstFound
        have below := labelled.below second right secondFound
        omega
    · split at secondFound
      · cases secondFound
        have below := labelled.below first left firstFound
        omega
      · exact labelled.distinct first second left right firstFound
          secondFound same

/-- A refusal gives no label. -/
theorem refuse
    (labelled : application.Labelled count)
    (skipped : List (String × SourceError)) :
    Labelled { application with skipped } count where
  next := labelled.next
  below := labelled.below
  distinct := labelled.distinct

/-- A change that keeps the label of a class keeps all labels. -/
theorem modifyClass
    (labelled : application.Labelled count)
    (path : String)
    {change : ClassFile → ClassFile}
    (keeps : ∀ file, (change file).label = file.label) :
    (application.modifyClass path change).Labelled count := by
  -- Behind every class of the changed application stands one with the same
  -- label.
  have original {key : Path.Key} {file : ClassFile}
      (found : (application.modifyClass path change).classes[key]? =
        some file) :
      ∃ old, application.classes[key]? = some old ∧ old.label = file.label := by
    rw [getElem?_modifyClass] at found
    split at found
    · rcases Option.map_eq_some_iff.mp found with ⟨old, oldFound, rfl⟩
      exact ⟨old, oldFound, (keeps old).symm⟩
    · exact ⟨file, found, rfl⟩
  refine ⟨labelled.next, ?_, ?_⟩
  · intro key file found
    rcases original found with ⟨old, oldFound, same⟩
    rw [← same]
    exact labelled.below key old oldFound
  · intro first second left right firstFound secondFound same
    rcases original firstFound with ⟨oldLeft, leftFound, leftLabel⟩
    rcases original secondFound with ⟨oldRight, rightFound, rightLabel⟩
    apply labelled.distinct first second oldLeft oldRight leftFound rightFound
    rw [leftLabel, same, rightLabel]

/-- One step keeps the invariant and counts the file if it is accepted. -/
theorem perform (labelled : application.Labelled count) (step : Step) :
    (application.perform step).Labelled (count +
      (application.accepts step).toNat) := by
  cases step with
  | add system path =>
      rw [Application.perform, accepts]
      cases outcome :
          (ClassFile.load application.settings system path
            application.nextLabel).outcome with
      | ok file =>
          rcases addFile_of_ok outcome with ⟨accepted, next⟩
          rw [accepted, next]
          exact labelled.accept (ClassFile.path_label_of_load outcome).2
            (Path.key path)
      | error error =>
          rcases addFile_of_error outcome with ⟨refused, next⟩
          rw [refused, next]
          exact labelled.refuse _
  | edit path edit =>
      apply labelled.modifyClass path
      intro file
      cases edit <;> rfl

/-- Several steps keep the invariant. -/
theorem run (labelled : application.Labelled count) (steps : List Step) :
    (application.run steps).Labelled (count +
      application.acceptedCount steps) := by
  induction steps generalizing application count with
  | nil => exact labelled
  | cons step steps ih =>
      have rest := ih (labelled.perform step)
      rw [Nat.add_assoc] at rest
      exact rest

end Labelled

/-! ## Applications and their histories -/

/-- Adding files in order is a run. -/
theorem addFiles_eq_run
    (application : Application)
    (system : FileSystem)
    (paths : List String) :
    (application.addFiles system paths).1 =
      application.run (paths.map (Step.add system)) := by
  have folded (events : List Event) :
      (paths.foldl
        (fun (state : Application × List Event) path =>
          ((state.1.addFile system path).application,
            state.2 ++ (state.1.addFile system path).events))
        (application, events)).1 =
          application.run (paths.map (Step.add system)) := by
    induction paths generalizing application events with
    | nil => rfl
    | cons path paths ih => exact ih _ _
  exact folded []

/-- Loading adds the files below a directory in order. -/
theorem outcome_load
    {system : FileSystem}
    {directory : String}
    {paths : List String}
    (found : classFilePaths system directory = .ok paths)
    (settings : Settings) :
    (load settings system directory).outcome =
      .ok (run { settings } (paths.map (Step.add system))) := by
  rw [← addFiles_eq_run]
  simp only [load, found]

/--
An application from which a history begins, and how many files it has accepted.
-/
inductive Origin : (application : Application) → (count : Nat) → Prop where
  /-- An application without classes. -/
  | new (settings : Settings) : Origin { settings } 0
  /--
  An application that has been loaded, adding the files below a directory in
  order.
  -/
  | load
      {settings : Settings}
      {system : FileSystem}
      {directory : String}
      {paths : List String}
      {application : Application}
      (found : classFilePaths system directory = .ok paths)
      (loaded : (load settings system directory).outcome = .ok application) :
      Origin application (acceptedCount { settings }
        (paths.map (Step.add system)))

theorem Origin.labelled
    {application : Application}
    {count : Nat}
    (origin : Origin application count) :
    application.Labelled count := by
  cases origin with
  | new settings => exact labelled_new settings
  | @load settings system directory paths _ found loaded =>
      rw [outcome_load found, Except.ok.injEq] at loaded
      subst loaded
      have labelled := (labelled_new settings).run (paths.map (Step.add system))
      rw [Nat.zero_add] at labelled
      exact labelled

/--
Over a whole run labels stay unique: the next label counts the accepted files,
all labels are below it, no two paths share one, and so no two blocks share an
identifier.
-/
theorem labels_unique_over_runs
    {start : Application}
    {count : Nat}
    (origin : Origin start count)
    (steps : List Step) :
    (start.run steps).nextLabel = count + start.acceptedCount steps ∧
    (∀ (key : Path.Key) (file : ClassFile),
      (start.run steps).classes[key]? = some file →
      file.label < (start.run steps).nextLabel) ∧
    ∀ (key other : Path.Key) (file another : ClassFile),
      (start.run steps).classes[key]? = some file →
      (start.run steps).classes[other]? = some another →
      (file.label = another.label → key = other) ∧
      ∀ method block otherMethod otherBlock,
        file.blockId method block = another.blockId otherMethod otherBlock →
        key = other ∧ file = another ∧ method = otherMethod ∧
          block = otherBlock := by
  have labelled := origin.labelled.run steps
  refine ⟨labelled.next, labelled.below, ?_⟩
  intro key other file another found otherFound
  refine ⟨labelled.distinct key other file another found otherFound, ?_⟩
  intro method block otherMethod otherBlock same
  rcases (ClassFile.blockId_eq_iff _ _ _ _ _ _).mp same with
    ⟨label, methods, blocks⟩
  have keys := labelled.distinct key other file another found otherFound label
  refine ⟨keys, ?_, methods, blocks⟩
  rw [keys, otherFound, Option.some.injEq] at found
  exact found.symm

/-- A directory with two classes and a file that declares none. -/
def twoClasses : FileSystem :=
  .ofWorking <| .directory [("x", .directory
    [("A.smali", .file (Bytes.ofString ".class LA;\n")),
      ("B.smali", .file (Bytes.ofString ".class LB;\n")),
      ("C.smali", .file [])])]

/--
A refusal, one class under two spellings of its path, an edit and another class.
-/
def readding : List Step :=
  [.add twoClasses "x/A.smali", .add twoClasses "x/C.smali",
    .add twoClasses "x//A.smali", .edit "x/./A.smali" (.setObfuscated true),
    .add twoClasses "x/B.smali"]

/-- Reading a class again gives it a new label, and identifiers stay apart. -/
theorem labels_unique_after_readding :
    ∃ (application : Application) (first second : ClassFile),
      Origin { settings := .standard } 0 ∧
      application = run { settings := .standard } readding ∧
      application.nextLabel = 3 ∧
      application.classes[Path.key "x/A.smali"]? = some first ∧
      first.label = 1 ∧
      application.classes[Path.key "x/B.smali"]? = some second ∧
      second.label = 2 ∧
      first.blockId 11 1 ≠ second.blockId 1 11 := by
  have origin : Origin { settings := .standard } 0 := .new .standard
  have view :
      (acceptedCount { settings := .standard } readding,
        (run { settings := .standard } readding).classes[Path.key
          "x/A.smali"]?.map
          ClassFile.label,
        (run { settings := .standard } readding).classes[Path.key
          "x/B.smali"]?.map
          ClassFile.label) = (3, some 1, some 2) := by
    decide +kernel
  simp only [Prod.mk.injEq, Option.map_eq_some_iff] at view
  rcases view with
    ⟨accepted, ⟨first, firstFound, firstLabel⟩,
      ⟨second, secondFound, secondLabel⟩⟩
  rcases labels_unique_over_runs origin readding with ⟨next, -, apart⟩
  rw [accepted] at next
  refine ⟨_, first, second, origin, rfl, next, firstFound, firstLabel,
    secondFound, secondLabel, ?_⟩
  intro same
  have methods :=
    ((apart _ _ _ _ firstFound secondFound).2 11 1 1 11 same).2.2.1
  exact absurd methods (by decide)

end Application

end SmaliFlow
