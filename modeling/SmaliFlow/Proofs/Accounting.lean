import Mathlib.Data.List.Basic
import Mathlib.Data.List.Induction
import SmaliFlow.Proofs.Labels
import SmaliFlow.Proofs.Paths

/-!
# Every call is accounted for

Adding a file has two outcomes.  A file that cannot be loaded leaves one entry
in the list of refused files, and the application is otherwise the one before.
A file that can be loaded changes the entry of its path and takes the next
label.

Over a run from an application without classes, each call has therefore left one
trace: the labels given and the refusals recorded are as many as the calls.
What is found under a path is the class of the last accepted call whose path has
the same components, in whichever way the paths are spelled.
-/

namespace SmaliFlow

namespace Application

/-! ## One call -/

/-- The refused files with the texts of the causes. -/
def refusals (application : Application) : List (String × String) :=
  application.skipped.map fun entry => (entry.1, entry.2.message)

/--
The class has been entered under the path, and nothing else about the classes
changed.
-/
structure Enters
    (before after : Application)
    (path : String)
    (file : ClassFile) : Prop where
  settings : after.settings = before.settings
  skipped : after.skipped = before.skipped
  nextLabel : after.nextLabel = before.nextLabel + 1
  classAt? : ∀ other, after.classAt? other =
    if Path.components path = Path.components other then
      some file else before.classAt? other
  others : ∀ key,
    key ≠ Path.key path → after.classes[key]? = before.classes[key]?

theorem classAt?_insert
    (application : Application)
    (path : String)
    (file : ClassFile)
    (label : Nat)
    (other : String) :
    classAt?
        { application with
          classes := application.classes.insert (Path.key path) file
          nextLabel := label } other =
      if Path.components path = Path.components other then some file
      else application.classAt? other := by
  simp only [classAt?, getElem?_insert_class, Path.key_eq_iff]

/-- A file that can be loaded is entered under its path. -/
theorem enters_addFile
    {application : Application}
    {system : FileSystem}
    {path : String}
    {file : ClassFile}
    (loaded : (ClassFile.load application.settings system path
      application.nextLabel).outcome =
      .ok file) :
    Enters application (application.addFile system path).application path
      file := by
  rw [(addFile_of_ok loaded).2]
  refine ⟨rfl, rfl, rfl, classAt?_insert application path file _, ?_⟩
  intro key different
  rw [getElem?_insert_class, if_neg (Ne.symm different)]

/-- A call leaves one trace, a label or a refusal. -/
theorem traces_addFile
    (application : Application)
    (system : FileSystem)
    (path : String) :
    (application.addFile system path).application.nextLabel +
        (application.addFile system path).application.skipped.length =
      application.nextLabel + application.skipped.length + 1 := by
  cases outcome :
      (ClassFile.load application.settings system path
        application.nextLabel).outcome with
  | ok file =>
      rw [(addFile_of_ok outcome).2]
      exact Nat.add_right_comm _ _ _
  | error error =>
      rw [(addFile_of_error outcome).2, List.length_append]
      rfl

/-! ## Runs of calls -/

/--
A call that adds the file under a path, as the file system has it at that time.
-/
structure Call where
  system : FileSystem
  path : String

/-- The step of a call. -/
def Call.step (call : Call) : Step :=
  .add call.system call.path

/-- What loading the file of a call gives. -/
def attempt (application : Application) (call : Call) :
    Except SourceError ClassFile :=
  (ClassFile.load application.settings call.system call.path
    application.nextLabel).outcome

/-- The application after calls, beginning without classes. -/
def afterCalls (settings : Settings) (calls : List Call) : Application :=
  run { settings } (calls.map Call.step)

/--
The class is the one of the last accepted call whose path has the components of
the given one: no later call under such a path has been accepted.
-/
def LastAccepted
    (settings : Settings)
    (calls : List Call)
    (path : String)
    (file : ClassFile) : Prop :=
  ∃ before call after, calls = before ++ call :: after ∧
    Path.components call.path = Path.components path ∧
    (afterCalls settings before).attempt call = .ok file ∧
    ∀ middle other rest, after = middle ++ other :: rest →
      Path.components other.path = Path.components path →
      ∃ error,
        (afterCalls settings (before ++ call :: middle)).attempt other =
          .error error

variable (settings : Settings) (calls : List Call)

theorem afterCalls_concat (call : Call) :
    afterCalls settings (calls ++ [call]) =
      ((afterCalls settings calls).addFile call.system
        call.path).application := by
  rw [afterCalls, afterCalls, run, run, List.map_append, List.foldl_append]
  rfl

theorem traces_afterCalls :
    (afterCalls settings calls).nextLabel +
      (afterCalls settings calls).skipped.length =
      calls.length := by
  induction calls using List.reverseRecOn with
  | nil => rfl
  | append_singleton calls call ih =>
      rw [afterCalls_concat, traces_addFile, ih, List.length_append]
      rfl

theorem settings_afterCalls :
  (afterCalls settings calls).settings = settings := by
  induction calls using List.reverseRecOn with
  | nil => rfl
  | append_singleton calls call ih =>
      rw [afterCalls_concat]
      cases outcome : (afterCalls settings calls).attempt call with
      | ok file => rw [(enters_addFile outcome).settings, ih]
      | error error => rw [(addFile_of_error outcome).2, ih]

/--
One more call is the last accepted one, or it leaves the earlier one in its
place.
-/
theorem lastAccepted_concat_iff
    (call : Call)
    (path : String)
    (file : ClassFile) :
    LastAccepted settings (calls ++ [call]) path file ↔
      (Path.components call.path = Path.components path ∧
        (afterCalls settings calls).attempt call = .ok file) ∨
      ((Path.components call.path = Path.components path →
          ∃ error, (afterCalls settings calls).attempt call = .error error) ∧
        LastAccepted settings calls path file) := by
  constructor
  · rintro ⟨before, accepted, after, split, same, produced, later⟩
    rcases List.eq_nil_or_concat' after with rfl | ⟨middle, last, rfl⟩
    · rcases List.append_inj' split rfl with ⟨rfl, final⟩
      cases final
      exact Or.inl ⟨same, produced⟩
    · rw [← List.cons_append, ← List.append_assoc] at split
      rcases List.append_inj' split rfl with ⟨rfl, final⟩
      cases final
      refine Or.inr ⟨later middle call [] rfl, before, accepted, middle, rfl,
        same, produced, ?_⟩
      intro front other rest inner
      apply later front other (rest ++ [call])
      rw [inner, List.append_assoc, List.cons_append]
  · rintro (⟨same, produced⟩ | ⟨refused, before, accepted, after, rfl, same,
      produced, later⟩)
    · exact ⟨calls, call, [], rfl, same, produced, by simp⟩
    · refine ⟨before, accepted, after ++ [call], by simp, same, produced, ?_⟩
      intro middle other rest inner equal
      rcases List.eq_nil_or_concat' rest with rfl | ⟨front, last, rfl⟩
      · rcases List.append_inj' inner rfl with ⟨rfl, final⟩
        cases final
        exact refused equal
      · rw [← List.cons_append, ← List.append_assoc] at inner
        exact later middle other front (List.append_inj' inner rfl).1 equal

/-- What is found under a path is the class of the last accepted call. -/
theorem classAt?_afterCalls_iff (path : String) (file : ClassFile) :
    (afterCalls settings calls).classAt? path = some file ↔
      LastAccepted settings calls path file := by
  induction calls using List.reverseRecOn with
  | nil =>
      constructor
      · intro found
        simp [afterCalls, run, classAt?] at found
      · rintro ⟨before, call, after, split, -⟩
        simp at split
  | append_singleton calls call ih =>
      rw [lastAccepted_concat_iff, afterCalls_concat, ← ih]
      cases outcome : (afterCalls settings calls).attempt call with
      | ok accepted =>
          rw [(enters_addFile outcome).classAt?]
          split <;> simp_all
      | error error =>
          rw [(addFile_of_error outcome).2]
          simp [classAt?]

/--
A refused file is recorded with its path and the text of the cause, and nothing
else changes; an accepted file changes the entry of its path only.  Over a run,
the labels and the refusals are as many as the calls, and a path leads to the
class of the last accepted call under an equal path.
-/
theorem calls_accounted :
    (∀ (application : Application) (system : FileSystem) (path : String)
      (error : SourceError),
      (ClassFile.load application.settings system path
          application.nextLabel).outcome =
          .error error →
        (application.addFile system path).accepted = false ∧
        (application.addFile system path).application =
          { application with
            skipped := application.skipped ++ [(path, error)] } ∧
        (application.addFile system path).application.refusals =
          application.refusals ++ [(path, error.message)]) ∧
    (∀ (application : Application) (system : FileSystem) (path : String)
      (file : ClassFile),
      (ClassFile.load application.settings system path
        application.nextLabel).outcome = .ok file →
        (application.addFile system path).accepted = true ∧
        Enters application (application.addFile system path).application
          path file) ∧
    ∀ (settings : Settings) (calls : List Call),
      (afterCalls settings calls).settings = settings ∧
      (afterCalls settings calls).nextLabel +
        (afterCalls settings calls).skipped.length =
        calls.length ∧
      ∀ (path : String) (file : ClassFile),
        (afterCalls settings calls).classAt? path = some file ↔
          LastAccepted settings calls path file := by
  refine ⟨?_, ?_, ?_⟩
  · intro application system path error refused
    rcases addFile_of_error refused with ⟨rejected, after⟩
    refine ⟨rejected, after, ?_⟩
    rw [after, refusals, refusals, List.map_append]
    rfl
  · intro application system path file loaded
    exact ⟨(addFile_of_ok loaded).1, enters_addFile loaded⟩
  · intro settings calls
    exact ⟨settings_afterCalls settings calls, traces_afterCalls settings calls,
      classAt?_afterCalls_iff settings calls⟩

/-- One class under two spellings of its path. -/
def respelled : List Call :=
  [⟨twoClasses, "x/A.smali"⟩, ⟨twoClasses, "x//A.smali"⟩]

/-- No files at all. -/
def noFiles : FileSystem :=
  .ofWorking .empty

/-- The file has gone under a third spelling, and another class is added. -/
def vanished : List Call :=
  respelled ++ [⟨noFiles, "x/./A.smali"⟩, ⟨twoClasses, "x/B.smali"⟩]

/-- A class stays in place when its file can no longer be read. -/
theorem calls_accounted_of_vanished :
    ∃ (application : Application) (error : SourceError)
      (first last : ClassFile),
      application = afterCalls .standard respelled ∧
      (ClassFile.load application.settings noFiles "x/./A.smali"
        application.nextLabel).outcome = .error error ∧
      (application.addFile noFiles "x/./A.smali").application.classes =
        application.classes ∧
      (application.addFile noFiles "x/./A.smali").application.refusals =
        application.refusals ++ [("x/./A.smali", error.message)] ∧
      (ClassFile.load .standard twoClasses "x/A.smali" 0).outcome = .ok first ∧
      Enters { settings := .standard }
        (addFile { settings := .standard } twoClasses "x/A.smali").application
          "x/A.smali" first ∧
      (afterCalls .standard vanished).nextLabel +
        (afterCalls .standard vanished).skipped.length =
        4 ∧
      (afterCalls .standard vanished).classAt? "x/A.smali" = some last ∧
      last.label = 1 ∧
      LastAccepted .standard vanished "x/A.smali" last := by
  have view :
      (((afterCalls .standard respelled).addFile noFiles
        "x/./A.smali").accepted,
        (ClassFile.load .standard twoClasses "x/A.smali" 0).outcome.toOption.map
        ClassFile.label,
        ((afterCalls .standard vanished).classAt? "x/A.smali").map
          ClassFile.label) =
      (false, some 0, some 1) := by
    decide +kernel
  simp only [Prod.mk.injEq] at view
  rcases view with ⟨rejected, loadedView, foundView⟩
  rcases exists_ok_of_view loadedView with ⟨first, loaded, -⟩
  rcases Option.map_eq_some_iff.mp foundView with ⟨last, found, label⟩
  rcases calls_accounted with ⟨refusing, accepting, running⟩
  cases outcome :
      (afterCalls .standard respelled).attempt ⟨noFiles, "x/./A.smali"⟩ with
  | ok file =>
      rw [(accepting _ _ _ _ outcome).1] at rejected
      cases rejected
  | error error =>
      rcases refusing _ _ _ _ outcome with ⟨-, after, recorded⟩
      rcases running .standard vanished with ⟨-, traces, places⟩
      exact ⟨_, error, first, last, rfl, outcome, by
        rw [after], recorded, loaded, (accepting _ _ _ _ loaded).2, traces,
        found, label, (places _ _).mp found⟩

end Application

end SmaliFlow
