import Mathlib.Data.List.Induction
import SmaliFlow.Proofs.Isolation
import SmaliFlow.Proofs.Scanning

/-!
# What a class declares

The fields, the flags, the names and the source file of a class come from the
lines that no method owns and whose surroundings have not decided what they are.
Of these, the lines that begin like a field declare fields; each other one is
tried as the declaration of the class, of what it extends, of what it implements
and of its source file.  Of a kind that a class has once, the last declaration
counts.

The attributes are collected after all methods have been built, from the lines
that nobody has classified until then.  Methods classify no line outside of
them, so this leaves out the lines inside of regions and no others.  The text of
a method therefore has no influence on what its class declares.  That of a
region is the subject of the next module.
-/

namespace SmaliFlow

/-! ## Declarations -/

/-- What a line outside of methods says about its class. -/
inductive Declaration where
  | type (modifiers : List Modifier) (descriptor : Bytes)
  | superClass (name : String)
  | interface (name : String)
  | source (name : String)
  deriving DecidableEq, Repr

namespace Declaration

/-- The flags and the descriptor of the class. -/
def type? : Declaration → Option (List Modifier × Bytes)
  | .type modifiers descriptor => some (modifiers, descriptor)
  | .superClass _ | .interface _ | .source _ => none

/-- The class that is extended. -/
def superClass? : Declaration → Option String
  | .superClass name => some name
  | .type _ _ | .interface _ | .source _ => none

/-- A class that is implemented. -/
def interface? : Declaration → Option String
  | .interface name => some name
  | .type _ _ | .superClass _ | .source _ => none

/-- The file that the class was compiled from. -/
def source? : Declaration → Option String
  | .source name => some name
  | .type _ _ | .superClass _ | .interface _ => none

/-- The declaration on a line, tried in this order. -/
def read? (text : Bytes) : Option Declaration :=
  ((Attributes.scanClass? text).map fun found => .type found.1 found.2).or
    (((Attributes.scanName? ".super" text).map fun name =>
        .superClass (ClassName.dotted name)).or
      (((Attributes.scanName? ".implements" text).map fun name =>
          .interface (ClassName.dotted name)).or
        ((Attributes.scanSource? text).map fun name =>
          .source (Utf8.decode name))))

/-- The declarations on lines that declare no field, in their order. -/
def ofLines (lines : List Line) : List Declaration :=
  (lines.filter fun line => !line.text.startsWith ".field").filterMap
    fun line =>
    read? line.text

/-- The attributes with a further declaration. -/
def apply (attributes : Attributes) : Declaration → Attributes
  | .type modifiers descriptor =>
      { attributes with modifiers, descriptor := some descriptor }
  | .superClass name => { attributes with superClass := some name }
  | .interface name =>
      { attributes with interfaces := attributes.interfaces.push name }
  | .source name => { attributes with sourceFile := some name }

theorem ofLines_append (front back : List Line) :
    ofLines (front ++ back) = ofLines front ++ ofLines back := by
  rw [ofLines, List.filter_append, List.filterMap_append]
  rfl

theorem ofLines_renumber (lines : List Line) (distance : Nat) :
    ofLines (lines.map (Line.renumber distance)) = ofLines lines := by
  rw [ofLines, List.filter_map, List.filterMap_map]
  rfl

end Declaration

theorem Attributes.addDeclaration_eq (attributes : Attributes) (text : Bytes) :
    attributes.addDeclaration text =
      (Declaration.read? text).elim attributes
        (Declaration.apply attributes) := by
  unfold addDeclaration Declaration.read?
  cases scanClass? text with
  | some found => rfl
  | none =>
      cases scanName? ".super" text with
      | some name => rfl
      | none =>
          cases scanName? ".implements" text with
          | some name => rfl
          | none => cases scanSource? text <;> rfl

namespace Field

/-- The fields that lines declare, in their order. -/
def ofLines (lines : List Line) : List Field :=
  (lines.filter fun line => line.text.startsWith ".field").filterMap fun line =>
    read? line.text line.number

/-- The field without the place of its declaration. -/
def unnumbered (field : Field) : Field :=
  { field with number := 0 }

theorem ofLines_append (front back : List Line) :
    ofLines (front ++ back) = ofLines front ++ ofLines back := by
  rw [ofLines, List.filter_append, List.filterMap_append]
  rfl

theorem map_unnumbered_read? (text : Bytes) (number : Nat) :
    (read? text number).map unnumbered = read? text 0 := by
  simp only [read?, Option.bind_eq_bind, Option.map_bind, Function.comp_def,
    Option.pure_def, Option.map_some, unnumbered]

/-- Where lines stand decides no more than the numbers of their fields. -/
theorem ofLines_renumber (lines : List Line) (distance : Nat) :
    (ofLines (lines.map (Line.renumber distance))).map unnumbered =
      (ofLines lines).map unnumbered := by
  rw [ofLines, ofLines, List.filter_map, List.filterMap_map, List.map_filterMap,
    List.map_filterMap]
  simp only [Function.comp_apply, map_unnumbered_read?]
  rfl

end Field

/-! ## The attributes of lines -/

/-- The attributes are those that the lines declare. -/
structure Attributes.Describes (attributes : Attributes) (lines : List Line) :
    Prop where
  fields : attributes.fields.toList = Field.ofLines lines
  modifiers : attributes.modifiers =
    ((((Declaration.ofLines lines).filterMap Declaration.type?).getLast?.map
      Prod.fst).getD [])
  descriptor : attributes.descriptor =
    ((Declaration.ofLines lines).filterMap Declaration.type?).getLast?.map
      Prod.snd
  superClass : attributes.superClass =
    ((Declaration.ofLines lines).filterMap Declaration.superClass?).getLast?
  interfaces : attributes.interfaces.toList =
    (Declaration.ofLines lines).filterMap Declaration.interface?
  sourceFile : attributes.sourceFile =
    ((Declaration.ofLines lines).filterMap Declaration.source?).getLast?

namespace Attributes.Describes

variable {attributes : Attributes} {lines : List Line}

theorem congr
    {others : List Line}
    (describes : attributes.Describes lines)
    (fields : Field.ofLines lines = Field.ofLines others)
    (declarations : Declaration.ofLines lines = Declaration.ofLines others) :
    attributes.Describes others := by
  rcases describes with
    ⟨field, modifiers, descriptor, superClass, interfaces, sourceFile⟩
  rw [declarations] at modifiers descriptor superClass interfaces sourceFile
  exact ⟨field.trans fields, modifiers, descriptor, superClass, interfaces,
    sourceFile⟩

/--
One more declaration replaces the last one of its kind, or joins the others.
-/
theorem apply
    (describes : attributes.Describes lines)
    {others : List Line}
    {declaration : Declaration}
    (fields : Field.ofLines others = Field.ofLines lines)
    (declarations :
      Declaration.ofLines others = Declaration.ofLines lines ++ [declaration]) :
    (declaration.apply attributes).Describes others := by
  rcases describes with
    ⟨field, modifiers, descriptor, superClass, interfaces, sourceFile⟩
  rw [← fields] at field
  cases declaration <;> constructor <;>
    simp_all [Declaration.apply, Declaration.type?, Declaration.superClass?,
      Declaration.interface?, Declaration.source?]

/-- A line that nobody has classified is taken in. -/
theorem add
    (describes : attributes.Describes lines)
    {line : Line}
    (own : line.knownKind? = none) :
    (attributes.add line).Describes (lines ++ [line]) := by
  rw [Attributes.add, own]
  cases starts : line.text.startsWith ".field" with
  | true =>
      have declarations :
          Declaration.ofLines (lines ++ [line]) =
            Declaration.ofLines lines := by
        rw [Declaration.ofLines_append]
        simp [Declaration.ofLines, starts]
      have fields : Field.ofLines (lines ++ [line]) =
          Field.ofLines lines ++
            (Field.read? line.text line.number).toList := by
        rw [Field.ofLines_append]
        cases found :
          Field.read? line.text line.number <;>
            simp [Field.ofLines, starts, found]
      rcases describes with
        ⟨field, modifiers, descriptor, superClass, interfaces, sourceFile⟩
      cases found :
        Field.read? line.text line.number <;> constructor <;> simp_all
  | false =>
      have fields : Field.ofLines (lines ++ [line]) = Field.ofLines lines := by
        rw [Field.ofLines_append]
        simp [Field.ofLines, starts]
      have declarations : Declaration.ofLines (lines ++ [line]) =
          Declaration.ofLines lines ++
            (Declaration.read? line.text).toList := by
        rw [Declaration.ofLines_append]
        cases found :
          Declaration.read? line.text <;>
            simp [Declaration.ofLines, starts, found]
      rw [if_neg (by simp), if_neg (by simp), addDeclaration_eq]
      cases found : Declaration.read? line.text with
      | none =>
          rw [found, Option.toList_none, List.append_nil] at declarations
          exact describes.congr fields.symm declarations.symm
      | some declaration =>
          rw [found, Option.toList_some] at declarations
          exact describes.apply fields declarations

end Attributes.Describes

/-- The lines among the entries that nobody has classified. -/
def Outline.pending (entries : List IndexedLine) : List Line :=
  (entries.map Prod.snd).filter fun line => line.knownKind?.isNone

/-- The attributes of entries are those that the unclassified lines declare. -/
theorem Attributes.describes_ofLines (entries : List IndexedLine) :
    (ofLines entries).Describes (Outline.pending entries) := by
  induction entries using List.reverseRecOn with
  | nil => exact ⟨rfl, rfl, rfl, rfl, rfl, rfl⟩
  | append_singleton entries entry ih =>
      have step : ofLines (entries ++ [entry]) =
          (ofLines entries).add entry.2 := by
        rw [ofLines, List.foldl_append]
        rfl
      rw [step, Outline.pending, List.map_append, List.filter_append]
      cases known : entry.2.knownKind? with
      | none =>
          have own : ([entry].map Prod.snd).filter
              (fun line => line.knownKind?.isNone) =
              [entry.2] := by
            simp [known]
          rw [own]
          exact ih.add known
      | some kind =>
          have given :
              ([entry].map Prod.snd).filter (fun line =>
                line.knownKind?.isNone) =
                [] := by
            simp [known]
          rw [given, List.append_nil, Attributes.add, known]
          exact ih

/-! ## Lines that declare nothing -/

/-- A line declares nothing if it begins with no word that does. -/
theorem Declaration.read?_eq_none
    {text : Bytes}
    (silent : ∀ word ∈ [".class", ".super", ".implements", ".source"],
      text.startsWith word = false) :
    read? text = none := by
  have refused : ∀ word ∈ [".class", ".super", ".implements", ".source"],
      Scan.word? word text = none := by
    intro word member
    have differs := silent word member
    rw [Bytes.startsWith] at differs
    rw [Scan.word?_eq_none_iff, ← List.isPrefixOf_iff_prefix, differs]
    exact Bool.false_ne_true
  simp only [List.forall_mem_cons] at refused
  rcases refused with ⟨type, super, interface, source, -⟩
  simp [read?, Attributes.scanClass?, Attributes.scanName?,
    Attributes.scanSource?, type, super, interface, source]

theorem Declaration.read?_of_isLineDirective
    {line : Line}
    (directive : line.isLineDirective = true) :
    read? line.text = none := by
  rw [Line.isLineDirective, Bool.and_eq_true] at directive
  have apart : ∀ word ∈ [".class", ".super", ".implements", ".source"],
      (Bytes.ofString ".line").isPrefixOf (Bytes.ofString word) = false ∧
        (Bytes.ofString word).isPrefixOf (Bytes.ofString ".line") = false := by
    decide
  exact read?_eq_none fun word member =>
    Bytes.startsWith_eq_false_of_apart directive.2 word (apart word member)

theorem Declaration.ofLines_filter_isLineDirective (lines : List Line) :
    ofLines (lines.filter fun line => !line.isLineDirective) =
      ofLines lines := by
  induction lines with
  | nil => rfl
  | cons line lines ih =>
      rw [← List.singleton_append, List.filter_append, ofLines_append,
        ofLines_append, ih]
      cases directive : line.isLineDirective with
      | true =>
          simp [ofLines, directive, List.filter_cons,
            read?_of_isLineDirective directive]
      | false => simp [directive]

theorem Field.ofLines_filter_isLineDirective (lines : List Line) :
    ofLines (lines.filter fun line => !line.isLineDirective) =
      ofLines lines := by
  rw [ofLines, ofLines, List.filter_filter]
  congr 1
  apply List.filter_congr
  intro line _
  cases directive : line.isLineDirective with
  | false => simp
  | true =>
      rw [Line.isLineDirective, Bool.and_eq_true] at directive
      rw [Bytes.startsWith_eq_false_of_apart directive.2 ".field" (by decide)]
      rfl

/-! ## The declaring lines of a class -/

/-- What no method holds is found among the other lines. -/
theorem Outline.Divided.filter_eq
    {entries others : List IndexedLine}
    {runs : List (List IndexedLine)}
    (divided : Divided entries runs others)
    (holds : IndexedLine → Bool)
    (silent : ∀ run ∈ runs, ∀ entry ∈ run, holds entry = false) :
    entries.filter holds = others.filter holds := by
  induction divided with
  | nil => rfl
  | other _ _ ih => rw [List.filter_cons, List.filter_cons, ih silent]
  | @method run entries others runs _ _ ih =>
      rw [List.forall_mem_cons] at silent
      have nothing : run.filter holds = [] :=
        List.filter_eq_nil_iff.mpr fun entry member => by
          simp [silent.1 entry member]
      rw [List.filter_append, nothing, List.nil_append, ih silent.2]

namespace ClassFile

/--
The lines that no method owns and whose surroundings have not decided what they
are.
-/
def declaring (file : ClassFile) : List Line :=
  file.lines.toList.filter fun line => line.owner.isNone && !line.isGiven

/-- The class has been declared by these lines. -/
structure DeclaredBy (file : ClassFile) (lines : List Line) : Prop where
  fields : file.fields.toList = Field.ofLines lines
  type : ∃ modifiers descriptor,
    ((Declaration.ofLines lines).filterMap Declaration.type?).getLast? =
      some (modifiers, descriptor) ∧
    file.modifiers = modifiers ∧ file.name = ClassName.dotted descriptor
  superClass : file.superClass =
    ((Declaration.ofLines lines).filterMap Declaration.superClass?).getLast?
  interfaces : file.interfaces.toList =
    (Declaration.ofLines lines).filterMap Declaration.interface?
  sourceFile : file.sourceFile =
    ((Declaration.ofLines lines).filterMap Declaration.source?).getLast?

/-- Two classes declare the same, apart from the places of their fields. -/
structure SameDeclarations (file other : ClassFile) : Prop where
  fields : file.fields.toList.map Field.unnumbered =
    other.fields.toList.map Field.unnumbered
  modifiers : file.modifiers = other.modifiers
  name : file.name = other.name
  superClass : file.superClass = other.superClass
  interfaces : file.interfaces = other.interfaces
  sourceFile : file.sourceFile = other.sourceFile

namespace DeclaredBy

variable {file : ClassFile} {lines others : List Line}

theorem congr
    (declared : file.DeclaredBy lines)
    (fields : Field.ofLines lines = Field.ofLines others)
    (declarations : Declaration.ofLines lines = Declaration.ofLines others) :
    file.DeclaredBy others := by
  rcases declared with ⟨field, type, superClass, interfaces, sourceFile⟩
  rw [declarations] at type superClass interfaces sourceFile
  exact ⟨field.trans fields, type, superClass, interfaces, sourceFile⟩

theorem sameDeclarations
    {changed : ClassFile}
    (declared : file.DeclaredBy lines)
    (redeclared : changed.DeclaredBy others)
    (fields : (Field.ofLines others).map Field.unnumbered =
      (Field.ofLines lines).map Field.unnumbered)
    (declarations : Declaration.ofLines others = Declaration.ofLines lines) :
    changed.SameDeclarations file := by
  rcases declared.type with
    ⟨modifiers, descriptor, last, modifiersEqual, nameEqual⟩
  rcases redeclared.type with
    ⟨others, other, otherLast, otherModifiers, otherName⟩
  rw [declarations, last] at otherLast
  cases otherLast
  refine ⟨?_, otherModifiers.trans modifiersEqual.symm,
    otherName.trans nameEqual.symm, ?_, ?_, ?_⟩
  · rw [redeclared.fields, declared.fields, fields]
  · rw [redeclared.superClass, declared.superClass, declarations]
  · apply Array.toList_inj.mp
    rw [redeclared.interfaces, declared.interfaces, declarations]
  · rw [redeclared.sourceFile, declared.sourceFile, declarations]

end DeclaredBy

/-- An accepted file is declared by the unclassified ones of its other lines. -/
theorem declaredBy_pending
    {settings : Settings}
    {path : String}
    {label : Nat}
    {source : Bytes}
    {file : ClassFile}
    (read : (ClassFile.read settings path label source).outcome = .ok file)
    {runs : List (List IndexedLine)}
    {others : List IndexedLine}
    (divided : Outline.Divided
      (Outline.indexed 0 (Line.scan .body 1 (Lines.split source)))
        runs others) :
    file.DeclaredBy (Outline.pending others) := by
  rcases (read_eq_ok_iff settings path label source file).mp read with
    ⟨-, outline, descriptor, outlined, declared, rfl⟩
  let expected : Outline := { methods := runs.map Outline.kept, others }
  have same := (Outline.ofLines_eq_ok_iff
    (Line.scan .body 1 (Lines.split source)).toArray expected).mpr
      ⟨runs, divided, rfl⟩
  rw [outlined] at same
  have othersEqual : outline.others = others :=
    congrArg Outline.others (Except.ok.inj same)
  rw [← othersEqual]
  have describes := Attributes.describes_ofLines outline.others
  have described := describes.descriptor
  rw [declared, eq_comm, Option.map_eq_some_iff] at described
  rcases described with ⟨⟨modifiers, _⟩, last, rfl⟩
  refine ⟨describes.fields, ⟨modifiers, _, last, ?_, rfl⟩, describes.superClass,
    describes.interfaces, describes.sourceFile⟩
  have flags := describes.modifiers
  rw [last] at flags
  exact flags

namespace Composed

variable {file : ClassFile} {lines : List Line} {runs : List (List IndexedLine)}
  {others : List IndexedLine}

theorem exists_original
    (composed : file.Composed lines runs others)
    {id : Nat}
    {line : Line}
    (found : file.lines[id]? = some line) :
    ∃ original,
      lines[id]? = some original ∧
        line = marked file.methods.toList id original := by
  rw [composed.lines_eq, getElem?_assignLines, List.getElem?_toArray,
    Option.map_eq_some_iff] at found
  rcases found with ⟨original, place, equal⟩
  exact ⟨original, place, equal.symm⟩

/-- A line that no method owns is as it has been read. -/
theorem original_of_owner
    (composed : file.Composed lines runs others)
    (free : ∀ line ∈ lines, line.owner = none)
    {id : Nat}
    {line : Line}
    (found : file.lines[id]? = some line)
    (unowned : line.owner = none) :
    lines[id]? = some line := by
  rcases composed.exists_original found with ⟨original, place, equal⟩
  have foreign : ∀ method ∈ file.methods.toList, id ∉ method.lines := by
    intro method member own
    rcases List.mem_iff_getElem?.mp member with ⟨index, methodFound⟩
    rw [Array.getElem?_toList] at methodFound
    have owned :=
      (composed.owner_iff free found index).mpr ⟨method, methodFound, own⟩
    rw [unowned] at owned
    cases owned
  rw [equal, marked_of_forall_not_mem foreign]
  exact place

/-- A line of a method is owned, unless it is a directive for a line number. -/
theorem owner_of_mem_run
    (composed : file.Composed lines runs others)
    (free : ∀ line ∈ lines, line.owner = none)
    {run : List IndexedLine}
    (runMember : run ∈ runs)
    {entry : IndexedLine}
    (member : entry ∈ run)
    (own : entry.2.isLineDirective = false)
    {line : Line}
    (found : file.lines[entry.1]? = some line) :
    line.owner.isSome = true := by
  rcases List.mem_iff_getElem?.mp runMember with ⟨index, place⟩
  have methodFound := composed.getElem?_methods index
  rw [place, Option.map_some] at methodFound
  have remains : entry ∈ Outline.kept run :=
    List.mem_filter.mpr ⟨member, by simp [own]⟩
  have listed : entry.1 ∈ (Method.ofLines index (Outline.kept run)).lines := by
    rw [Method.lines_ofLines]
    exact List.mem_map.mpr ⟨entry, remains, rfl⟩
  rw [(composed.owner_iff free found index).mpr ⟨_, methodFound, listed⟩]
  rfl

/--
The lines of the class are the lines of the file, each one as the class has it.
-/
theorem toList_lines (composed : file.Composed lines runs others) :
    file.lines.toList =
      (Outline.indexed 0 lines).map fun entry =>
        marked file.methods.toList entry.1 entry.2 := by
  apply List.ext_getElem?
  intro id
  rw [Array.getElem?_toList, composed.lines_eq, getElem?_assignLines,
    List.getElem?_toArray, List.getElem?_map, Outline.getElem?_indexed,
    Option.map_map, Nat.zero_add]
  rfl

/-- The other lines are as they have been read. -/
theorem marked_of_mem_others
    (composed : file.Composed lines runs others)
    {entry : IndexedLine}
    (member : entry ∈ others) :
    marked file.methods.toList entry.1 entry.2 = entry.2 := by
  let outline : Outline := { methods := runs.map Outline.kept, others }
  have outlined := (Outline.ofLines_eq_ok_iff lines.toArray outline).mpr
    ⟨runs, composed.divided, rfl⟩
  have foreign := (Outline.getElem?_of_mem_others outlined member).2
  have compiled : outline.compiled = file.methods.toList := by
    rw [Outline.compiled_eq rfl, composed.methods_eq]
  rw [compiled] at foreign
  exact marked_of_forall_not_mem foreign entry.2

theorem getElem?_lines_of_mem
    (composed : file.Composed lines runs others)
    {entry : IndexedLine}
    (member : entry ∈ Outline.indexed 0 lines) :
    file.lines[entry.1]? =
      some (marked file.methods.toList entry.1 entry.2) := by
  rw [composed.lines_eq, getElem?_assignLines, List.getElem?_toArray,
    Outline.getElem?_of_mem_indexed member]
  rfl

theorem isLineDirective_marked
    (composed : file.Composed lines runs others)
    {entry : IndexedLine}
    (member : entry ∈ Outline.indexed 0 lines) :
    (marked file.methods.toList entry.1 entry.2).isLineDirective =
      entry.2.isLineDirective := by
  have same :=
    map_assignLines _ Line.isLineDirective_assign file.methods
      lines.toArray entry.1
  rw [← composed.lines_eq, composed.getElem?_lines_of_mem member,
    List.getElem?_toArray, Outline.getElem?_of_mem_indexed member] at same
  exact Option.some.inj same

/--
Apart from directives for line numbers, the declaring lines are among the other
lines.
-/
theorem filter_declaring
    (composed : file.Composed lines runs others)
    (free : ∀ line ∈ lines, line.owner = none)
    (fresh : ∀ line ∈ lines, line.reading ≠ .done) :
    (file.declaring.filter fun line => !line.isLineDirective) =
      (Outline.pending others).filter fun line => !line.isLineDirective := by
  let mark : IndexedLine → Line :=
    fun entry => marked file.methods.toList entry.1 entry.2
  let declares : Line → Bool := fun line =>
    !line.isLineDirective && (line.owner.isNone && !line.isGiven)
  have silent : ∀ run ∈ runs, ∀ entry ∈ run, declares (mark entry) = false := by
    intro run runMember entry member
    have inFile := composed.divided.flatten_sublist.subset
      (List.mem_flatten.mpr ⟨run, runMember, member⟩)
    cases own : entry.2.isLineDirective with
    | true => simp [declares, mark, composed.isLineDirective_marked inFile, own]
    | false =>
        have owned := composed.owner_of_mem_run free runMember member own
          (composed.getElem?_lines_of_mem inFile)
        simp [declares, mark, Option.isNone_eq_false_iff.mpr owned]
  have unmarked : others.map mark = others.map Prod.snd :=
    List.map_congr_left fun entry member => composed.marked_of_mem_others member
  have pending : ∀ line ∈ others.map Prod.snd,
      declares line = (!line.isLineDirective && line.knownKind?.isNone) := by
    intro line member
    rcases List.mem_map.mp member with ⟨entry, entryMember, rfl⟩
    have inFile :=
      composed.divided.perm.mem_iff.mpr (List.mem_append_right _ entryMember)
    have inLines := List.mem_map_of_mem (f := Prod.snd) inFile
    rw [Outline.map_snd_indexed] at inLines
    have known := Line.knownKind?_eq_none_iff (fresh entry.2 inLines)
    cases given : entry.2.isGiven <;> cases kind : entry.2.knownKind? <;>
      simp_all [declares]
  calc (file.declaring.filter fun line => !line.isLineDirective)
      = file.lines.toList.filter declares := by
        rw [declaring, List.filter_filter]
    _ = ((Outline.indexed 0 lines).filter (declares ∘ mark)).map mark := by
        rw [composed.toList_lines, List.filter_map]
    _ = (others.filter (declares ∘ mark)).map mark := by
        rw [composed.divided.filter_eq (declares ∘ mark) silent]
    _ = (others.map Prod.snd).filter declares := by
      rw [← List.filter_map, unmarked]
    _ = (Outline.pending others).filter fun line => !line.isLineDirective := by
        rw [List.filter_congr pending, Outline.pending, List.filter_filter]

end Composed

/--
An accepted file is declared by the lines that no method owns and no region
holds.
-/
theorem declaredBy_declaring
    {settings : Settings}
    {path : String}
    {label : Nat}
    {source : Bytes}
    {file : ClassFile}
    (read : (ClassFile.read settings path label source).outcome = .ok file) :
    file.DeclaredBy file.declaring := by
  rcases exists_composed_of_read read with ⟨runs, others, composed⟩
  have same := composed.filter_declaring (fun line => Line.owner_of_mem_scan)
    (fun line => Line.reading_of_mem_scan)
  refine (declaredBy_pending read composed.divided).congr ?_ ?_
  · rw [← Field.ofLines_filter_isLineDirective, ← same,
      Field.ofLines_filter_isLineDirective]
  · rw [← Declaration.ofLines_filter_isLineDirective, ← same,
      Declaration.ofLines_filter_isLineDirective]

/--
Nobody has classified a line outside of methods that its surroundings have not.
-/
theorem knownKind?_eq_none_iff_of_read
    {settings : Settings}
    {path : String}
    {label : Nat}
    {source : Bytes}
    {file : ClassFile}
    (read : (ClassFile.read settings path label source).outcome = .ok file)
    {id : Nat}
    {line : Line}
    (found : file.lines[id]? = some line)
    (unowned : line.owner = none) :
    line.knownKind? = none ↔ line.isGiven = false := by
  rcases exists_composed_of_read read with ⟨runs, others, composed⟩
  have original :=
    composed.original_of_owner (fun line => Line.owner_of_mem_scan)
      found unowned
  exact Line.knownKind?_eq_none_iff
    (Line.reading_of_mem_scan (List.mem_of_getElem? original))

/-! ## Methods have no influence -/

theorem pending_shift (entries : List IndexedLine) (distance : Nat) :
    Outline.pending (entries.map (IndexedLine.shift distance)) =
      (Outline.pending entries).map (Line.renumber distance) := by
  have lines : (entries.map (IndexedLine.shift distance)).map Prod.snd =
      (entries.map Prod.snd).map (Line.renumber distance) := by
    rw [List.map_map, List.map_map]
    rfl
  rw [Outline.pending, lines, List.filter_map]
  rfl

theorem pending_others (context : Outline.Context) (extent : List Bytes) :
    Outline.pending (context.others extent) =
      Outline.pending context.othersBefore ++
        (Outline.pending context.othersAfter).map
          (Line.renumber (context.before.length + extent.length)) := by
  rw [← pending_shift, Outline.pending, Outline.Context.others, List.map_append,
    List.filter_append]
  rfl

/-- Whichever closed method replaces a method, the class declares the same. -/
theorem exists_sameDeclarations
    {settings : Settings}
    {path : String}
    {label : Nat}
    {source : Bytes}
    {file : ClassFile}
    (read : (ClassFile.read settings path label source).outcome = .ok file)
    {index : Nat}
    {method : Method}
    (found : file.methods[index]? = some method)
    {other : List Bytes}
    (isRun : Outline.IsRun (Outline.entries other))
    {limits : Settings}
    {replaced : Bytes}
    (lines : Lines.split replaced = (Lines.split source).take method.first ++
      (other ++ (Lines.split source).drop (method.last + 1)))
    (admits : limits.Admits (Lines.split replaced))
    (place : String)
    (number : Nat) :
    ∃ changed,
      (ClassFile.read limits place number replaced).outcome = .ok changed ∧
      changed.SameDeclarations file := by
  rcases exists_replaced_of_isRun read found isRun lines admits
      place number with
    ⟨context, extent, changed, placed, changedRead, composed⟩
  have declared := declaredBy_pending read placed.composed.divided
  have redeclared := declaredBy_pending changedRead composed.divided
  rw [pending_others] at declared redeclared
  refine ⟨changed, changedRead, declared.sameDeclarations redeclared ?_ ?_⟩
  · rw [Field.ofLines_append, Field.ofLines_append, List.map_append,
      List.map_append, Field.ofLines_renumber, Field.ofLines_renumber]
  · rw [Declaration.ofLines_append, Declaration.ofLines_append,
      Declaration.ofLines_renumber, Declaration.ofLines_renumber]

end ClassFile

end SmaliFlow
