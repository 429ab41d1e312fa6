import SmaliFlow.Proofs.Declarations
import SmaliFlow.Proofs.Metadata
import SmaliFlow.Proofs.Terminators

/-!
# What a class declares around its regions

Metadata, array contents and tables also stand outside of methods.  Lines of
which the first opens a region and the last closes it are enclosed: the scan
decides all of them but the first, and the first declares nothing.  So enclosed
lines have no influence on what a class declares, and others may take their
place.

Whether lines that belong together by their brackets are enclosed is another
matter.  Array contents always are.  A table is, unless a closing bracket of the
other form stands inside of it.  A metadata bracket is, unless a value line
hides the nesting word in a string literal.  With such a line the bracket stays
open, and what the class declares behind it is lost.
-/

namespace SmaliFlow

open SmaliFlow.Flow

/-! ## Enclosed lines -/

namespace Region

/--
Lines of which the first opens a region that no line before the last leaves.
-/
structure Held (texts : List Bytes) : Prop where
  opens : ∃ opener ∈ texts.head?, opened opener ≠ .body
  inside : ∀ {front back : List Bytes}, texts = front ++ back →
    front ≠ [] → back ≠ [] → after .body front ≠ .body

/-- Lines of which the first opens a region and the last leaves it. -/
structure Enclosed (texts : List Bytes) : Prop extends Held texts where
  closed : after .body texts = .body

/-- The lines of array contents, up to the first closing bracket. -/
inductive ArrayBody : (texts : List Bytes) → Prop where
  | intro
      {opener closer : Bytes}
      {inner : List Bytes}
      (opens : opener.startsWith ".array-data" = true)
      (unclosed : ∀ text ∈ inner, text.startsWith ".end array-data" = false)
      (closes : closer.startsWith ".end array-data" = true) :
      ArrayBody (opener :: (inner ++ [closer]))

/-- The lines of a table, up to the first closing bracket of its own form. -/
inductive TableBody (form : TableForm) : (texts : List Bytes) → Prop where
  | intro
      {opener closer : Bytes}
      {inner : List Bytes}
      (opens : TableForm.opened? opener = some form)
      (unclosed : ∀ text ∈ inner, form.isClosedBy text = false)
      (closes : form.isClosedBy closer = true) :
      TableBody form (opener :: (inner ++ [closer]))

/-- A line that opens a region begins with none of the other words. -/
theorem startsWith_eq_false_of_opened
    {text : Bytes}
    (opens : opened text ≠ .body)
    {word : String}
    (apart : isApart word = true) :
    text.startsWith word = false := by
  cases starts : text.startsWith word with
  | false => rfl
  | true => exact (opens (opened_eq_body starts apart)).elim

/-- Metadata of no brackets is no region of a scan. -/
theorem next_ne_metadata_zero (region : Region) (text : Bytes) :
    region.next text ≠ .metadata 0 := by
  have ofDepth_ne (depth : Nat) : ofDepth depth ≠ .metadata 0 := by
    cases depth <;> simp [ofDepth]
  fun_cases next region text
  · fun_cases opened text <;> simp
  all_goals first | exact ofDepth_ne _ | simp

theorem after_ne_metadata_zero
    {region : Region}
    (counted : region ≠ .metadata 0)
    (texts : List Bytes) :
    region.after texts ≠ .metadata 0 := by
  induction texts generalizing region with
  | nil => exact counted
  | cons text texts ih =>
      rw [after_cons]
      exact ih (next_ne_metadata_zero region text)

theorem after_eq_self
    {region : Region}
    {texts : List Bytes}
    (stays : ∀ text ∈ texts, region.next text = region) :
    region.after texts = region := by
  induction texts with
  | nil => rfl
  | cons text texts ih =>
      rcases List.forall_mem_cons.mp stays with ⟨here, rest⟩
      rw [after_cons, here, ih rest]

/-- Lines in a region that only its last line leaves. -/
theorem enclosed_of_stays
    {opener closer : Bytes}
    {inner : List Bytes}
    (opens : opened opener ≠ .body)
    (stays : ∀ text ∈ inner, (opened opener).next text = opened opener)
    (closes : (opened opener).next closer = .body) :
    Enclosed (opener :: (inner ++ [closer])) where
  opens := ⟨opener, rfl, opens⟩
  inside := by
    intro front back split begun unfinished
    cases front with
    | nil => exact (begun rfl).elim
    | cons first front =>
        rw [List.cons_append, List.cons.injEq] at split
        rcases split with ⟨rfl, split⟩
        have begins : front <+: inner ++ [closer] := ⟨back, split.symm⟩
        rcases List.prefix_concat_iff.mp begins with whole | part
        · rw [whole, List.self_eq_append_right] at split
          exact (unfinished split).elim
        · rw [after_cons, next,
            after_eq_self fun text member => stays text (part.subset member)]
          exact opens
  closed := by
    rw [after_cons, next, after_append, after_eq_self stays]
    exact closes

theorem opened_of_arrayData
    {opener : Bytes}
    (opens : opener.startsWith ".array-data" = true) :
    opened opener = .arrayData := by
  have outer :=
    Bytes.startsWith_eq_false_of_apart opens ".annotation" (by decide)
  have nested :=
    Bytes.startsWith_eq_false_of_apart opens ".subannotation" (by decide)
  simp [opened, opens, outer, nested]

/-- Array contents are enclosed. -/
theorem ArrayBody.enclosed {texts : List Bytes} (body : ArrayBody texts) :
    Enclosed texts := by
  rcases body with @⟨opener, closer, inner, opens, unclosed, closes⟩
  have region := opened_of_arrayData opens
  apply enclosed_of_stays
  · simp [region]
  · intro text member
    simp [region, next, unclosed text member]
  · simp [region, next, closes]

theorem next_switchTable_of_isClosedBy
    {form : TableForm}
    {text : Bytes}
    (closes : form.isClosedBy text = true) :
    next .switchTable text = .body := by
  cases form <;> simp_all [TableForm.isClosedBy, next]

/-- A line closes tables of one form only. -/
theorem form_eq_of_isClosedBy
    {form other : TableForm}
    {text : Bytes}
    (closes : form.isClosedBy text = true)
    (otherCloses : other.isClosedBy text = true) :
    other = form := by
  have apart (starts : text.startsWith ".end packed-switch" = true) :=
    Bytes.startsWith_eq_false_of_apart starts ".end sparse-switch" (by decide)
  cases form <;> cases other <;> simp_all [TableForm.isClosedBy]

/-- A line that opens a table closes none. -/
theorem isClosedBy_of_opened?
    {form other : TableForm}
    {text : Bytes}
    (opens : TableForm.opened? text = some form) :
    other.isClosedBy text = false := by
  have region : opened text ≠ .body := by
    simp [opened_of_opened? opens]
  cases other with
  | packed => exact startsWith_eq_false_of_opened region (by decide)
  | sparse => exact startsWith_eq_false_of_opened region (by decide)

/--
The region of a table is left at the first closing bracket, of whichever form.
-/
theorem exists_left_of_isClosedBy
    {texts : List Bytes}
    {text : Bytes}
    (member : text ∈ texts)
    {form : TableForm}
    (closes : form.isClosedBy text = true) :
    ∃ front back, texts = front ++ back ∧ after .switchTable front = .body := by
  induction texts with
  | nil => cases member
  | cons first texts ih =>
      by_cases closed : ∃ other : TableForm, other.isClosedBy first = true
      · rcases closed with ⟨other, otherCloses⟩
        exact ⟨[first], texts, rfl, next_switchTable_of_isClosedBy otherCloses⟩
      · have unclosed (other : TableForm) : other.isClosedBy first = false := by
          simpa using not_exists.mp closed other
        rcases List.mem_cons.mp member with rfl | later
        · rw [unclosed] at closes
          cases closes
        · rcases ih later with ⟨front, back, rfl, left⟩
          refine ⟨first :: front, back, rfl, ?_⟩
          rw [after_cons, next_switchTable unclosed]
          exact left

/-- A table is enclosed unless a bracket of the other form closes it early. -/
theorem TableBody.enclosed_iff
    {form : TableForm}
    {texts : List Bytes}
    (body : TableBody form texts) :
    Enclosed texts ↔
      ∀ text ∈ texts, ∀ other : TableForm, other.isClosedBy text = true →
        other = form := by
  rcases body with @⟨opener, closer, inner, opens, unclosed, closes⟩
  have region := opened_of_opened? opens
  constructor
  · intro enclosed text member other otherCloses
    rcases List.mem_cons.mp member with rfl | later
    · rw [isClosedBy_of_opened? opens] at otherCloses
      cases otherCloses
    rcases List.mem_append.mp later with early | last
    · rcases exists_left_of_isClosedBy early otherCloses with
        ⟨front, back, rfl, left⟩
      have split :
          opener :: (front ++ back ++ [closer]) =
            (opener :: front) ++ (back ++ [closer]) := by
        simp
      refine (enclosed.inside split (by simp) (by simp) ?_).elim
      rw [after_cons, next, region]
      exact left
    · cases List.mem_singleton.mp last
      exact form_eq_of_isClosedBy closes otherCloses
  · intro clean
    apply enclosed_of_stays
    · simp [region]
    · intro text member
      rw [region]
      apply next_switchTable
      intro other
      cases otherCloses : other.isClosedBy text with
      | false => rfl
      | true =>
          have own := clean text (by simp [member]) other otherCloses
          rw [own, unclosed text member] at otherCloses
          cases otherCloses
    · rw [region]
      exact next_switchTable_of_isClosedBy closes

end Region

namespace Metadata.Balanced

variable {texts : List Bytes}

theorem held (balanced : Balanced texts) : Region.Held texts where
  opens := by
    rcases balanced with @⟨opener, closer, inner, opens, elements, closes⟩
    have region := next_body_of_opens opens
    rw [Region.next] at region
    exact ⟨opener, rfl, by simp [region]⟩
  inside := by
    intro front back split begun unfinished
    rcases balanced.exists_depth split begun unfinished with ⟨depth, inside⟩
    simp [inside]

/--
A metadata bracket is enclosed unless a value line hides the nesting word.
-/
theorem enclosed_iff (balanced : Balanced texts) :
    Region.Enclosed texts ↔
      ∀ text ∈ texts, isValue text = true → ¬nestingWord <:+: text := by
  rw [← countP_hides_eq_zero_iff, ← ofDepth_eq_body_iff, ← balanced.after_eq]
  exact ⟨fun enclosed => enclosed.closed, fun closed => ⟨balanced.held, closed⟩⟩

end Metadata.Balanced

/-! ## Silent lines -/

/-- A line that opens a region, or that its surroundings have decided. -/
def Line.IsSilent (line : Line) : Prop :=
  Region.opened line.text ≠ .body ∨ line.isGiven = true

namespace Line.IsSilent

variable {line : Line}

/-- A silent line begins with another word only if it has been decided. -/
theorem startsWith_eq_false
    (silent : line.IsSilent)
    (own : line.isGiven = false)
    {word : String}
    (apart : Region.isApart word = true) :
    line.text.startsWith word = false := by
  rcases silent with opens | given
  · exact Region.startsWith_eq_false_of_opened opens apart
  · rw [own] at given
    cases given

theorem opensMethod_eq_false (silent : line.IsSilent) :
    line.opensMethod = false := by
  rw [opensMethod]
  cases given : line.isGiven with
  | true => rw [Bool.not_true, Bool.false_and]
  | false => rw [silent.startsWith_eq_false given (by decide), Bool.and_false]

end Line.IsSilent

theorem Line.isGiven_of_knownKind?
    {line : Line}
    (own : line.knownKind? = none) :
    line.isGiven = false := by
  rw [isGiven]
  rw [knownKind?] at own
  cases reading : line.reading <;> simp_all

section Silent

variable {entries : List IndexedLine}

theorem Declaration.ofLines_of_isSilent
    (silent : ∀ entry ∈ entries, entry.2.IsSilent) :
    ofLines (Outline.pending entries) = [] := by
  rw [ofLines, List.filterMap_eq_nil_iff]
  intro line member
  rcases List.mem_filter.mp (List.mem_filter.mp member).1 with ⟨inLines, own⟩
  rcases List.mem_map.mp inLines with ⟨entry, entryMember, rfl⟩
  have given := Line.isGiven_of_knownKind? (Option.isNone_iff_eq_none.mp own)
  have apart : ∀ word ∈ [".class", ".super", ".implements", ".source"],
      Region.isApart word = true := by
    decide
  exact read?_eq_none fun word wordMember =>
    (silent entry entryMember).startsWith_eq_false given (apart word wordMember)

theorem Field.ofLines_of_isSilent
    (silent : ∀ entry ∈ entries, entry.2.IsSilent) :
    ofLines (Outline.pending entries) = [] := by
  rw [ofLines, List.filterMap_eq_nil_iff]
  intro line member
  rcases List.mem_filter.mp member with ⟨pending, starts⟩
  rcases List.mem_filter.mp pending with ⟨inLines, own⟩
  rcases List.mem_map.mp inLines with ⟨entry, entryMember, rfl⟩
  have given := Line.isGiven_of_knownKind? (Option.isNone_iff_eq_none.mp own)
  have differs : entry.2.text.startsWith ".field" = false :=
    (silent entry entryMember).startsWith_eq_false given (by decide)
  rw [differs] at starts
  cases starts

end Silent

/-! ## Files with a gap -/

namespace Outline

/-- Lines with their indices, as they are read from a region on. -/
def entriesFrom (region : Region) (rawLines : List Bytes) : List IndexedLine :=
  indexed 0 (Line.scan region 1 rawLines)

theorem entriesFrom_append (region : Region) (front back : List Bytes) :
    entriesFrom region (front ++ back) =
      entriesFrom region front ++
        (entriesFrom (region.after (front.map Bytes.trim)) back).map
          (IndexedLine.shift front.length) := by
  rw [entriesFrom, Line.scan_append, indexed_append, Line.length_scan,
    Nat.zero_add, indexed_scan_from _ front.length]
  rfl

/-- A line of a region is decided by it. -/
theorem isSilent_of_held
    {rawLines : List Bytes}
    (held : Region.Held (rawLines.map Bytes.trim))
    {entry : IndexedLine}
    (member : entry ∈ entriesFrom .body rawLines) :
    entry.2.IsSilent := by
  have regional := Line.regional_scan .body 1 rawLines
  have inLines := List.mem_map_of_mem (f := Prod.snd) member
  rw [entriesFrom, map_snd_indexed] at inLines
  rw [← Line.map_text_scan .body 1] at held
  rcases List.append_of_mem inLines with ⟨front, back, split⟩
  rw [split] at regional held
  cases front with
  | nil =>
      rcases held.opens with ⟨opener, isHead, opens⟩
      cases isHead
      exact Or.inl opens
  | cons first front =>
      have here := regional.back
      rw [List.map_append] at held
      have inside := held.inside rfl (by simp) (by simp)
      right
      by_contra own
      exact inside (here.region_eq_body (Bool.eq_false_iff.mpr own))

/--
A divided file from which lines outside of methods have been left out.  Behind
them it is read on from the given region.
-/
structure Gap where
  before : List Bytes
  after : List Bytes
  behind : Region
  runsBefore : List (List IndexedLine)
  runsAfter : List (List IndexedLine)
  othersBefore : List IndexedLine
  othersAfter : List IndexedLine
  dividedBefore : Divided (entries before) runsBefore othersBefore
  dividedAfter : Divided (entriesFrom behind after) runsAfter othersAfter

namespace Gap

/-- The region in which the left out lines begin. -/
def start (gap : Gap) : Region :=
  Region.after .body (gap.before.map Bytes.trim)

/-- The raw lines of the file with the given ones in the gap. -/
def rawLines (gap : Gap) (extent : List Bytes) : List Bytes :=
  gap.before ++ (extent ++ gap.after)

/-- The methods of the file with the given lines in the gap. -/
def runs (gap : Gap) (extent : List Bytes) : List (List IndexedLine) :=
  gap.runsBefore ++ gap.runsAfter.map
    (List.map (IndexedLine.shift (gap.before.length + extent.length)))

/-- The other lines of the file with the given ones in the gap. -/
def others (gap : Gap) (extent : List Bytes) : List IndexedLine :=
  gap.othersBefore ++
    ((entriesFrom gap.start extent).map (IndexedLine.shift gap.before.length) ++
      gap.othersAfter.map
        (IndexedLine.shift (gap.before.length + extent.length)))

/-- The lines lead to the region behind the gap and open no method. -/
structure Fits (gap : Gap) (extent : List Bytes) : Prop where
  behind : gap.start.after (extent.map Bytes.trim) = gap.behind
  silent : ∀ entry ∈ entriesFrom gap.start extent, entry.2.opensMethod = false

variable {gap : Gap} {extent : List Bytes}

theorem entries_rawLines
    (behind : gap.start.after (extent.map Bytes.trim) = gap.behind) :
    entries (gap.rawLines extent) =
      entries gap.before ++
        ((entriesFrom gap.start extent).map
            (IndexedLine.shift gap.before.length) ++
          (entriesFrom gap.behind gap.after).map
            (IndexedLine.shift (gap.before.length + extent.length))) := by
  change entriesFrom .body (gap.before ++ (extent ++ gap.after)) = _
  rw [entriesFrom_append, entriesFrom_append, List.map_append,
    IndexedLine.map_shift_shift, Nat.add_comm extent.length, ← behind]
  rfl

/-- Whichever lines fit in, the file can be divided. -/
theorem Fits.divided (fits : gap.Fits extent) :
    Divided (entries (gap.rawLines extent)) (gap.runs extent)
      (gap.others extent) := by
  rw [entries_rawLines fits.behind]
  refine gap.dividedBefore.append (.silent_append ?_ (gap.dividedAfter.shift _))
  intro entry member
  rcases List.mem_map.mp member with ⟨original, originalMember, rfl⟩
  exact fits.silent original originalMember

end Gap

/--
Around lines outside of methods, none of which opens one, a file is such a gap.
-/
theorem Divided.exists_gap
    {before extent after : List Bytes}
    {runs runsBefore : List (List IndexedLine)}
    {others othersBefore : List IndexedLine}
    (dividedBefore : Divided (entries before) runsBefore othersBefore)
    (silent : ∀ entry ∈
        entriesFrom (Region.after .body (before.map Bytes.trim)) extent,
      entry.2.opensMethod = false)
    (divided : Divided (entries (before ++ (extent ++ after))) runs others) :
    ∃ gap : Gap, gap.before = before ∧ gap.after = after ∧ gap.Fits extent ∧
      others = gap.others extent := by
  have whole : entries (before ++ (extent ++ after)) =
      entriesFrom .body (before ++ (extent ++ after)) := rfl
  rw [whole, entriesFrom_append, entriesFrom_append, List.map_append,
    IndexedLine.map_shift_shift] at divided
  rcases exists_of_divided_front dividedBefore divided with
    ⟨runsBehind, othersBehind, -, rfl, dividedBehind⟩
  have moved : ∀ entry ∈
        (entriesFrom (Region.after .body (before.map Bytes.trim)) extent).map
          (IndexedLine.shift before.length),
      entry.2.opensMethod = false := by
    intro entry member
    rcases List.mem_map.mp member with ⟨original, originalMember, rfl⟩
    exact silent original originalMember
  rcases dividedBehind.exists_of_silent moved with ⟨later, rfl, dividedAfter⟩
  rcases dividedAfter.exists_of_shift with
    ⟨runsAfter, othersAfter, original, -, rfl⟩
  refine ⟨⟨before, after, _, runsBefore, runsAfter, othersBefore, othersAfter,
    dividedBefore, original⟩, rfl, rfl, ⟨rfl, silent⟩, ?_⟩
  rw [Nat.add_comm extent.length]
  rfl

namespace Gap

theorem pending_append (front back : List IndexedLine) :
    pending (front ++ back) = pending front ++ pending back := by
  rw [pending, List.map_append, List.filter_append]
  rfl

/-- What a file with a gap declares stands around the gap or in it. -/
theorem declarations_others (gap : Gap) (extent : List Bytes) :
    Declaration.ofLines (pending (gap.others extent)) =
      Declaration.ofLines (pending gap.othersBefore) ++
        (Declaration.ofLines (pending (entriesFrom gap.start extent)) ++
          Declaration.ofLines (pending gap.othersAfter)) := by
  rw [others, pending_append, pending_append, ClassFile.pending_shift,
    ClassFile.pending_shift, Declaration.ofLines_append,
    Declaration.ofLines_append, Declaration.ofLines_renumber,
    Declaration.ofLines_renumber]

theorem fields_others (gap : Gap) (extent : List Bytes) :
    (Field.ofLines (pending (gap.others extent))).map Field.unnumbered =
      (Field.ofLines (pending gap.othersBefore)).map Field.unnumbered ++
        ((Field.ofLines (pending (entriesFrom gap.start extent))).map
          Field.unnumbered ++
          (Field.ofLines (pending gap.othersAfter)).map Field.unnumbered) := by
  rw [others, pending_append, pending_append, ClassFile.pending_shift,
    ClassFile.pending_shift, Field.ofLines_append, Field.ofLines_append,
    List.map_append, List.map_append, Field.ofLines_renumber,
    Field.ofLines_renumber]

end Gap

end Outline

namespace ClassFile

section Gaps

variable
  {settings limits : Settings}
  {path : String}
  {label : Nat}
  {source replaced : Bytes}
  {file : ClassFile}
  {gap : Outline.Gap}
  {extent other : List Bytes}

/--
With other lines in the gap that declare the same, a file is still accepted.
-/
theorem exists_read_of_fits
    (read : (ClassFile.read settings path label source).outcome = .ok file)
    (lines : Lines.split source = gap.rawLines extent)
    (fits : gap.Fits extent)
    (otherFits : gap.Fits other)
    (same :
      Declaration.ofLines
          (Outline.pending (Outline.entriesFrom gap.start other)) =
        Declaration.ofLines
          (Outline.pending (Outline.entriesFrom gap.start extent)))
    (otherLines : Lines.split replaced = gap.rawLines other)
    (admits : limits.Admits (Lines.split replaced))
    (place : String)
    (number : Nat) :
    file.DeclaredBy (Outline.pending (gap.others extent)) ∧
      ∃ changed,
        (ClassFile.read limits place number replaced).outcome = .ok changed ∧
        changed.DeclaredBy (Outline.pending (gap.others other)) := by
  have divided := fits.divided
  have otherDivided := otherFits.divided
  rw [← lines] at divided
  rw [← otherLines] at otherDivided
  have declared := declaredBy_pending read divided
  have describes := (Attributes.describes_ofLines (gap.others other)).descriptor
  rcases declared.type with ⟨modifiers, descriptor, last, -⟩
  rw [gap.declarations_others, same, ← gap.declarations_others, last]
    at describes
  have described :
      (Attributes.ofLines (gap.others other)).descriptor.isSome = true := by
    rw [describes]
    rfl
  rcases exists_read_of_divided admits otherDivided described place number with
    ⟨changed, changedRead, composed⟩
  exact ⟨declared, changed, changedRead,
    declaredBy_pending changedRead otherDivided⟩

/-- With other silent lines in the gap, a class declares the same. -/
theorem exists_sameDeclarations_of_isSilent
    (read : (ClassFile.read settings path label source).outcome = .ok file)
    (lines : Lines.split source = gap.rawLines extent)
    (behind : gap.start.after (extent.map Bytes.trim) = gap.behind)
    (otherBehind : gap.start.after (other.map Bytes.trim) = gap.behind)
    (silent : ∀ entry ∈ Outline.entriesFrom gap.start extent, entry.2.IsSilent)
    (otherSilent : ∀ entry ∈ Outline.entriesFrom gap.start other,
      entry.2.IsSilent)
    (otherLines : Lines.split replaced = gap.rawLines other)
    (admits : limits.Admits (Lines.split replaced))
    (place : String)
    (number : Nat) :
    ∃ changed,
      (ClassFile.read limits place number replaced).outcome = .ok changed ∧
      changed.SameDeclarations file := by
  have declarations :
      Declaration.ofLines
          (Outline.pending (Outline.entriesFrom gap.start other)) =
        Declaration.ofLines
          (Outline.pending (Outline.entriesFrom gap.start extent)) := by
    rw [Declaration.ofLines_of_isSilent silent,
      Declaration.ofLines_of_isSilent otherSilent]
  rcases exists_read_of_fits read lines
      ⟨behind, fun entry member => (silent entry member).opensMethod_eq_false⟩
      ⟨otherBehind,
        fun entry member => (otherSilent entry member).opensMethod_eq_false⟩
      declarations otherLines admits place number with
    ⟨declared, changed, changedRead, redeclared⟩
  refine ⟨changed, changedRead, declared.sameDeclarations redeclared ?_ ?_⟩
  · rw [gap.fields_others, gap.fields_others, Field.ofLines_of_isSilent silent,
      Field.ofLines_of_isSilent otherSilent]
  · rw [gap.declarations_others, gap.declarations_others, declarations]

end Gaps

/-! ## Inert lines -/

/-- Behind these lines a file goes on outside of its methods and regions. -/
structure Outside (before : List Bytes) : Prop where
  region : Region.after .body (before.map Bytes.trim) = .body
  divided : ∃ runs others, Outline.Divided (Outline.entries before) runs others

/--
Whatever stands around these lines, the class declares the same with other
enclosed lines in their place.
-/
def Inert (before within : List Bytes) : Prop :=
  ∀ (after other : List Bytes) (settings limits : Settings)
    (path place : String) (label number : Nat) (source replaced : Bytes)
    (file : ClassFile),
    Lines.split source = before ++ (within ++ after) →
    (ClassFile.read settings path label source).outcome = .ok file →
    Region.Enclosed (other.map Bytes.trim) →
    Lines.split replaced = before ++ (other ++ after) →
    limits.Admits (Lines.split replaced) →
    ∃ changed,
      (ClassFile.read limits place number replaced).outcome = .ok changed ∧
      changed.SameDeclarations file

section Inert

variable
  {before within after : List Bytes}
  {settings : Settings}
  {path : String}
  {label : Nat}
  {source : Bytes}
  {file : ClassFile}

/--
Held lines that begin at an unowned line which no region holds begin outside.
-/
theorem outside_of_read
    (read : (ClassFile.read settings path label source).outcome = .ok file)
    (lines : Lines.split source = before ++ (within ++ after))
    (held : Region.Held (within.map Bytes.trim))
    {line : Line}
    (found : file.lines[before.length]? = some line)
    (unowned : line.owner = none)
    (own : line.isGiven = false) :
    Outside before := by
  rcases exists_composed_of_read read with ⟨runs, others, composed⟩
  have free :
      ∀ line ∈ Line.scan .body 1 (Lines.split source), line.owner = none :=
    fun line => Line.owner_of_mem_scan
  have original := composed.original_of_owner free found unowned
  cases within with
  | nil =>
      rcases held.opens with ⟨opener, isHead, -⟩
      cases isHead
  | cons first rest =>
      rcases held.opens with ⟨opener, isHead, opens⟩
      cases isHead
      have scanned := Line.scan_append .body 1 before (first :: rest ++ after)
      rw [lines, scanned, List.getElem?_append_right (by rw [Line.length_scan]),
        Line.length_scan, Nat.sub_self, List.cons_append, Line.scan,
        List.getElem?_cons_zero, Option.some.injEq] at original
      have region : Region.after .body (before.map Bytes.trim) = .body := by
        have regional := Line.regional_scan
          (Region.after .body (before.map Bytes.trim)) (1 + before.length)
          (first :: rest)
        rw [← original] at own
        exact regional.region_eq_body own
      refine ⟨region, ?_⟩
      have split : Outline.indexed 0 (Line.scan .body 1 (Lines.split source)) =
          Outline.entries before ++ (before.length, line) ::
            Outline.indexed (before.length + 1)
              (Line.scan
                ((Region.after .body (before.map Bytes.trim)).next first.trim)
                (1 + before.length + 1) (rest ++ after)) := by
        rw [lines, scanned, Outline.indexed_append, Line.length_scan,
          List.cons_append, Line.scan, Outline.indexed_cons, original,
          Nat.zero_add]
        rfl
      refine composed.divided.exists_front split ?_
      intro run runMember member
      have plain : line.isLineDirective = false := by
        rw [← original, Line.isLineDirective,
          Region.startsWith_eq_false_of_opened opens (by decide),
          Bool.and_false]
      have owned := composed.owner_of_mem_run free runMember member plain found
      rw [unowned] at owned
      cases owned

/-- Enclosed lines outside of methods and regions are inert. -/
theorem Outside.inert_of_enclosed
    (outside : Outside before)
    (enclosed : Region.Enclosed (within.map Bytes.trim)) :
    Inert before within := by
  intro after other settings limits path place label number source replaced file
    lines read otherEnclosed otherLines admits
  rcases exists_composed_of_read read with ⟨runs, others, composed⟩
  have divided := composed.divided
  rw [lines] at divided
  rcases outside.divided with ⟨runsBefore, othersBefore, dividedBefore⟩
  have silent (extent : List Bytes)
      (isEnclosed : Region.Enclosed (extent.map Bytes.trim)) :
      ∀ entry ∈
          Outline.entriesFrom (Region.after .body (before.map Bytes.trim))
            extent,
        entry.2.IsSilent := by
    rw [outside.region]
    exact fun entry => Outline.isSilent_of_held isEnclosed.toHeld
  have opensNone := fun entry member =>
    (silent within enclosed entry member).opensMethod_eq_false
  rcases dividedBefore.exists_gap opensNone divided with
    ⟨gap, rfl, rfl, fits, -⟩
  have same : gap.start.after (other.map Bytes.trim) = gap.behind := by
    rw [← fits.behind, Outline.Gap.start, outside.region, enclosed.closed,
      otherEnclosed.closed]
  exact exists_sameDeclarations_of_isSilent read lines fits.behind same
    (silent within enclosed) (silent other otherEnclosed) otherLines admits
    place number

/-- The declaration of some field. -/
def someField : Bytes :=
  Bytes.ofString ".field f:I"

/-- The declaration of a field leaves no region. -/
theorem next_someField {region : Region} (counted : region ≠ .metadata 0) :
    region.next someField.trim = region := by
  have opens : Region.opened someField.trim = .body := by decide +kernel
  have closes : Region.closesMetadata someField.trim = false := by
    decide +kernel
  have nests : Region.nestsMetadata someField.trim = false := by decide +kernel
  have array : someField.trim.startsWith ".end array-data" = false := by
    decide +kernel
  have packed : someField.trim.startsWith ".end packed-switch" = false := by
    decide +kernel
  have sparse : someField.trim.startsWith ".end sparse-switch" = false := by
    decide +kernel
  cases region <;> simp_all [Region.next, Region.ofDepth]

/-- Held lines outside of methods and regions leave a gap behind them. -/
theorem Outside.exists_gap
    (outside : Outside before)
    (held : Region.Held (within.map Bytes.trim))
    (read : (ClassFile.read settings path label source).outcome = .ok file)
    (lines : Lines.split source = before ++ (within ++ after)) :
    ∃ gap : Outline.Gap, gap.before = before ++ within ∧ gap.after = after ∧
      gap.start = Region.after .body (within.map Bytes.trim) ∧
      gap.behind = gap.start := by
  rcases exists_composed_of_read read with ⟨runs, others, composed⟩
  have divided := composed.divided
  rw [lines, ← List.append_assoc, ← List.nil_append after] at divided
  rcases outside.divided with ⟨runsBefore, othersBefore, dividedBefore⟩
  have silent : ∀ entry ∈ Outline.entries within,
      entry.2.opensMethod = false :=
    fun entry member =>
      (Outline.isSilent_of_held held member).opensMethod_eq_false
  have dividedWithin := Outline.Divided.silent_append silent .nil
  rw [List.append_nil] at dividedWithin
  have dividedFront :=
    dividedBefore.append (dividedWithin.shift before.length)
  rw [← Outline.entries_append outside.region] at dividedFront
  have nothing (region : Region) :
      ∀ entry ∈ Outline.entriesFrom region [], entry.2.opensMethod = false :=
    fun entry member => by cases member
  rcases dividedFront.exists_gap (nothing _) divided with
    ⟨gap, front, rfl, fits, -⟩
  refine ⟨gap, front, rfl, ?_, fits.behind.symm⟩
  rw [Outline.Gap.start, front, List.map_append, Region.after_append,
    outside.region]

/-- The line that declares the field, in a region. -/
theorem entriesFrom_someField (region : Region) :
    Outline.entriesFrom region [someField] =
      [(0,
        { text := someField.trim
          number := 1
          reading := region.reading })] :=
  rfl

theorem length_fields_someField (region : Region) :
    (Field.ofLines
        (Outline.pending (Outline.entriesFrom region [someField]))).length =
      if region = .body then 1 else 0 := by
  rcases region.eq_body_or_reading with rfl | ⟨instruction, decided, -⟩
  · decide +kernel
  · have silent : ∀ entry ∈ Outline.entriesFrom region [someField],
        entry.2.IsSilent := by
      rw [entriesFrom_someField, List.forall_mem_singleton]
      right
      rw [Line.isGiven, decided]
    have inside : region ≠ .body := by
      rintro rfl
      cases decided
    rw [Field.ofLines_of_isSilent silent, if_neg inside]
    rfl

theorem declarations_someField (region : Region) :
    Declaration.ofLines
        (Outline.pending (Outline.entriesFrom region [someField])) =
      [] := by
  have starts : someField.trim.startsWith ".field" = true := by decide +kernel
  rw [Declaration.ofLines, List.filterMap_eq_nil_iff]
  intro line member
  rcases List.mem_filter.mp member with ⟨pending, plain⟩
  have inLines := (List.mem_filter.mp pending).1
  rw [entriesFrom_someField, List.map_singleton, List.mem_singleton] at inLines
  rw [inLines, starts] at plain
  cases plain

/-- Unbroken lines are those of some source, within some limits. -/
theorem exists_source
    {rawLines : List Bytes}
    (unbroken : ∀ raw ∈ rawLines, Lines.Unbroken raw) :
    ∃ (source : Bytes) (limits : Settings), Lines.split source = rawLines ∧
      limits.Admits (Lines.split source) := by
  rcases Lines.exists_split_eq unbroken with ⟨source, rfl⟩
  let size := (Lines.split source).flatten.length
  let limits : Settings :=
    { maxFileSize := size, maxLineLength := size, adPackages := [] }
  refine ⟨source, limits, rfl, ?_, Nat.le_refl size⟩
  intro raw member
  exact (List.sublist_flatten_of_mem member).length_le

theorem SameDeclarations.size_fields
    {file other : ClassFile}
    (same : file.SameDeclarations other) :
    file.fields.size = other.fields.size := by
  have lengths := congrArg List.length same.fields
  rwa [List.length_map, List.length_map, Array.length_toList,
    Array.length_toList] at lengths

/-- A field behind held lines is counted if the lines are enclosed. -/
theorem Outside.exists_read_someField
    (outside : Outside before)
    (held : Region.Held (within.map Bytes.trim))
    (read : (ClassFile.read settings path label source).outcome = .ok file)
    (lines : Lines.split source = before ++ (within ++ after))
    {limits : Settings}
    {extended : Bytes}
    (extendedLines :
      Lines.split extended = before ++ (within ++ someField :: after))
    (admits : limits.Admits (Lines.split extended))
    (place : String)
    (number : Nat) :
    ∃ changed,
      (ClassFile.read limits place number extended).outcome = .ok changed ∧
      changed.fields.size =
        file.fields.size +
          if Region.after .body (within.map Bytes.trim) = .body
            then 1 else 0 := by
  rcases outside.exists_gap held read lines with
    ⟨gap, front, rfl, start, behind⟩
  have gapLines (extent : List Bytes) :
      gap.rawLines extent = before ++ (within ++ (extent ++ gap.after)) := by
    rw [Outline.Gap.rawLines, front, List.append_assoc]
  have counted : gap.start ≠ .metadata 0 := by
    rw [start]
    exact Region.after_ne_metadata_zero (by simp) _
  have fits : gap.Fits [] := ⟨behind.symm, fun entry member => by cases member⟩
  have fieldFits : gap.Fits [someField] := by
    refine ⟨(next_someField counted).trans behind.symm, ?_⟩
    have plain : someField.trim.startsWith ".method" = false := by
      decide +kernel
    rw [entriesFrom_someField, List.forall_mem_singleton, Line.opensMethod,
      plain, Bool.and_false]
  rcases exists_read_of_fits read (lines.trans (gapLines []).symm) fits
      fieldFits (declarations_someField gap.start)
      (extendedLines.trans (gapLines [someField]).symm) admits place number with
    ⟨declared, changed, changedRead, redeclared⟩
  refine ⟨changed, changedRead, ?_⟩
  have without := congrArg List.length (gap.fields_others [])
  have withField := congrArg List.length (gap.fields_others [someField])
  have nothing (region : Region) :
      Field.ofLines (Outline.pending (Outline.entriesFrom region [])) = [] :=
    rfl
  simp only [List.length_append, List.length_map, nothing, List.length_nil,
    length_fields_someField, start] at without withField
  rw [← Array.length_toList, ← Array.length_toList, declared.fields,
    redeclared.fields, without, withField]
  omega

/-- Held lines are inert only if they are enclosed. -/
theorem Outside.enclosed_of_inert
    (outside : Outside before)
    (held : Region.Held (within.map Bytes.trim))
    (inert : Inert before within)
    (read : (ClassFile.read settings path label source).outcome = .ok file)
    (lines : Lines.split source = before ++ (within ++ after)) :
    Region.Enclosed (within.map Bytes.trim) := by
  let plain : List Bytes :=
    [".annotation", ".end annotation"].map Bytes.ofString
  have enclosed : Region.Enclosed (plain.map Bytes.trim) := by
    have balanced : Metadata.Balanced (plain.map Bytes.trim) :=
      .intro (by decide +kernel) .nil (by decide +kernel)
    exact balanced.enclosed_iff.mpr (by decide +kernel)
  have unbroken : ∀ raw ∈ before ++ (within ++ after) ++ someField :: plain,
      Lines.Unbroken raw := by
    rw [List.forall_mem_append, ← lines]
    exact ⟨fun raw => Lines.unbroken_of_mem_split, by decide +kernel⟩
  have exists_part (rawLines : List Bytes)
      (part : rawLines ⊆ before ++ (within ++ after) ++ someField :: plain) :=
    exists_source fun raw member => unbroken raw (part member)
  -- There are four files: with the held lines or plain ones, and with or
  -- without a field behind them.
  rcases exists_part (before ++ (within ++ someField :: after)) (by grind) with
    ⟨heldSource, heldLimits, heldLines, heldAdmits⟩
  rcases exists_part (before ++ (plain ++ after)) (by grind) with
    ⟨plainSource, plainLimits, plainLines, plainAdmits⟩
  rcases exists_part (before ++ (plain ++ someField :: after)) (by grind) with
    ⟨lastSource, lastLimits, lastLines, lastAdmits⟩
  rcases outside.exists_read_someField held read lines heldLines
      heldAdmits "" 0 with
    ⟨heldFile, heldRead, heldSize⟩
  rcases inert _ plain _ _ _ "" _ 0 _ _ _ lines read enclosed
      plainLines plainAdmits with
    ⟨plainFile, plainRead, plainSame⟩
  rcases inert _ plain _ _ _ "" _ 0 _ _ _ heldLines heldRead enclosed lastLines
      lastAdmits with
    ⟨lastFile, lastRead, lastSame⟩
  rcases outside.exists_read_someField enclosed.toHeld plainRead plainLines
      lastLines lastAdmits "" 0 with
    ⟨other, otherRead, otherSize⟩
  rw [lastRead, Except.ok.injEq] at otherRead
  subst otherRead
  -- The field is counted behind the plain lines, so it is behind the held ones.
  refine ⟨held, Decidable.byContradiction fun left => ?_⟩
  rw [if_neg left] at heldSize
  rw [if_pos enclosed.closed, lastSame.size_fields, plainSame.size_fields,
    heldSize] at otherSize
  omega

end Inert

/--
An accepted file declares what the lines outside of its methods and regions
declare: all fields and interfaces in their order, and the last class, super
class and source file.  None of these lines has been classified before the
attributes are collected.  Whichever closed method replaces one of its methods,
the class declares the same.

So it does for the lines that a region holds exactly if they are enclosed.
Array contents are, and so is a table in which no bracket of the other form
closes it.  Of metadata the text has no influence exactly if no value line hides
the nesting word in a string literal.
-/
theorem declared_outside_bodies
    {settings : Settings}
    {path : String}
    {label : Nat}
    {source : Bytes}
    {file : ClassFile}
    (read : (ClassFile.read settings path label source).outcome = .ok file) :
    file.DeclaredBy file.declaring ∧
    (∀ (id : Nat) (line : Line),
      file.lines[id]? = some line → line.owner = none →
      (line.knownKind? = none ↔ line.isGiven = false)) ∧
    (∀ (index : Nat) (method : Method) (other : List Bytes) (limits : Settings)
      (place : String) (number : Nat) (replaced : Bytes),
      file.methods[index]? = some method →
      Outline.IsRun (Outline.entries other) →
      Lines.split replaced = (Lines.split source).take method.first ++
        (other ++ (Lines.split source).drop (method.last + 1)) →
      limits.Admits (Lines.split replaced) →
      ∃ changed,
        (ClassFile.read limits place number replaced).outcome = .ok changed ∧
        changed.SameDeclarations file) ∧
    ∀ (before within after : List Bytes) (line : Line),
      Lines.split source = before ++ (within ++ after) →
      file.lines[before.length]? = some line →
      line.owner = none →
      line.isGiven = false →
      (Region.Held (within.map Bytes.trim) →
        (Inert before within ↔ Region.Enclosed (within.map Bytes.trim))) ∧
      (Region.ArrayBody (within.map Bytes.trim) → Inert before within) ∧
      (∀ form : TableForm, Region.TableBody form (within.map Bytes.trim) →
        (∀ raw ∈ within, ∀ other : TableForm, other.isClosedBy raw.trim = true →
          other = form) →
        Inert before within) ∧
      (Metadata.Balanced (within.map Bytes.trim) →
        (Inert before within ↔
          ∀ raw ∈ within, Metadata.isValue raw.trim = true →
            ¬Metadata.nestingWord <:+: raw.trim)) := by
  refine ⟨declaredBy_declaring read, ?_, ?_, ?_⟩
  · intro id line found unowned
    exact knownKind?_eq_none_iff_of_read read found unowned
  · intro index method other limits place number replaced found isRun
      lines admits
    exact exists_sameDeclarations read found isRun lines admits place number
  · intro before within after line lines found unowned own
    have inert_iff (held : Region.Held (within.map Bytes.trim)) :
        Inert before within ↔ Region.Enclosed (within.map Bytes.trim) := by
      have outside := outside_of_read read lines held found unowned own
      constructor
      · intro inert
        exact outside.enclosed_of_inert held inert read lines
      · exact outside.inert_of_enclosed
    have inert_of_enclosed
        (enclosed : Region.Enclosed (within.map Bytes.trim)) :=
      (inert_iff enclosed.toHeld).mpr enclosed
    refine ⟨inert_iff, ?_, ?_, ?_⟩
    · intro body
      exact inert_of_enclosed body.enclosed
    · intro form body single
      exact inert_of_enclosed
        (body.enclosed_iff.mpr (List.forall_mem_map.mpr single))
    · intro balanced
      rw [inert_iff balanced.held, balanced.enclosed_iff, List.forall_mem_map]

/-- A class that is declared around these lines, of a region and of a method. -/
def declaredAround (region method : List String) : Bytes :=
  sourceOf ([".class public LA;", ".super LB;"] ++ region ++ [".field a:I"] ++
    method ++ [".super LC;", ".implements LD;", ".field c:I"])

/-- The lines of metadata that look like a class. -/
def misleadingMetadata : List String :=
  [".annotation build LX;", ".super LHidden;", ".field hidden:I",
    ".end annotation"]

/-- The lines of array contents that look like a class. -/
def misleadingArray : List String :=
  [".array-data 1", ".class LHidden;", ".end array-data"]

/-- The lines of a method that looks like a class. -/
def misleadingLines : List String :=
  [".method public a()V", ".line 1", ".class LInside;", ".super LInside;",
    ".field inside:I", ".end method"]

theorem balanced_misleadingMetadata :
    Metadata.Balanced
      ((misleadingMetadata.map Bytes.ofString).map Bytes.trim) := by
  refine .intro ?_ (.value ?_ (.value ?_ .nil)) ?_
  all_goals decide +kernel

theorem arrayBody_misleadingArray :
    Region.ArrayBody ((misleadingArray.map Bytes.ofString).map Bytes.trim) := by
  refine .intro ?_ (List.forall_mem_singleton.mpr ?_) ?_
  all_goals decide +kernel

/--
The last super class counts, and neither metadata nor the method declares
anything.
-/
theorem declared_outside_misleadingLines :
    ∃ file method line opener changed other,
      (ClassFile.read Settings.standard "" 0
        (declaredAround misleadingMetadata misleadingLines)).outcome =
          .ok file ∧
      (file.name, file.superClass, file.interfaces.toList,
        file.fields.toList.map Field.name) =
          ("A", some "C", ["D"], ["a", "c"]) ∧
      file.DeclaredBy file.declaring ∧
      file.lines[13]? = some line ∧ line.owner = none ∧ line.isGiven = false ∧
      line.knownKind? = none ∧
      file.methods[0]? = some method ∧
      Outline.IsRun (Outline.entries (brokenLines.map Bytes.ofString)) ∧
      (ClassFile.read Settings.standard "" 0
        (declaredAround misleadingMetadata brokenLines)).outcome = .ok changed ∧
      changed.SameDeclarations file ∧
      file.lines[2]? = some opener ∧ opener.owner = none ∧
      opener.isGiven = false ∧
      Metadata.Balanced
        ((misleadingMetadata.map Bytes.ofString).map Bytes.trim) ∧
      (ClassFile.read Settings.standard "" 0
        (declaredAround misleadingArray misleadingLines)).outcome = .ok other ∧
      other.SameDeclarations file := by
  have view : (ClassFile.read Settings.standard "" 0
      (declaredAround misleadingMetadata misleadingLines)).outcome.toOption.map
        (fun file => (file.name, file.superClass, file.interfaces.toList,
          file.fields.toList.map Field.name)) =
      some ("A", some "C", ["D"], ["a", "c"]) := by
    decide +kernel
  have placeView : (ClassFile.read Settings.standard "" 0
      (declaredAround misleadingMetadata misleadingLines)).outcome.toOption.map
        (fun file =>
          (file.lines[13]?.map fun line => (line.owner, line.isGiven),
          file.lines[2]?.map fun line => (line.owner, line.isGiven),
          file.methods[0]?.map fun method => (method.first, method.last))) =
      some (some (none, false), some (none, false), some (7, 12)) := by
    decide +kernel
  have methodLines :
      let lines :=
        Lines.split (declaredAround misleadingMetadata misleadingLines)
      Lines.split (declaredAround misleadingMetadata brokenLines) =
        lines.take 7 ++
          (brokenLines.map Bytes.ofString ++ lines.drop (12 + 1)) := by
    decide +kernel
  have regionLines (region : List String)
      (known : region = misleadingMetadata ∨ region = misleadingArray) :
      Lines.split (declaredAround region misleadingLines) =
        [".class public LA;", ".super LB;"].map Bytes.ofString ++
          (region.map Bytes.ofString ++
            ([".field a:I"] ++ misleadingLines ++
              [".super LC;", ".implements LD;", ".field c:I"]).map
                Bytes.ofString) := by
    rcases known with rfl | rfl <;> decide +kernel
  have isRun :
      Outline.IsRun (Outline.entries (brokenLines.map Bytes.ofString)) := by
    refine .intro ?_ (.step ?_ ?_ (.close ?_))
    all_goals decide +kernel
  rcases exists_ok_of_view view with ⟨file, read, declared⟩
  rw [read] at placeView
  have shown := Option.some.inj placeView
  simp only [Prod.mk.injEq, Option.map_eq_some_iff] at shown
  rcases shown with ⟨⟨line, lineFound, unowned, own⟩,
    ⟨opener, openerFound, openerUnowned, openerOwn⟩, method, found, first, last⟩
  rw [← first, ← last] at methodLines
  rcases declared_outside_bodies read with
    ⟨declaredBy, unclassified, replaced, inRegions⟩
  rcases replaced 0 method _ Settings.standard "" 0 _ found isRun methodLines
    (by decide +kernel) with ⟨changed, changedRead, same⟩
  have metadataLines := regionLines misleadingMetadata (Or.inl rfl)
  have arrayLines := regionLines misleadingArray (Or.inr rfl)
  rcases inRegions _ _ _ opener metadataLines openerFound openerUnowned
      openerOwn with
    ⟨-, -, -, inert_iff⟩
  have inert := (inert_iff balanced_misleadingMetadata).mpr (by decide +kernel)
  rcases inert _ _ _ Settings.standard _ "" _ 0 _ _ file metadataLines read
      arrayBody_misleadingArray.enclosed arrayLines (by decide +kernel) with
    ⟨other, otherRead, otherSame⟩
  exact ⟨file, method, line, opener, changed, other, read, declared, declaredBy,
    lineFound, unowned, own, (unclassified 13 line lineFound unowned).mpr own,
    found, isRun, changedRead, same, openerFound, openerUnowned, openerOwn,
    balanced_misleadingMetadata, otherRead, otherSame⟩

/-- A class that goes on behind metadata with this value. -/
def declaredBehind (value : String) : Bytes :=
  sourceOf [".class public LA;", ".annotation build LX;", value,
    ".end annotation", ".super LB;", ".field f:I"]

/--
A class with this text in a table, behind a closing bracket of the other form.
-/
def declaredInTable (text : String) : Bytes :=
  sourceOf [".class public LA;", ".packed-switch 0x0", ".end sparse-switch",
    text, ".end packed-switch"]

/--
A value line decides whether anything behind its metadata is declared, and a
table declares what stands behind a closing bracket of the other form.
-/
theorem declarations_changed_inside_bodies :
    Metadata.Balanced
      ([".annotation build LX;", "value = \".subannotation\"",
        ".end annotation"].map Bytes.ofString) ∧
    (ClassFile.read Settings.standard "" 0
      (declaredBehind "value = \".subannotation\"")).outcome.toOption.map
        (fun file => (file.superClass, file.fields.toList.map Field.name)) =
      some (none, []) ∧
    (ClassFile.read Settings.standard "" 0
      (declaredBehind "value = \"\"")).outcome.toOption.map
        (fun file => (file.superClass, file.fields.toList.map Field.name)) =
      some (some "B", ["f"]) ∧
    Region.TableBody .packed
      ([".packed-switch 0x0", ".end sparse-switch", ".field f:I",
        ".end packed-switch"].map Bytes.ofString) ∧
    (ClassFile.read Settings.standard "" 0
      (declaredInTable ".field f:I")).outcome.toOption.map
        (fun file => file.fields.toList.map Field.name) =
      some ["f"] ∧
    (ClassFile.read Settings.standard "" 0
      (declaredInTable ":case")).outcome.toOption.map
        (fun file => file.fields.toList.map Field.name) =
      some [] := by
  refine ⟨.intro ?_ (.value ?_ .nil) ?_, ?_, ?_,
    @Region.TableBody.intro .packed _ _ [_, _] ?_ ?_ ?_, ?_, ?_⟩
  all_goals decide +kernel

end ClassFile

end SmaliFlow
