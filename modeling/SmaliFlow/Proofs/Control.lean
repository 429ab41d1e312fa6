import SmaliFlow.Flow.Guard
import SmaliFlow.Proofs.Listing

/-!
# Where control may go

The relations of this module say where control may pass in a method, by
comparing the positions of its rows.  They mention no search: a label resolves
to the first row that carries it, a table belongs to the label row in front of
it, a guarded range ends at the last row in it that is executed.

Each relation is followed by the statement that the corresponding function on
listings computes it.
-/

namespace SmaliFlow.Flow

/-! ## Labels -/

namespace Row

/--
The row stands outside every table and is the label line with the given name.
-/
def Carries (row : Row) (name : Bytes) : Prop :=
  row.inTable = false ∧ row.instruction = .label (some name)

theorem defines_iff (row : Row) (name : Bytes) :
    row.defines name = true ↔ row.Carries name := by
  unfold defines definedLabel? Carries
  cases row.inTable with
  | true => simp
  | false => cases row.instruction <;> simp

theorem isCode_of_kind
    {row : Row}
    {family : Family}
    (kind : row.kind = .code family) :
    row.isCode = true := by
  rw [Row.kind] at kind
  rw [isCode, Instruction.isCode, kind]
  rfl

/--
Control may pass from the row to the next one: it is no goto, no return and no
throw.
-/
def GoesOn (row : Row) : Prop :=
  row.kind ≠ .code .goto ∧ row.kind ≠ .code .returns ∧ row.kind ≠ .code .throws

theorem endsFlow_eq_false_iff (row : Row) :
    row.instruction.endsFlow = false ↔ row.GoesOn := by
  unfold GoesOn kind Instruction.endsFlow
  cases row.instruction.kind with
  | code family => cases family <;> simp [Kind.endsFlow, Family.endsFlow]
  | _ => simp [Kind.endsFlow]

end Row

namespace Listing

/-- A name resolves to the first row that carries it. -/
structure Resolves (listing : Listing) (name : Bytes) (row : Row) : Prop where
  member : row ∈ listing
  carries : row.Carries name
  first : ∀ other ∈ listing, other.Carries name → row.position ≤ other.position

theorem Resolves.mem_body
    {listing : Listing}
    {name : Bytes}
    {row : Row}
    (resolves : listing.Resolves name row) :
    row ∈ listing.body :=
  (listing.mem_body_iff row).mpr ⟨resolves.member, resolves.carries.1⟩

theorem Resolves.unique
    {listing : Listing}
    (positioned : listing.Positioned)
    {name : Bytes}
    {left right : Row}
    (leftResolves : listing.Resolves name left)
    (rightResolves : listing.Resolves name right) :
    left = right := by
  apply positioned.eq_of_position_eq leftResolves.member rightResolves.member
  exact Nat.le_antisymm
    (leftResolves.first right rightResolves.member rightResolves.carries)
    (rightResolves.first left leftResolves.member leftResolves.carries)

theorem label?_eq_some_iff
    {listing : Listing}
    (positioned : listing.Positioned)
    (name : Bytes)
    (row : Row) :
    listing.label? name = some row ↔ listing.Resolves name row := by
  rw [label?, positioned.ascending.find?_eq_some_iff]
  simp only [Row.defines_iff]
  constructor
  · rintro ⟨member, carries, first⟩
    exact ⟨member, carries, first⟩
  · intro resolves
    exact ⟨resolves.member, resolves.carries, resolves.first⟩

theorem resolve_eq_ok_iff
    {listing : Listing}
    (positioned : listing.Positioned)
    (name : Bytes)
    (row : Row) :
    listing.resolve name = .ok row ↔ listing.Resolves name row := by
  rw [← label?_eq_some_iff positioned, resolve]
  cases listing.label? name <;> simp

/-- The label in the operand of a row resolves to the given row. -/
def JumpsTo (listing : Listing) (source target : Row) : Prop :=
  ∃ name, source.instruction.label? = some name ∧ listing.Resolves name target

theorem JumpsTo.unique
    {listing : Listing}
    (positioned : listing.Positioned)
    {source left right : Row}
    (leftJumps : listing.JumpsTo source left)
    (rightJumps : listing.JumpsTo source right) :
    left = right := by
  rcases leftJumps with ⟨leftName, leftOperand, leftResolves⟩
  rcases rightJumps with ⟨rightName, rightOperand, rightResolves⟩
  rw [leftOperand, Option.some.injEq] at rightOperand
  subst rightName
  exact leftResolves.unique positioned rightResolves

theorem JumpsTo.mem_body
    {listing : Listing}
    {source target : Row}
    (jumps : listing.JumpsTo source target) :
    target ∈ listing.body := by
  rcases jumps with ⟨name, operand, resolves⟩
  exact resolves.mem_body

/-! ## Switch tables -/

/-- The table that the label row stands in front of is opened by `opener`. -/
structure Opens (listing : Listing) (label opener : Row) : Prop where
  member : opener ∈ listing
  after : label.position < opener.position
  inTable : opener.inTable = true
  between : ∀ row ∈ listing, label.position < row.position →
    row.position < opener.position → row.mayPrecedeTable = true

/-- A label row stands in front of at most one table. -/
theorem Opens.unique
    {listing : Listing}
    (positioned : listing.Positioned)
    {label left right : Row}
    (leftOpens : listing.Opens label left)
    (rightOpens : listing.Opens label right) :
    left = right := by
  apply positioned.eq_of_position_eq leftOpens.member rightOpens.member
  apply Nat.le_antisymm
  · by_contra later
    have passed :=
      leftOpens.between right rightOpens.member rightOpens.after (by omega)
    simp [Row.mayPrecedeTable, rightOpens.inTable] at passed
  · by_contra later
    have passed :=
      rightOpens.between left leftOpens.member leftOpens.after (by omega)
    simp [Row.mayPrecedeTable, leftOpens.inTable] at passed

/--
The table in front of which a label row stands begins where the rows may not
precede one.
-/
theorem opens_iff
    {listing : Listing}
    (positioned : listing.Positioned)
    (label opener : Row) :
    listing.Opens label opener ↔
      ((listing.after label).dropWhile Row.mayPrecedeTable).head? =
        some opener ∧
        opener.inTable = true := by
  have ascending : Ascending (listing.after label) :=
    positioned.ascending.sublist (List.drop_sublist _ _)
  rw [ascending.head?_dropWhile_eq_some_iff]
  simp only [after, positioned.mem_drop_iff, Nat.succ_le_iff]
  constructor
  · intro opens
    refine ⟨⟨⟨opens.member, opens.after⟩, ?_, ?_⟩, opens.inTable⟩
    · simp [Row.mayPrecedeTable, opens.inTable]
    · rintro row ⟨member, behind⟩ before
      exact opens.between row member behind before
  · rintro ⟨⟨⟨member, behind⟩, -, between⟩, inTable⟩
    exact ⟨member, behind, inTable, fun row rowMember rowBehind =>
      between row ⟨rowMember, rowBehind⟩⟩

/--
The table that the label row stands in front of has a target in the row `entry`.
-/
structure HasEntry (listing : Listing) (label entry : Row) : Prop where
  member : entry ∈ listing
  holdsTarget : entry.holdsTarget = true
  inside : ∃ opener,
    listing.Opens label opener ∧ opener.position < entry.position ∧
    ∀ row ∈ listing,
      opener.position < row.position → row.position ≤ entry.position →
      row.inTable = true ∧ row.closesTable = false

/-- The target written in a row of a table is the given row. -/
def EntryLeadsTo (listing : Listing) (entry target : Row) : Prop :=
  ∃ name rest, SwitchTable.scanTarget? entry.text = some (name, rest) ∧
    listing.Resolves name target

/-- One of the targets in the table that a switch names is the given row. -/
def SwitchesTo (listing : Listing) (source target : Row) : Prop :=
  ∃ label entry, listing.JumpsTo source label ∧ listing.HasEntry label entry ∧
    listing.EntryLeadsTo entry target

theorem SwitchesTo.mem_body
    {listing : Listing}
    {source target : Row}
    (switches : listing.SwitchesTo source target) :
    target ∈ listing.body := by
  rcases switches with
    ⟨label, entry, jumps, hasEntry, name, rest, scanned, resolves⟩
  exact resolves.mem_body

/-! ## Guarded ranges -/

/--
A directive of the method guards the range by the handler, all labels being
resolved.
-/
def HasGuard (listing : Listing) (guard : Guard) : Prop :=
  ∃ row ∈ listing, ∃ directive, row.instruction = .guard directive ∧
    listing.Resolves directive.first guard.first ∧
    listing.Resolves directive.last guard.last ∧
    listing.Resolves directive.handler guard.handler

theorem HasGuard.handler_mem_body
    {listing : Listing}
    {guard : Guard}
    (guards : listing.HasGuard guard) :
    guard.handler ∈ listing.body := by
  rcases guards with ⟨row, member, directive, written, first, last, handler⟩
  exact handler.mem_body

/-- The row lies between two others, which are included. -/
def InRange (listing : Listing) (first last row : Row) : Prop :=
  row ∈ listing ∧ first.position ≤ row.position ∧ row.position ≤ last.position

/--
The last executed row of a range, or the end of the range if nothing in it is
executed.
-/
def IsLastProtected (listing : Listing) (first last row : Row) : Prop :=
  (listing.InRange first last row ∧ row.isCode = true ∧
    ∀ other, listing.InRange first last other → other.isCode = true →
      other.position ≤ row.position) ∨
  (row = last ∧ ∀ other,
    listing.InRange first last other → other.isCode = false)

/--
The first row after a range that is no directive, no comment and not blank.
-/
structure Continues (listing : Listing) (last row : Row) : Prop where
  member : row ∈ listing
  after : last.position < row.position
  stops : row.mayFollowRange = false
  between : ∀ other ∈ listing, last.position < other.position →
    other.position < row.position → other.mayFollowRange = true

theorem mem_between_iff
    {listing : Listing}
    (positioned : listing.Positioned)
    (first last row : Row) :
    row ∈ listing.between first last ↔ listing.InRange first last row := by
  constructor
  · intro member
    rcases List.mem_iff_getElem?.mp member with ⟨index, found⟩
    rw [between, List.getElem?_take, Option.ite_none_right_eq_some,
      List.getElem?_drop] at found
    rcases found with ⟨inside, found⟩
    have position := positioned _ row found
    exact ⟨List.mem_of_getElem? found, by omega, by omega⟩
  · rintro ⟨member, after, before⟩
    apply List.mem_iff_getElem?.mpr
    refine ⟨row.position - first.position, ?_⟩
    rw [between, List.getElem?_take_of_lt (by omega), List.getElem?_drop,
      Nat.add_sub_cancel' after]
    exact positioned.getElem?_position member

theorem isLastProtected_lastProtected
    {listing : Listing}
    (positioned : listing.Positioned)
    (first last : Row) :
    listing.IsLastProtected first last (listing.lastProtected first last) := by
  have ascending : Ascending (listing.between first last) :=
    positioned.ascending.sublist
      ((List.take_sublist _ _).trans (List.drop_sublist _ _))
  unfold lastProtected
  cases found : ((listing.between first last).filter Row.isCode).getLast? with
  | none =>
      right
      refine ⟨rfl, ?_⟩
      intro other inRange
      have member := (mem_between_iff positioned first last other).mpr inRange
      rw [List.getLast?_eq_none_iff, List.filter_eq_nil_iff] at found
      simpa using found other member
  | some row =>
      left
      rw [ascending.getLast?_filter_eq_some_iff] at found
      rcases found with ⟨member, code, greatest⟩
      refine ⟨(mem_between_iff positioned first last row).mp member, code, ?_⟩
      intro other inRange
      exact greatest other ((mem_between_iff positioned first last other).mpr
        inRange)

theorem IsLastProtected.first_le
    {listing : Listing}
    {first last row : Row}
    (isLast : listing.IsLastProtected first last row)
    (ordered : first.position ≤ last.position) :
    first.position ≤ row.position := by
  rcases isLast with ⟨inRange, -, -⟩ | ⟨rfl, -⟩
  · exact inRange.2.1
  · exact ordered

theorem IsLastProtected.le_of_code
    {listing : Listing}
    {first last row other : Row}
    (isLast : listing.IsLastProtected first last row)
    (inRange : listing.InRange first last other)
    (code : other.isCode = true) :
    other.position ≤ row.position := by
  rcases isLast with ⟨-, -, greatest⟩ | ⟨-, quiet⟩
  · exact greatest other inRange code
  · simp [quiet other inRange] at code

/-- A range has only one last protected row. -/
theorem IsLastProtected.unique
    {listing : Listing}
    (positioned : listing.Positioned)
    {first last left right : Row}
    (leftLast : listing.IsLastProtected first last left)
    (rightLast : listing.IsLastProtected first last right) :
    left = right := by
  rcases leftLast with ⟨leftInside, leftCode, leftGreatest⟩ | ⟨rfl, leftQuiet⟩
  · rcases rightLast with
      ⟨rightInside, rightCode, rightGreatest⟩ | ⟨rfl, rightQuiet⟩
    · apply positioned.eq_of_position_eq leftInside.1 rightInside.1
      exact Nat.le_antisymm
        (rightGreatest left leftInside leftCode)
          (leftGreatest right rightInside rightCode)
    · simp [rightQuiet left leftInside] at leftCode
  · rcases rightLast with ⟨rightInside, rightCode, -⟩ | ⟨rfl, -⟩
    · simp [leftQuiet right rightInside] at rightCode
    · rfl

theorem lastProtected_eq_iff
    {listing : Listing}
    (positioned : listing.Positioned)
    (first last row : Row) :
    listing.lastProtected first last = row ↔
      listing.IsLastProtected first last row := by
  constructor
  · rintro rfl
    exact isLastProtected_lastProtected positioned first last
  · exact (isLastProtected_lastProtected positioned first last).unique
      positioned

theorem continuation?_eq_some_iff
    {listing : Listing}
    (positioned : listing.Positioned)
    (last row : Row) :
    listing.continuation? last = some row ↔ listing.Continues last row := by
  have ascending : Ascending (listing.after last) :=
    positioned.ascending.sublist (List.drop_sublist _ _)
  rw [continuation?, ascending.head?_dropWhile_eq_some_iff]
  simp only [after, positioned.mem_drop_iff, Nat.succ_le_iff]
  constructor
  · rintro ⟨⟨member, after⟩, stops, between⟩
    refine ⟨member, after, stops, ?_⟩
    intro other otherMember otherAfter
    exact between other ⟨otherMember, otherAfter⟩
  · rintro ⟨member, after, stops, between⟩
    refine ⟨⟨member, after⟩, stops, ?_⟩
    rintro other ⟨otherMember, otherAfter⟩
    exact between other otherMember otherAfter

end Listing

end SmaliFlow.Flow
