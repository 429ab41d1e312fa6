import SmaliFlow.Flow.Index

/-!
# Links

A link says that control may pass from one row of a method to another.  Jumps
lead to the row that defines their label, conditional branches also to the row
that follows them, and switches to every target of their table.
-/

namespace SmaliFlow.Flow

/-- A possible passage of control between two rows. -/
structure Link where
  source : Row
  target : Row
  /--
  Whether the target begins a block.  The row that follows a conditional branch
  need not begin one.
  -/
  cuts : Bool
  deriving DecidableEq, Repr

namespace Row

/-- Whether a row may stand between the label of a table and the table. -/
def mayPrecedeTable (row : Row) : Bool :=
  !row.inTable &&
    match row.kind with
    | .label | .comment | .blank => true
    | _ => false

/-- Whether a row closes a table of either form. -/
def closesTable (row : Row) : Bool :=
  TableForm.packed.isClosedBy row.text || TableForm.sparse.isClosedBy row.text

/-- Whether a row of a table holds a target. -/
def holdsTarget (row : Row) : Bool :=
  !row.text.isEmpty && !row.text.startsWith "#"

/-- The label that names the table of a switch. -/
def tableName? (row : Row) : Option Bytes :=
  if row.kind == .code .switch then row.instruction.label? else none

end Row

namespace Index

/-! ## Tables -/

/-- The row that a target in a table leads to. -/
def tableTarget (index : Index) (row : Row) : Except Fault Row :=
  match SwitchTable.scanTarget? row.text with
  | some (name, _) => index.resolve name
  | none => .error (.malformedTarget row.number)

/--
The rows that the table after the given label row leads to, each of them once.
-/
def tableTargets (index : Index) (label : Row) : Except Fault (List Row) :=
  match (index.listing.after label).dropWhile Row.mayPrecedeTable with
  | [] => .error (.missingPayload label.text)
  | opener :: rows =>
      if opener.inTable then do
        let isInside := fun row : Row => row.inTable && !row.closesTable
        let targets ←
          ((rows.takeWhile isInside).filter Row.holdsTarget).mapM
            index.tableTarget
        match (rows.dropWhile isInside).head? with
        | some row =>
            if row.inTable then
              return targets.eraseDups
            else
              throw (.openTable label.text)
        | none => throw (.openTable label.text)
      else
        .error (.missingPayload label.text)

/-- The rows that the table with the given label leads to. -/
def switchTargets (index : Index) (name : Bytes) : Except Fault (List Row) := do
  let label ← index.resolve name
  index.tableTargets label

/-- The tables of all switches, by the names of their labels. -/
def tables (index : Index) : Std.TreeMap Bytes (Except Fault (List Row)) :=
  Tabulation.ofNames index.switchTargets
    (index.listing.body.filterMap Row.tableName?)

/-! ## Jumps and switches -/

/-- The row that a jump leads to. -/
def jumpTarget (index : Index) (row : Row) : Except Fault Row :=
  match row.instruction.label? with
  | some name => index.resolve name
  | none => .error (.missingTarget row.number)

/--
The links of a row outside every table, given the targets behind the name of a
table.
-/
def rowLinks
    (index : Index)
    (switchTargets : Bytes → Except Fault (List Row))
    (row : Row) : Except Fault (List Link) :=
  match row.kind with
  | .code .goto => do
      let target ← index.jumpTarget row
      return [{ source := row, target, cuts := true }]
  | .code .branch => do
      let target ← index.jumpTarget row
      let next := (index.next? row).toList
      return { source := row, target, cuts := true } ::
        next.map fun target => { source := row, target, cuts := false }
  | .code .switch =>
      match row.instruction.label? with
      | some name => do
          let targets ← switchTargets name
          return targets.map fun target =>
            { source := row, target, cuts := true }
      | none => .error (.missingTable row.number)
  | _ => .ok []

/-- The links of all jumps, branches and switches of a method. -/
def branchLinks (index : Index) : Except Fault (List Link) := do
  let tables := index.tables
  let links ← index.listing.body.mapM
    (index.rowLinks (Tabulation.apply tables index.switchTargets))
  return links.flatten

/-- Keeping the tables of switches does not change the links. -/
theorem branchLinks_eq (index : Index) :
    index.branchLinks =
      (index.listing.body.mapM (index.rowLinks index.switchTargets)).map
        List.flatten := by
  have same : Tabulation.apply index.tables index.switchTargets =
      index.switchTargets := by
    funext name
    exact Tabulation.apply_ofNames _ _ name
  simp only [branchLinks, same]
  cases index.listing.body.mapM (index.rowLinks index.switchTargets) <;> rfl

end Index

end SmaliFlow.Flow
