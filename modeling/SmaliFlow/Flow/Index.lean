import Std.Data.TreeMap
import SmaliFlow.Flow.Listing

/-!
# Indexed listings

A listing together with what makes it quick to search: its rows by position and
its labels by name.  Every question has the same answer as on the plain listing,
which is what the theorems of this module say.

The last section keeps the values of a function of names, so that each of them
is computed once.
-/

namespace SmaliFlow.Flow

/-- A listing that can be searched by position and by label. -/
structure Index where
  listing : Listing
  rows : Array Row
  labels : Std.TreeMap Bytes Row

namespace Index

/-- Record the label that a row defines, unless an earlier row defines it. -/
def addLabel (labels : Std.TreeMap Bytes Row) (row : Row) :
    Std.TreeMap Bytes Row :=
  match row.definedLabel? with
  | some name => labels.insertIfNew name row
  | none => labels

/-- Index a listing. -/
def ofListing (listing : Listing) : Index where
  listing
  rows := listing.toArray
  labels := listing.foldl addLabel ∅

/-- The row that defines a label. -/
def label? (index : Index) (name : Bytes) : Option Row :=
  index.labels[name]?

/-- The row that defines a label, or the fault that none does. -/
def resolve (index : Index) (name : Bytes) : Except Fault Row :=
  match index.label? name with
  | some row => .ok row
  | none => .error (.unresolvedLabel name)

/-- The row that follows a given one. -/
def next? (index : Index) (row : Row) : Option Row :=
  index.rows[row.position + 1]?

/-! ## Agreement with the plain listing -/

theorem getElem?_addLabel
    (labels : Std.TreeMap Bytes Row)
    (row : Row)
    (name : Bytes) :
    (addLabel labels row)[name]? =
      labels[name]?.or (if row.defines name then some row else none) := by
  unfold addLabel Row.defines
  cases defined : row.definedLabel? with
  | none => simp
  | some other =>
      rw [Std.TreeMap.getElem?_insertIfNew]
      by_cases same : other = name
      · subst same
        by_cases known : other ∈ labels
        · simp [known]
        · simp [known]
      · have different : compare other name ≠ .eq := by
          simpa using same
        simp [different, same]

theorem getElem?_foldl_addLabel
    (listing : Listing)
    (labels : Std.TreeMap Bytes Row)
    (name : Bytes) :
    (listing.foldl addLabel labels)[name]? =
      labels[name]?.or (listing.label? name) := by
  induction listing generalizing labels with
  | nil => simp [Listing.label?]
  | cons row listing ih =>
      rw [List.foldl_cons, ih, getElem?_addLabel, Option.or_assoc]
      congr 1
      unfold Listing.label?
      rw [List.find?_cons]
      by_cases defines : row.defines name
      · simp [defines]
      · simp [defines]

@[simp]
theorem label?_ofListing (listing : Listing) (name : Bytes) :
    (ofListing listing).label? name = listing.label? name := by
  simp [label?, ofListing, getElem?_foldl_addLabel]

@[simp]
theorem resolve_ofListing (listing : Listing) (name : Bytes) :
    (ofListing listing).resolve name = listing.resolve name := by
  cases found : listing.label? name <;> simp [resolve, Listing.resolve, found]

@[simp]
theorem next?_ofListing (listing : Listing) (row : Row) :
    (ofListing listing).next? row = (listing.after row).head? := by
  simp [next?, ofListing, Listing.after]

@[simp]
theorem listing_ofListing (listing : Listing) :
    (ofListing listing).listing = listing :=
  rfl

end Index

/-! ## Functions of names -/

namespace Tabulation

/-- The values of a function at the given names. -/
def ofNames {α : Type} (function : Bytes → α) (names : List Bytes) :
    Std.TreeMap Bytes α :=
  names.foldl
    (fun table name =>
      if table.contains name then table else table.insert name (function name))
    ∅

/-- The value at a name, which is computed if the table does not have it. -/
def apply
    {α : Type}
    (table : Std.TreeMap Bytes α)
    (function : Bytes → α)
    (name : Bytes) : α :=
  match table[name]? with
  | some value => value
  | none => function name

private theorem eq_of_getElem?_foldl
    {α : Type}
    (function : Bytes → α)
    (names : List Bytes)
    (table : Std.TreeMap Bytes α)
    (sound : ∀ name value, table[name]? = some value → value = function name)
    (name : Bytes)
    (value : α)
    (found : (names.foldl
      (fun table name =>
        if table.contains name then
          table else table.insert name (function name))
      table)[name]? = some value) :
    value = function name := by
  induction names generalizing table with
  | nil => exact sound name value found
  | cons first names ih =>
      rw [List.foldl_cons] at found
      apply ih _ _ found
      intro key stored lookup
      split at lookup
      · exact sound key stored lookup
      · rw [Std.TreeMap.getElem?_insert] at lookup
        split at lookup
        · rename_i same
          have equal : first = key := by simpa using same
          subst equal
          exact (Option.some.inj lookup).symm
        · exact sound key stored lookup

/-- A table of values does not change the function. -/
@[simp]
theorem apply_ofNames
    {α : Type}
    (function : Bytes → α)
    (names : List Bytes)
    (name : Bytes) :
    apply (ofNames function names) function name = function name := by
  unfold apply
  cases found : (ofNames function names)[name]? with
  | none => rfl
  | some value =>
      exact eq_of_getElem?_foldl function names ∅ (by simp) name value found

end Tabulation

end SmaliFlow.Flow
