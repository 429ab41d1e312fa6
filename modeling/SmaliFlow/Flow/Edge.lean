import SmaliFlow.Flow.Span

/-!
# Edges

An edge says that control may pass from one block to another.  The edges of a
method are sorted into one table by their sources and one by their targets.
Both keep the order in which the edges were found, and name every block once.
-/

namespace SmaliFlow.Flow

/-! ## Numbers without repetition -/

/-- The numbers that have been seen, and those that were new, in order. -/
structure Collected where
  seen : Std.TreeSet Nat
  kept : Array Nat

namespace Collected

/-- Take in a number. -/
def add (collected : Collected) (number : Nat) : Collected :=
  if collected.seen.contains number then
    collected
  else
    { seen := collected.seen.insert number, kept := collected.kept.push number }

end Collected

/-- The first occurrence of every number, in order. -/
def distinct (numbers : List Nat) : List Nat :=
  (numbers.foldl Collected.add { seen := ∅, kept := #[] }).kept.toList

private theorem kept_foldl_add
    (numbers kept : List Nat)
    (collected : Collected)
    (sameSeen : ∀ number, collected.seen.contains number = kept.contains number)
    (sameKept : collected.kept.toList = kept.reverse) :
    (numbers.foldl Collected.add collected).kept.toList =
      List.eraseDupsBy.loop (· == ·) numbers kept := by
  induction numbers generalizing kept collected with
  | nil => simpa [List.eraseDupsBy.loop] using sameKept
  | cons number numbers ih =>
      rw [List.foldl_cons, List.eraseDupsBy.loop]
      have known :
          kept.any (fun old => number == old) =
            collected.seen.contains number := by
        rw [sameSeen, List.contains_eq_any_beq]
      unfold Collected.add
      cases seen : collected.seen.contains number with
      | true =>
          rw [seen] at known
          simp only [if_true, known]
          exact ih kept collected sameSeen sameKept
      | false =>
          rw [seen] at known
          simp only [Bool.false_eq_true, if_false, known]
          apply ih
          · intro other
            rw [Std.TreeSet.contains_insert, sameSeen, List.contains_cons]
            congr 1
            rw [Bool.eq_iff_iff, beq_iff_eq, beq_iff_eq, Nat.compare_eq_eq]
            exact eq_comm
          · simp [sameKept]

/-- Collecting numbers keeps the first occurrence of each. -/
theorem distinct_eq_eraseDups (numbers : List Nat) :
    distinct numbers = numbers.eraseDups := by
  rw [distinct, List.eraseDups, List.eraseDupsBy]
  exact kept_foldl_add numbers [] _ (by simp) (by simp)

/-! ## Edges of a method -/

/-- The passage of control from one block to another. -/
structure Edge where
  source : Nat
  target : Nat
  deriving DecidableEq, Repr

namespace Edge

/-- The edge between the blocks of two linked rows. -/
def ofLink (owners : Owners) (link : Link) : Except Fault Edge := do
  let source ← owners.locate link.source
  let target ← owners.locate link.target
  return { source, target }

/--
The edge from a block to the next one, unless the block ends the flow of
control.
-/
def toNext? (group : Group) (index : Nat) : Option Edge :=
  match group.lastCode? with
  | some row =>
      if row.instruction.endsFlow then
        none
      else
        some { source := index, target := index + 1 }
  | none => none

/-- The edges between blocks that follow each other. -/
def adjacent (groups : List Group) : List Edge :=
  groups.dropLast.zipIdx.filterMap fun (group, index) => toNext? group index

/-- The edge in the opposite direction. -/
def reverse (edge : Edge) : Edge where
  source := edge.target
  target := edge.source

/--
The targets of all edges, sorted by their sources, of which there are `count`.
-/
def targetTable (count : Nat) (edges : List Edge) : Array (List Nat) :=
  edges.foldr (fun edge table => table.modify edge.source (edge.target :: ·))
    (Array.replicate count [])

/-- The blocks that edges lead to from each of `count` blocks. -/
def successors (count : Nat) (edges : List Edge) : Array (List Nat) :=
  (targetTable count edges).map distinct

/-- The blocks from which edges lead to each of `count` blocks. -/
def predecessors (count : Nat) (edges : List Edge) : Array (List Nat) :=
  successors count (edges.map reverse)

theorem size_targetTable (count : Nat) (edges : List Edge) :
    (targetTable count edges).size = count := by
  induction edges with
  | nil => simp [targetTable]
  | cons edge edges ih => simpa [targetTable] using ih

theorem getElem?_targetTable
    (count : Nat)
    (edges : List Edge)
    (index : Nat)
    (inside : index < count) :
    (targetTable count edges)[index]? =
      some ((edges.filter fun edge => edge.source == index).map
        Edge.target) := by
  induction edges with
  | nil => simp [targetTable, inside]
  | cons edge edges ih =>
      simp only [targetTable, List.foldr_cons] at ih ⊢
      rw [Array.getElem?_modify, ih]
      by_cases same : edge.source = index
      · simp [same]
      · simp [same]

theorem getElem?_successors
    (count : Nat)
    (edges : List Edge)
    (index : Nat)
    (inside : index < count) :
    (successors count edges)[index]? =
      some ((edges.filter fun edge => edge.source == index).map
        Edge.target).eraseDups := by
  simp [successors, getElem?_targetTable count edges index inside,
    distinct_eq_eraseDups]

theorem getElem?_predecessors
    (count : Nat)
    (edges : List Edge)
    (index : Nat)
    (inside : index < count) :
    (predecessors count edges)[index]? =
      some ((edges.filter fun edge => edge.target == index).map
        Edge.source).eraseDups := by
  rw [predecessors, getElem?_successors count _ index inside, List.filter_map,
    List.map_map]
  rfl

end Edge

end SmaliFlow.Flow
