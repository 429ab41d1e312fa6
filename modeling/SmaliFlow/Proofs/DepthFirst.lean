import SmaliFlow.Proofs.Simulation

/-!
# Two forms of the depth-first search

The recursive search gives a block the next number and then visits its
successors in order; it enters those that have no number when their turn comes.
The search with a stack keeps one frame for each block on the path from the
entry, which says which successor of the block comes next.

Both give every block the number that the list of pending blocks gives it.  For
the recursive search the reason is that pending blocks which stand in front are
done with, and everything below them, before the rest is tried.  What a stack
still has to try are the remaining successors of its frames, from the innermost
frame on: a turn of the search leaves the final numbers as they are and does one
unit of the work that is left.  So the search comes to an end, and the numbers
it ends with are the final ones.
-/

namespace SmaliFlow

namespace Flow.Discovery

/--
The numbers of the blocks so far, and the first number that is still free.
-/
structure Numbering where
  numbers : Array (Option Nat)
  next : Nat

namespace Numbering

/-- None of the blocks has a number. -/
def empty (count : Nat) : Numbering where
  numbers := Array.replicate count none
  next := 0

/-- The block exists and has no number. -/
def Fresh (numbering : Numbering) (block : Nat) : Prop :=
  numbering.numbers[block]? = some none

instance (numbering : Numbering) (block : Nat) :
    Decidable (numbering.Fresh block) :=
  inferInstanceAs (Decidable (numbering.numbers[block]? = some none))

/-- Give the next number to a block. -/
def give (numbering : Numbering) (block : Nat) : Numbering where
  numbers := numbering.numbers.setIfInBounds block (some numbering.next)
  next := numbering.next + 1

theorem fresh_empty {count : Nat} (nonempty : 0 < count) :
    (empty count).Fresh 0 := by
  rw [Fresh, empty, Array.getElem?_replicate, if_pos nonempty]

theorem not_fresh_empty {count : Nat} (none : ¬0 < count) :
    ¬(empty count).Fresh 0 := by
  rw [Fresh, empty, Array.getElem?_replicate, if_neg none]
  simp

variable (successors : Array (List Nat))

/-- What the blocks without a number can still cause. -/
def work (numbering : Numbering) : Nat :=
  openWork successors numbering.numbers.toList 0

theorem work_give
    {numbering : Numbering}
    {block : Nat}
    (fresh : numbering.Fresh block) :
    (numbering.give block).work successors +
      ((targets successors block).length + 1) =
      numbering.work successors := by
  have given :=
    openWork_set successors numbering.numbers.toList 0 block numbering.next
      (by simpa [Fresh] using fresh)
  rw [Nat.zero_add] at given
  rw [work, give, Array.toList_setIfInBounds]
  exact given

/-- The numbers after the pending blocks have been tried. -/
def complete (numbering : Numbering) (pending : List Nat) : Numbering where
  numbers := (explore successors pending numbering.numbers numbering.next).1
  next := (explore successors pending numbering.numbers numbering.next).2

@[simp]
theorem complete_nil (numbering : Numbering) :
    numbering.complete successors [] = numbering := by
  rw [complete, explore]

theorem complete_cons_of_fresh
    {numbering : Numbering}
    {block : Nat}
    (fresh : numbering.Fresh block)
    (pending : List Nat) :
    numbering.complete successors (block :: pending) =
      (numbering.give block).complete successors
        (targets successors block ++ pending) := by
  rw [Fresh] at fresh
  rw [complete, explore, dif_pos fresh]
  rfl

theorem complete_cons_of_known
    {numbering : Numbering}
    {block : Nat}
    (known : ¬numbering.Fresh block)
    (pending : List Nat) :
    numbering.complete successors (block :: pending) =
      numbering.complete successors pending := by
  rw [Fresh] at known
  rw [complete, explore, dif_neg known]
  rfl

end Numbering

/-! ## The recursive search -/

/--
Visit in order those of the given blocks that have no number when their turn
comes: give such a block the next number, and then visit its successors.
-/
def visitEach
    (successors : Array (List Nat))
    (blocks : List Nat)
    (before : Numbering) :
    { after : Numbering // after.work successors ≤ before.work successors } :=
  match blocks with
  | [] => ⟨before, Nat.le_refl _⟩
  | block :: blocks =>
      if fresh : before.Fresh block then
        have given := before.work_give successors fresh
        match visitEach successors (targets successors block)
            (before.give block) with
        | ⟨between, inner⟩ =>
            match visitEach successors blocks between with
            | ⟨after, outer⟩ => ⟨after, by omega⟩
      else
        visitEach successors blocks before
termination_by before.work successors + blocks.length
decreasing_by all_goals simp only [List.length_cons]; omega

/-- Give a block the next number, and then visit its successors in order. -/
def visit (successors : Array (List Nat)) (block : Nat) (before : Numbering) :
    Numbering :=
  (visitEach successors (targets successors block) (before.give block)).1

/-- Visit the entry, if there are blocks. -/
def visitEntry (successors : Array (List Nat)) : Numbering :=
  if 0 < successors.size then
    visit successors 0 (.empty successors.size)
  else
    .empty successors.size

variable (successors : Array (List Nat))

theorem visitEach_cons_of_fresh
    {before : Numbering}
    {block : Nat}
    (fresh : before.Fresh block)
    (blocks : List Nat) :
    (visitEach successors (block :: blocks) before).1 =
      (visitEach successors blocks (visit successors block before)).1 := by
  rw [visitEach, dif_pos fresh]
  rfl

theorem visitEach_cons_of_known
    {before : Numbering}
    {block : Nat}
    (known : ¬before.Fresh block)
    (blocks : List Nat) :
    visitEach successors (block :: blocks) before =
      visitEach successors blocks before := by
  rw [visitEach, dif_neg known]

/-- Visiting blocks does what trying them in front of all others does. -/
theorem complete_visitEach
    (blocks : List Nat)
    (before : Numbering)
    (pending : List Nat) :
    (visitEach successors blocks before).1.complete successors pending =
      before.complete successors (blocks ++ pending) := by
  match blocks with
  | [] => rw [visitEach, List.nil_append]
  | block :: blocks =>
      by_cases fresh : before.Fresh block
      · have given := before.work_give successors fresh
        have inner :=
          (visitEach successors (targets successors block)
            (before.give block)).2
        rw [visitEach_cons_of_fresh successors fresh, complete_visitEach blocks,
          visit, complete_visitEach (targets successors block),
          List.cons_append, before.complete_cons_of_fresh successors fresh]
      · rw [visitEach_cons_of_known successors fresh, complete_visitEach blocks,
          List.cons_append, before.complete_cons_of_known successors fresh]
termination_by before.work successors + blocks.length
decreasing_by all_goals simp only [List.length_cons, visit]; omega

/--
The recursive search from the entry gives the numbers that the blocks get.
-/
theorem visitEntry_eq :
    visitEntry successors =
      (Numbering.empty successors.size).complete successors [0] := by
  unfold visitEntry
  split
  · rename_i nonempty
    have visited := complete_visitEach successors (targets successors 0)
      ((Numbering.empty successors.size).give 0) []
    rw [Numbering.complete_nil] at visited
    rw [visit, visited, ← Numbering.complete_cons_of_fresh successors
      (Numbering.fresh_empty nonempty)]
  · rename_i none
    rw [Numbering.complete_cons_of_known successors
      (Numbering.not_fresh_empty none), Numbering.complete_nil]

/-! ## The search with a stack -/

/--
A block on the path from the entry, and which of its successors comes next.
-/
structure Frame where
  block : Nat
  child : Nat

/--
The path from the entry, the innermost block first, and the numbers so far.
-/
structure Search where
  stack : List Frame
  numbering : Numbering

namespace Search

/--
The entry has got its number, if there are blocks, and its successors come next.
-/
def start (count : Nat) : Search :=
  if 0 < count then
    { stack := [{ block := 0, child := 0 }],
      numbering := (Numbering.empty count).give 0 }
  else
    { stack := [], numbering := .empty count }

/--
One turn: go on to the next successor of the innermost block, and enter it if it
has no number; leave the block if no successor remains.
-/
def turn (search : Search) : Option Search :=
  match search.stack with
  | [] => none
  | frame :: stack =>
      match (targets successors frame.block)[frame.child]? with
      | none => some { search with stack }
      | some target =>
          let path := { frame with child := frame.child + 1 } :: stack
          if search.numbering.Fresh target then
            some
              { stack := { block := target, child := 0 } :: path
                numbering := search.numbering.give target }
          else
            some { search with stack := path }

/-- One search is a turn of the other. -/
def Turns (before after : Search) : Prop :=
  before.turn successors = some after

/-- The blocks that the frames still have to try, in order. -/
def pending (search : Search) : List Nat :=
  search.stack.flatMap fun frame =>
    (targets successors frame.block).drop frame.child

/-- How many turns the search can still take. -/
def work (search : Search) : Nat :=
  search.numbering.work successors + (search.pending successors).length +
    search.stack.length

/-- The numbers that the search leads to. -/
def outcome (search : Search) : Numbering :=
  search.numbering.complete successors (search.pending successors)

theorem turn_eq_none_iff (search : Search) :
    search.turn successors = none ↔ search.stack = [] := by
  unfold turn
  split
  · simp_all
  · rename_i frame stack path
    rw [path]
    split
    · simp
    · split <;> simp

/-- A turn does one unit of the work that is left, and keeps the outcome. -/
theorem work_outcome_of_turns
    {before after : Search}
    (turns : Turns successors before after) :
    after.work successors + 1 = before.work successors ∧
      after.outcome successors = before.outcome successors := by
  rcases before with ⟨path, numbering⟩
  cases path with
  | nil => cases turns
  | cons frame stack =>
      simp only [Turns, turn] at turns
      cases next : (targets successors frame.block)[frame.child]? with
      | none =>
          rw [next] at turns
          cases turns
          have exhausted :
              (targets successors frame.block).drop frame.child = [] :=
            List.drop_eq_nil_iff.mpr (List.getElem?_eq_none_iff.mp next)
          simp only [work, outcome, pending, List.flatMap_cons, exhausted,
            List.nil_append, List.length_cons, and_true]
          omega
      | some target =>
          rw [next] at turns
          rcases List.getElem?_eq_some_iff.mp next with ⟨inside, found⟩
          have remaining : (targets successors frame.block).drop frame.child =
              target :: (targets successors frame.block).drop
                (frame.child + 1) := by
            rw [List.drop_eq_getElem_cons inside, found]
          simp only at turns
          split at turns
          · rename_i fresh
            cases turns
            have given := numbering.work_give successors fresh
            simp only [work, outcome, pending, List.flatMap_cons, remaining,
              List.drop_zero, List.cons_append,
              numbering.complete_cons_of_fresh successors fresh,
              List.length_cons, List.length_append, and_true]
            omega
          · rename_i known
            cases turns
            simp only [work, outcome, pending, List.flatMap_cons, remaining,
              List.cons_append,
              numbering.complete_cons_of_known successors known,
              List.length_cons, and_true]
            omega

/-- The search comes to an end, with the numbers that it leads to. -/
theorem exists_end (search : Search) :
    ∃ last, Relation.ReflTransGen (Turns successors) search last ∧
      last.turn successors = none ∧
        last.numbering = search.outcome successors := by
  cases next : search.turn successors with
  | none =>
      refine ⟨search, .refl, next, ?_⟩
      rw [turn_eq_none_iff] at next
      rw [outcome, pending, next, List.flatMap_nil, Numbering.complete_nil]
  | some after =>
      have spec := work_outcome_of_turns successors next
      rcases exists_end after with ⟨last, run, ended, numbers⟩
      exact ⟨last, run.head next, ended, numbers.trans spec.2⟩
termination_by search.work successors

theorem outcome_start :
    (start successors.size).outcome successors =
      (Numbering.empty successors.size).complete successors [0] := by
  unfold start
  split
  · rename_i nonempty
    rw [Numbering.complete_cons_of_fresh successors
      (Numbering.fresh_empty nonempty)]
    rfl
  · rename_i none
    rw [Numbering.complete_cons_of_known successors
      (Numbering.not_fresh_empty none)]
    rfl

end Search

end Flow.Discovery

/-! ## The numbers of the blocks of a method -/

namespace Method

open SmaliFlow.Flow

/-- The successors of all blocks. -/
def successorTable (method : Method) : Array (List Nat) :=
  (method.blocks.map Block.successors).toArray

@[simp]
theorem size_successorTable (method : Method) :
    method.successorTable.size = method.blocks.length := by
  rw [successorTable, List.size_toArray, List.length_map]

theorem discovery_eq (method : Method) :
    method.discovery = Discovery.number method.successorTable :=
  rfl

theorem map_discovery_discover (method : Method) :
    method.discover.blocks.map Block.discovery = method.discovery.1.toList := by
  have size : method.discovery.1.size = method.blocks.length := by
    rw [discovery_eq, Discovery.size_number, size_successorTable]
  apply List.ext_getElem?
  intro index
  rw [List.getElem?_map, getElem?_blocks_discover, Option.map_map,
    Array.getElem?_toList]
  cases found : method.blocks[index]? with
  | none =>
      rw [List.getElem?_eq_none_iff, ← size] at found
      rw [Array.getElem?_eq_none found]
      rfl
  | some block =>
      have inside := (List.getElem?_eq_some_iff.mp found).1
      rw [← size] at inside
      rw [Array.getElem?_eq_getElem inside]
      rfl

theorem exists_search_end (method : Method) :
    ∃ last, Relation.ReflTransGen (Discovery.Search.Turns method.successorTable)
        (.start method.blocks.length) last ∧
      last.turn method.successorTable = none ∧
      last.numbering =
        (Discovery.Numbering.empty method.successorTable.size).complete
        method.successorTable [0] := by
  rw [← Discovery.Search.outcome_start, size_successorTable]
  exact Discovery.Search.exists_end method.successorTable _

/--
The numbers of the blocks are those of the recursive search from the entry, and
the search with a stack ends with them too.
-/
theorem discover_eq_visitEntry (method : Method) :
    method.discover.blocks.map Block.discovery =
        (Discovery.visitEntry method.successorTable).numbers.toList ∧
      method.reachedCount = (Discovery.visitEntry method.successorTable).next ∧
      ∃ last, Relation.ReflTransGen
        (Discovery.Search.Turns method.successorTable)
          (.start method.blocks.length) last ∧
        last.turn method.successorTable = none ∧
        last.numbering = Discovery.visitEntry method.successorTable := by
  rw [Discovery.visitEntry_eq]
  exact ⟨map_discovery_discover method, rfl, method.exists_search_end⟩

end Method

end SmaliFlow
