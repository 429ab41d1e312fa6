import SmaliFlow.Flow.Block

/-!
# Order of discovery

Blocks are numbered in the order in which a depth-first search from the entry
discovers them; successors are tried in the order they are listed.  Blocks that
the search does not reach keep no number.

The search keeps the blocks that are still to be tried in one list.  A block
that is discovered puts its successors in front of that list, so they are tried
before the remaining successors of the blocks above it.  Every block puts its
successors there at most once, which bounds the search.
-/

namespace SmaliFlow.Flow.Discovery

/-- The successors of a block; a block that does not exist has none. -/
def targets (successors : Array (List Nat)) (block : Nat) : List Nat :=
  successors[block]?.getD []

/--
The number of steps that the blocks without a number can still cause: one for
being discovered and one for each successor.  `index` is the first block that
`numbers` speaks of.
-/
def openWork (successors : Array (List Nat)) :
    (numbers : List (Option Nat)) → (index : Nat) → Nat
  | [], _ => 0
  | number :: numbers, index =>
      (if number = none then (targets successors index).length + 1 else 0) +
        openWork successors numbers (index + 1)

theorem openWork_set
    (successors : Array (List Nat))
    (numbers : List (Option Nat))
    (index block next : Nat)
    (fresh : numbers[block]? = some none) :
    openWork successors (numbers.set block (some next)) index +
        ((targets successors (index + block)).length + 1) =
      openWork successors numbers index := by
  induction numbers generalizing index block with
  | nil => simp at fresh
  | cons number numbers ih =>
      cases block with
      | zero =>
          simp only [List.getElem?_cons_zero, Option.some.injEq] at fresh
          simp [openWork, fresh]
          omega
      | succ block =>
          simp only [List.getElem?_cons_succ] at fresh
          have rest := ih (index + 1) block fresh
          rw [Nat.add_right_comm index 1 block] at rest
          simp only [List.set_cons_succ, openWork, ← Nat.add_assoc] at rest ⊢
          omega

/--
Try the `pending` blocks in order.  `numbers` holds the number of every
discovered block, and `next` is the first number that is still free.
-/
def explore
    (successors : Array (List Nat))
    (pending : List Nat)
    (numbers : Array (Option Nat))
    (next : Nat) : Array (Option Nat) × Nat :=
  match pending with
  | [] => (numbers, next)
  | block :: pending =>
      if _fresh : numbers[block]? = some none then
        explore successors (targets successors block ++ pending)
          (numbers.setIfInBounds block (some next)) (next + 1)
      else
        explore successors pending numbers next
termination_by openWork successors numbers.toList 0 + pending.length
decreasing_by
  · have work :=
      openWork_set successors numbers.toList 0 block next
        (by simpa using _fresh)
    simp only [Nat.zero_add] at work
    simp only [Array.toList_setIfInBounds, List.length_append, List.length_cons]
    omega
  · simp

/--
The numbers of all blocks, given their successors, and how many blocks the
entry reaches.  The entry is the first block.
-/
def number (successors : Array (List Nat)) : Array (Option Nat) × Nat :=
  explore successors [0] (Array.replicate successors.size none) 0

end SmaliFlow.Flow.Discovery
