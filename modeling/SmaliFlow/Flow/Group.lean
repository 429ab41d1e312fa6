import Std.Data.TreeSet
import SmaliFlow.Flow.Guard

/-!
# Groups of rows

The rows outside every table are cut before each leader.  A piece in which
nothing is executed is joined to the piece that follows it, or at the end of
the method to the piece before it, so that every group holds at least one
instruction.
-/

namespace SmaliFlow.Flow

/-- The rows of a future block, in order. -/
abbrev Group := List Row

namespace Listing

/--
The positions before which the rows are cut: after every goto, and where links
lead.
-/
def leaders (listing : Listing) (links : List Link) : List Nat :=
  let gotos := listing.body.filter fun row => row.kind == .code .goto
  gotos.map (fun row => row.position + 1) ++
    (links.filter Link.cuts).map fun link => link.target.position

/-- Cut the rows outside every table before each of the given positions. -/
def pieces (listing : Listing) (leaders : List Nat) : List Group :=
  let positions := Std.TreeSet.ofList leaders
  listing.body.splitBy fun _ row => !positions.contains row.position

theorem pieces_eq (listing : Listing) (leaders : List Nat) :
    listing.pieces leaders =
      listing.body.splitBy fun _ row => !leaders.contains row.position := by
  simp [pieces, Std.TreeSet.contains_ofList]

end Listing

namespace Group

/--
Take in one more piece.  The finished groups are kept in reverse, next to the
rows that wait for an instruction.
-/
def join (state : List Group × Group) (piece : Group) : List Group × Group :=
  let (groups, waiting) := state
  if piece.any Row.isCode then
    ((waiting ++ piece) :: groups, [])
  else
    (groups, waiting ++ piece)

/-- Give the rows that still wait to the last group, if there is one. -/
def close (state : List Group × Group) : List Group :=
  match state with
  | ([], _) => []
  | (last :: groups, waiting) => ((last ++ waiting) :: groups).reverse

/-- Join the pieces in which nothing is executed to their neighbours. -/
def ofPieces (pieces : List Group) : List Group :=
  close (pieces.foldl join ([], []))

/-- The last executed row. -/
def lastCode? (group : Group) : Option Row :=
  (group.filter Row.isCode).getLast?

end Group

end SmaliFlow.Flow
