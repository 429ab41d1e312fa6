import SmaliFlow.Flow.Group

/-!
# Spans

The span of a group reaches from its first to its last row, and covers the rows
of tables between them.  Spans are entered one after the other, and a position
belongs to the last one that covers it.  The owners of all positions are kept in
one array.
-/

namespace SmaliFlow.Flow

/-- The positions from the first to the last row of a group. -/
structure Span where
  first : Nat
  last : Nat
  deriving DecidableEq, Repr

namespace Span

/-- The span of a group that is not empty. -/
def ofGroup (group : Group) : Span where
  first := (group.head?.map Row.position).getD 0
  last := (group.getLast?.map Row.position).getD 0

/-- Whether a position lies in a span. -/
def covers (span : Span) (position : Nat) : Bool :=
  span.first ≤ position && position ≤ span.last

/-- Whether a span and a range of positions have a position in common. -/
def meets (span : Span) (first last : Nat) : Bool :=
  span.first ≤ last && first ≤ span.last

/-- The positions of a span in order. -/
def positions (span : Span) : List Nat :=
  List.range' span.first (span.last + 1 - span.first)

theorem mem_positions_iff (span : Span) (position : Nat) :
    position ∈ span.positions ↔ span.covers position = true := by
  simp only [positions, List.mem_range'_1, covers, Bool.and_eq_true,
    decide_eq_true_eq]
  omega

end Span

/-- For every position the index of the span that it belongs to. -/
abbrev Owners := Array (Option Nat)

namespace Owners

/-- A number of positions that is large enough for all spans. -/
def bound (spans : List Span) : Nat :=
  spans.foldr (fun span bound => max (span.last + 1) bound) 0

/-- Give the listed positions to a span. -/
def give (owners : Owners) (positions : List Nat) (index : Nat) : Owners :=
  positions.foldl (fun owners position =>
    owners.setIfInBounds position (some index)) owners

/--
Give all positions to their spans; a later span prevails over the earlier ones.
-/
def giveAll (spans : List (Span × Nat)) (owners : Owners) : Owners :=
  spans.foldl (fun owners entry => give owners entry.1.positions entry.2) owners

/-- The owners of all positions. -/
def ofSpans (spans : List Span) : Owners :=
  giveAll spans.zipIdx (Array.replicate (bound spans) none)

/-- The index of the span that a row belongs to. -/
def locate (owners : Owners) (row : Row) : Except Fault Nat :=
  match owners[row.position]?.join with
  | some index => .ok index
  | none => .error (.outsideBlocks row.number)

theorem last_lt_bound
    (spans : List Span)
    (span : Span)
    (member : span ∈ spans) :
    span.last < bound spans := by
  induction spans with
  | nil => simp at member
  | cons first spans ih =>
      simp only [bound, List.foldr_cons] at ih ⊢
      rcases List.mem_cons.mp member with rfl | later
      · omega
      · have := ih later
        omega

theorem size_give (owners : Owners) (positions : List Nat) (index : Nat) :
    (give owners positions index).size = owners.size := by
  induction positions generalizing owners with
  | nil => rfl
  | cons position positions ih =>
      have step := ih (owners.setIfInBounds position (some index))
      simpa [give] using step

theorem getElem?_give
    (owners : Owners)
    (positions : List Nat)
    (index position : Nat) :
    (give owners positions index)[position]? =
      if position ∈ positions ∧ position < owners.size then some (some index)
      else owners[position]? := by
  induction positions generalizing owners with
  | nil => simp [give]
  | cons first positions ih =>
      have step := ih (owners.setIfInBounds first (some index))
      simp only [give, List.foldl_cons] at step ⊢
      rw [step, Array.getElem?_setIfInBounds, Array.size_setIfInBounds]
      by_cases inside : position < owners.size
      · by_cases same : first = position
        · subst same
          simp [inside]
        · by_cases later : position ∈ positions
          · simp [inside, later]
          · simp [later, same, Ne.symm same]
      · by_cases same : first = position
        · subst same
          simp [inside]
        · simp [inside, same]

theorem size_giveAll (spans : List (Span × Nat)) (owners : Owners) :
    (giveAll spans owners).size = owners.size := by
  induction spans generalizing owners with
  | nil => rfl
  | cons entry spans ih =>
      have step := ih (give owners entry.1.positions entry.2)
      rwa [size_give] at step

/-- A position keeps its owner unless a span covers it. -/
theorem join_getElem?_giveAll
    (spans : List (Span × Nat))
    {owners : Owners}
    {position : Nat}
    (inside : position < owners.size) :
    (giveAll spans owners)[position]?.join =
      ((spans.filter fun entry => entry.1.covers position).getLast?.map
        Prod.snd).or owners[position]?.join := by
  induction spans generalizing owners with
  | nil => rfl
  | cons entry spans ih =>
      have stillInside :
          position < (give owners entry.1.positions entry.2).size := by
        rwa [size_give]
      refine (ih stillInside).trans ?_
      rw [getElem?_give, List.filter_cons]
      by_cases covered : entry.1.covers position = true
      · have member := (entry.1.mem_positions_iff position).mpr covered
        rw [if_pos ⟨member, inside⟩, if_pos covered, List.getLast?_cons]
        cases (spans.filter fun entry => entry.1.covers position).getLast? <;>
          rfl
      · have absent := mt (entry.1.mem_positions_iff position).mp covered
        rw [if_neg fun both => absent both.1, if_neg covered]

/-- A position belongs to the last span that covers it. -/
theorem join_getElem?_ofSpans (spans : List Span) (position : Nat) :
    (ofSpans spans)[position]?.join =
      (spans.zipIdx.filter fun entry => entry.1.covers position).getLast?.map
        Prod.snd := by
  by_cases inside : position < bound spans
  · rw [ofSpans, join_getElem?_giveAll _ (by simpa using inside)]
    simp [inside]
  · have missing : (ofSpans spans)[position]? = none := by
      simpa [ofSpans, size_giveAll] using inside
    have uncovered :
        (spans.zipIdx.filter fun entry => entry.1.covers position) = [] := by
      rw [List.filter_eq_nil_iff]
      intro entry member
      have last :=
        last_lt_bound spans entry.1 (List.fst_mem_of_mem_zipIdx member)
      simp only [Span.covers, Bool.and_eq_true, decide_eq_true_eq]
      omega
    rw [missing, uncovered]
    rfl

end Owners

end SmaliFlow.Flow
