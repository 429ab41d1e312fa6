import SmaliFlow.Flow.Span
import SmaliFlow.Proofs.Groups

/-!
# Spans of separated groups

The spans of separated groups do not overlap, although each may cover rows of
tables that belong to no group.  A position therefore lies in at most one span,
and looking it up gives that one; a row of a group lies in the span of its own
group and of no other.
-/

namespace SmaliFlow.Flow

namespace Group

/-- The span of the group with the given index covers a position. -/
def Covers (groups : List Group) (index position : Nat) : Prop :=
  ∃ group,
    groups[index]? = some group ∧ (Span.ofGroup group).covers position = true

/-- The span of the group with the given index meets a range of positions. -/
def Meets (groups : List Group) (index first last : Nat) : Prop :=
  ∃ group,
    groups[index]? = some group ∧ (Span.ofGroup group).meets first last = true

/-- The group with the given index holds a row. -/
def Holds (groups : List Group) (index : Nat) (row : Row) : Prop :=
  ∃ group, groups[index]? = some group ∧ row ∈ group

theorem exists_holds_of_mem_flatten
    {groups : List Group}
    {row : Row}
    (member : row ∈ groups.flatten) :
    ∃ index, Holds groups index row := by
  rcases List.mem_flatten.mp member with ⟨group, groupMember, rowMember⟩
  rcases List.mem_iff_getElem?.mp groupMember with ⟨index, found⟩
  exact ⟨index, group, found, rowMember⟩

namespace Separated

variable {groups : List Group}

theorem ascending_of_mem
    (separated : Separated groups)
    {group : Group}
    (member : group ∈ groups) :
    Ascending group :=
  (List.pairwise_flatten.mp separated.ascending).1 group member

/-- The rows of earlier groups stand before those of later ones. -/
theorem position_lt
    (separated : Separated groups)
    {first second : Nat}
    {earlier later : Row}
    (earlierHeld : Holds groups first earlier)
    (laterHeld : Holds groups second later)
    (order : first < second) :
    earlier.position < later.position := by
  rcases earlierHeld with ⟨left, leftFound, leftMember⟩
  rcases laterHeld with ⟨right, rightFound, rightMember⟩
  rcases List.getElem?_eq_some_iff.mp leftFound with ⟨leftInside, rfl⟩
  rcases List.getElem?_eq_some_iff.mp rightFound with ⟨rightInside, rfl⟩
  have crossing := (List.pairwise_flatten.mp separated.ascending).2
  exact List.pairwise_iff_getElem.mp crossing first second leftInside
    rightInside order
    earlier leftMember later rightMember

theorem holds_unique
    (separated : Separated groups)
    {first second : Nat}
    {row : Row}
    (firstHolds : Holds groups first row)
    (secondHolds : Holds groups second row) :
    first = second := by
  by_contra different
  rcases Nat.lt_or_gt_of_ne different with before | after
  · exact Nat.lt_irrefl _ (separated.position_lt firstHolds secondHolds before)
  · exact Nat.lt_irrefl _ (separated.position_lt secondHolds firstHolds after)

/-- The span of a group reaches from its least to its greatest position. -/
theorem exists_bounds
    (separated : Separated groups)
    {group : Group}
    (member : group ∈ groups) :
    ∃ first ∈ group, ∃ last ∈ group,
      Span.ofGroup group = ⟨first.position, last.position⟩ ∧
      ∀ row ∈ group,
        first.position ≤ row.position ∧ row.position ≤ last.position := by
  have ascending := separated.ascending_of_mem member
  rcases separated.executed group member with ⟨witness, witnessMember, -⟩
  have nonempty : group ≠ [] := List.ne_nil_of_mem witnessMember
  have head := List.head?_eq_some_head nonempty
  have final := List.getLast?_eq_some_getLast nonempty
  rcases (ascending.head?_eq_some_iff _).mp head with ⟨headMember, least⟩
  rcases (ascending.getLast?_eq_some_iff _).mp final with
    ⟨finalMember, greatest⟩
  refine ⟨_, headMember, _, finalMember, ?_, ?_⟩
  · rw [Span.ofGroup, head, final]
    rfl
  · intro row rowMember
    exact ⟨least row rowMember, greatest row rowMember⟩

theorem covers_of_holds
    (separated : Separated groups)
    {index : Nat}
    {row : Row}
    (holds : Holds groups index row) :
    Covers groups index row.position := by
  rcases holds with ⟨group, found, member⟩
  rcases separated.exists_bounds (List.mem_of_getElem? found) with
    ⟨first, -, last, -, span, bounds⟩
  refine ⟨group, found, ?_⟩
  rw [span]
  simpa [Span.covers] using bounds row member

/-- A position lies in the span of at most one group. -/
theorem covers_unique
    (separated : Separated groups)
    {first second position : Nat}
    (firstCovers : Covers groups first position)
    (secondCovers : Covers groups second position) :
    first = second := by
  rcases firstCovers with ⟨left, leftFound, leftCovers⟩
  rcases secondCovers with ⟨right, rightFound, rightCovers⟩
  rcases separated.exists_bounds (List.mem_of_getElem? leftFound) with
    ⟨leftFirst, leftFirstMember, leftLast, leftLastMember, leftSpan, -⟩
  rcases separated.exists_bounds (List.mem_of_getElem? rightFound) with
    ⟨rightFirst, rightFirstMember, rightLast, rightLastMember, rightSpan, -⟩
  rw [leftSpan] at leftCovers
  rw [rightSpan] at rightCovers
  simp only [Span.covers, Bool.and_eq_true, decide_eq_true_eq]
    at leftCovers rightCovers
  by_contra different
  rcases Nat.lt_or_gt_of_ne different with before | after
  · have order := separated.position_lt ⟨left, leftFound, leftLastMember⟩
      ⟨right, rightFound, rightFirstMember⟩ before
    omega
  · have order := separated.position_lt ⟨right, rightFound, rightLastMember⟩
      ⟨left, leftFound, leftFirstMember⟩ after
    omega

/--
The span of a group meets a range if it covers some position of the range.
-/
theorem meets_iff_covers
    (separated : Separated groups)
    (index : Nat)
    {first last : Nat}
    (ordered : first ≤ last) :
    Meets groups index first last ↔
      ∃ position,
        first ≤ position ∧ position ≤ last ∧ Covers groups index position := by
  constructor
  · rintro ⟨group, found, meets⟩
    rcases separated.exists_bounds (List.mem_of_getElem? found) with
      ⟨least, -, greatest, greatestMember, span, bounds⟩
    have proper := (bounds greatest greatestMember).1
    simp only [span, Span.meets, Bool.and_eq_true, decide_eq_true_eq] at meets
    refine ⟨max first least.position, by omega, by omega, group, found, ?_⟩
    simp only [span, Span.covers, Bool.and_eq_true, decide_eq_true_eq]
    omega
  · rintro ⟨position, after, before, group, found, covers⟩
    refine ⟨group, found, ?_⟩
    simp only [Span.covers, Span.meets, Bool.and_eq_true, decide_eq_true_eq]
      at covers ⊢
    omega

/--
A row of some group lies in the span of a group exactly if the group holds it.
-/
theorem covers_iff_holds
    (separated : Separated groups)
    {row : Row}
    (member : row ∈ groups.flatten)
    (index : Nat) :
    Covers groups index row.position ↔ Holds groups index row := by
  constructor
  · intro covers
    rcases exists_holds_of_mem_flatten member with ⟨owner, holds⟩
    rw [separated.covers_unique covers (separated.covers_of_holds holds)]
    exact holds
  · exact separated.covers_of_holds

/--
The spans of groups that cover a position are those of the groups that do.
-/
theorem mem_covering_iff (position : Nat) (entry : Span × Nat) :
    (entry ∈ (groups.map Span.ofGroup).zipIdx.filter fun entry =>
        entry.1.covers position) ↔
      ∃ group, groups[entry.2]? = some group ∧ entry.1 = Span.ofGroup group ∧
        (Span.ofGroup group).covers position = true := by
  rw [List.mem_filter, List.mem_zipIdx_iff_getElem?, List.getElem?_map,
    Option.map_eq_some_iff]
  constructor
  · rintro ⟨⟨group, found, span⟩, covered⟩
    exact ⟨group, found, span.symm, by rwa [span]⟩
  · rintro ⟨group, found, span, covered⟩
    exact ⟨⟨group, found, span.symm⟩, by rwa [span]⟩

/-- Looking up a row gives the group whose span covers it. -/
theorem locate_eq_ok_iff
    (separated : Separated groups)
    (row : Row)
    (index : Nat) :
    (Owners.ofSpans (groups.map Span.ofGroup)).locate row = .ok index ↔
      Covers groups index row.position := by
  have found :
      (Owners.ofSpans (groups.map Span.ofGroup)).locate row = .ok index ↔
        ∃ entry, ((groups.map Span.ofGroup).zipIdx.filter fun entry =>
          entry.1.covers row.position).getLast? = some entry ∧
            entry.2 = index := by
    rw [Owners.locate, Owners.join_getElem?_ofSpans]
    cases ((groups.map Span.ofGroup).zipIdx.filter fun entry =>
      entry.1.covers row.position).getLast? <;> simp
  rw [found]
  constructor
  · rintro ⟨entry, last, rfl⟩
    rcases (mem_covering_iff row.position entry).mp
        (List.mem_of_getLast? last) with
      ⟨group, groupFound, -, covered⟩
    exact ⟨group, groupFound, covered⟩
  · rintro ⟨group, groupFound, covered⟩
    have member :=
      (mem_covering_iff row.position (Span.ofGroup group, index)).mpr
        ⟨group, groupFound, rfl, covered⟩
    have nonempty := List.getLast?_isSome.mpr (List.ne_nil_of_mem member)
    rcases Option.isSome_iff_exists.mp nonempty with ⟨entry, last⟩
    rcases (mem_covering_iff row.position entry).mp
        (List.mem_of_getLast? last) with
      ⟨other, otherFound, -, otherCovered⟩
    -- The spans do not overlap, so that the last one is the only one.
    exact ⟨entry, last,
      separated.covers_unique ⟨other, otherFound, otherCovered⟩
      ⟨group, groupFound, covered⟩⟩

end Separated

end Group

end SmaliFlow.Flow
