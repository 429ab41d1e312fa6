import Mathlib.Logic.Relation
import SmaliFlow.Proofs.Indexing

/-!
# The table of borders

A border of a beginning of the pattern is a shorter beginning that also ends it.
The table holds the longest border of each beginning.  From a beginning the
search falls back to its longest border, from there to the longest border of
that one, and so on; this visits all borders of the beginning, from the longest
to the empty one.

Every border is shorter than what it borders.  So the search can fall back only
finitely often, both while the table is filled and while a text is read.
-/

namespace SmaliFlow.Search

/--
The first `count` octets of the pattern are also the last ones of the beginning
of the pattern that ends with an index, and are not all of it.
-/
def IsBorder (pattern : Bytes) (index count : Nat) : Prop :=
  count ≤ index ∧
    pattern.take count = (pattern.take (index + 1)).drop (index + 1 - count)

instance (pattern : Bytes) (index count : Nat) :
    Decidable (IsBorder pattern index count) :=
  inferInstanceAs (Decidable (_ ∧ _))

/--
With this table the search goes from `longer` matched octets back to `shorter`
ones.
-/
def FallsBack (table : Array Nat) (longer shorter : Nat) : Prop :=
  0 < longer ∧ table[longer - 1]? = some shorter

/-! ## Borders are ends -/

theorem isBorder_iff_suffix
    {pattern : Bytes}
    {index : Nat}
    (inside : index < pattern.length)
    (count : Nat) :
    IsBorder pattern index count ↔
      count ≤ index ∧ pattern.take count <:+ pattern.take (index + 1) := by
  refine and_congr_right fun short => ?_
  have length : (pattern.take (index + 1)).length = index + 1 :=
    List.length_take_of_le inside
  have shorter : (pattern.take count).length = count :=
    List.length_take_of_le (by omega)
  rw [List.suffix_iff_eq_drop, length, shorter]

/--
The longest end of a beginning without its first octet is its longest border.
-/
theorem Longest.isGreatest_border
    {pattern : Bytes}
    {index count : Nat}
    (inside : index < pattern.length)
    (longest : Longest pattern (pattern.tail.take index) count) :
    IsGreatest {other | IsBorder pattern index other} count := by
  have short : count ≤ index := by
    have length := longest.le_length
    rw [List.length_take] at length
    omega
  constructor
  · exact (isBorder_iff_suffix inside count).mpr
      ⟨short, (take_suffix_tail_iff short inside).mpr longest.ends⟩
  · intro other border
    rcases (isBorder_iff_suffix inside other).mp border with ⟨otherShort, ends⟩
    exact longest.greatest other (by omega)
      ((take_suffix_tail_iff otherShort inside).mp ends)

theorem exists_isGreatest_border
    {pattern : Bytes}
    {index : Nat}
    (inside : index < pattern.length) :
    ∃ count, (borders pattern)[index]? = some count ∧
      IsGreatest {other | IsBorder pattern index other} count := by
  rcases bordered_borders pattern index inside with ⟨count, stored, longest⟩
  exact ⟨count, stored, longest.isGreatest_border inside⟩

/-! ## Falling back -/

section FallingBack

variable {pattern : Bytes}

/-- Falling back leads to the longest border of what has been matched. -/
theorem isGreatest_of_fallsBack
    {longer shorter : Nat}
    (falls : FallsBack (borders pattern) longer shorter) :
    longer - 1 < pattern.length ∧
      IsGreatest {other | IsBorder pattern (longer - 1) other} shorter := by
  rcases falls with ⟨-, stored⟩
  have inside : longer - 1 < pattern.length := by
    rw [← size_borders]
    exact (Array.getElem?_eq_some_iff.mp stored).1
  rcases exists_isGreatest_border inside with ⟨count, found, greatest⟩
  rw [found, Option.some.injEq] at stored
  exact ⟨inside, stored ▸ greatest⟩

theorem lt_of_fallsBack
    {longer shorter : Nat}
    (falls : FallsBack (borders pattern) longer shorter) :
    shorter < longer := by
  have short := (isGreatest_of_fallsBack falls).2.1.1
  have positive := falls.1
  omega

/-- The search cannot fall back forever. -/
theorem wellFounded_fallsBack (pattern : Bytes) :
    WellFounded fun shorter longer =>
      FallsBack (borders pattern) longer shorter :=
  Subrelation.wf lt_of_fallsBack Nat.lt_wfRel.wf

/-- The shorter of two borders is a border of the longer one. -/
theorem IsBorder.of_lt
    {index count shorter : Nat}
    (inside : index < pattern.length)
    (border : IsBorder pattern index count)
    (other : IsBorder pattern index shorter)
    (less : shorter < count) :
    IsBorder pattern (count - 1) shorter := by
  rcases (isBorder_iff_suffix inside count).mp border with ⟨short, ends⟩
  rcases (isBorder_iff_suffix inside shorter).mp other with ⟨-, otherEnds⟩
  have length : count - 1 + 1 = count := by omega
  rw [isBorder_iff_suffix (by omega), length]
  refine ⟨by omega, List.suffix_of_suffix_length_le otherEnds ends ?_⟩
  rw [List.length_take, List.length_take]
  omega

/-- A border of a border is a border. -/
theorem IsBorder.trans
    {index count shorter : Nat}
    (inside : index < pattern.length)
    (border : IsBorder pattern index count)
    (positive : 0 < count)
    (other : IsBorder pattern (count - 1) shorter) :
    IsBorder pattern index shorter := by
  rcases (isBorder_iff_suffix inside count).mp border with ⟨short, ends⟩
  have length : count - 1 + 1 = count := by omega
  rcases (isBorder_iff_suffix (by omega) shorter).mp other with
    ⟨otherShort, otherEnds⟩
  rw [length] at otherEnds
  exact (isBorder_iff_suffix inside shorter).mpr
    ⟨by omega, otherEnds.trans ends⟩

/--
The borders of a beginning are the lengths that falling back from it visits.
-/
theorem isBorder_iff_transGen
    {index : Nat}
    (inside : index < pattern.length)
    (count : Nat) :
    IsBorder pattern index count ↔
      Relation.TransGen (FallsBack (borders pattern)) (index + 1) count := by
  induction index using Nat.strong_induction_on with
  | h index ih =>
      rcases exists_isGreatest_border inside with ⟨longest, stored, greatest⟩
      have falls : FallsBack (borders pattern) (index + 1) longest :=
        ⟨Nat.succ_pos index, stored⟩
      have short := greatest.1.1
      constructor
      · intro border
        rcases Nat.lt_or_eq_of_le (greatest.2 border) with less | rfl
        · have shorter := greatest.1.of_lt inside border less
          have length : longest - 1 + 1 = longest := by omega
          rw [ih (longest - 1) (by omega) (by omega), length] at shorter
          exact .head falls shorter
        · exact .single falls
      · intro visited
        rcases Relation.TransGen.head'_iff.mp visited with ⟨first, step, rest⟩
        cases Option.some.inj (step.2.symm.trans stored)
        rcases Relation.reflTransGen_iff_eq_or_transGen.mp rest with
          rfl | further
        · exact greatest.1
        · have positive : 0 < longest := by
            rcases Relation.TransGen.head'_iff.mp further with ⟨next, leaves, -⟩
            exact leaves.1
          have length : longest - 1 + 1 = longest := by omega
          apply greatest.1.trans inside positive
          rw [ih (longest - 1) (by omega) (by omega), length]
          exact further

end FallingBack

/-! ## The whole table -/

theorem tableChecked_eq_borders (pattern : Bytes) :
    tableChecked pattern = some (borders pattern) := by
  cases pattern with
  | nil => rfl
  | cons octet octets => exact tableChecked_eq (List.cons_ne_nil octet octets)

/--
The table has one entry for each index of the pattern, which is the longest
border of the beginning that ends there, and falling back visits all borders.
Each time the matched length gets smaller: with the check that it does, filling
the table and reading a text still give their results.
-/
theorem borders_hold_longest_borders (pattern : Bytes) :
    (borders pattern).size = pattern.length ∧
    (∀ index < pattern.length,
      (∃ count, (borders pattern)[index]? = some count ∧ count ≤ index ∧
        IsGreatest {other | IsBorder pattern index other} count) ∧
      ∀ count, IsBorder pattern index count ↔
        Relation.TransGen (FallsBack (borders pattern)) (index + 1) count) ∧
    (∀ longer shorter,
      FallsBack (borders pattern) longer shorter → shorter < longer) ∧
    (WellFounded fun shorter longer =>
      FallsBack (borders pattern) longer shorter) ∧
    tableChecked pattern = some (borders pattern) ∧
    ∀ text start,
      indexFromChecked text pattern start =
        some (indexFrom? text pattern start) := by
  refine ⟨size_borders pattern, ?_, fun _ _ => lt_of_fallsBack,
    wellFounded_fallsBack pattern, tableChecked_eq_borders pattern,
    fun text start => indexFromChecked_eq text pattern start⟩
  intro index inside
  refine ⟨?_, isBorder_iff_transGen inside⟩
  rcases exists_isGreatest_border inside with ⟨count, stored, greatest⟩
  exact ⟨count, stored, greatest.1.1, greatest⟩

/--
The pattern overlaps with itself twice, and falling back from its end visits
both places.
-/
theorem borders_hold_longest_borders_of_overlap :
    (borders (Bytes.ofString "abacaba"))[6]? = some 3 ∧
    IsGreatest {other | IsBorder (Bytes.ofString "abacaba") 6 other} 3 ∧
    Relation.TransGen (FallsBack (borders (Bytes.ofString "abacaba"))) 7 1 := by
  have stored : (borders (Bytes.ofString "abacaba"))[6]? = some 3 := by
    decide +kernel
  have inside : 6 < (Bytes.ofString "abacaba").length := by
    decide +kernel
  rcases (borders_hold_longest_borders (Bytes.ofString "abacaba")).2.1 6
      inside with
    ⟨⟨count, found, -, greatest⟩, visits⟩
  cases Option.some.inj (found.symm.trans stored)
  exact ⟨stored, greatest, (visits 1).mp (by decide +kernel)⟩

end SmaliFlow.Search
