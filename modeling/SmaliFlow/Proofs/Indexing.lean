import Mathlib.Order.Bounds.Defs
import SmaliFlow.Proofs.Search

/-!
# The search by indices

The search reads its pattern and its table at indices that it computes, writes
the table entry by entry, and subtracts the length of the pattern at the end.
This module has the same search with each of these operations checked: a table
of fixed size is filled by indices, and wherever an index is out of bounds, a
difference would be negative, or falling back makes no progress, there is no
result.

There always is one, and it is the least place where the pattern occurs.
-/

namespace SmaliFlow.Search

/-! ## Checked operations -/

/-- The table with another entry at an index, if it has one there. -/
def write? (table : Array Nat) (index entry : Nat) : Option (Array Nat) :=
  if index < table.size then some (table.setIfInBounds index entry) else none

/-- The difference of two numbers, if it is a number. -/
def difference? (number less : Nat) : Option Nat :=
  if less ≤ number then some (number - less) else none

/-- One step of the search; falling back has to make progress. -/
def extendChecked
    (pattern : Array UInt8)
    (table : Array Nat)
    (octet : UInt8)
    (matched : Nat) : Option Nat :=
  match pattern[matched]? with
  | none => none
  | some expected =>
      if expected = octet then
        some (matched + 1)
      else if matched = 0 then
        some 0
      else
        match table[matched - 1]? with
        | none => none
        | some shorter =>
            if shorter < matched then
              extendChecked pattern table octet shorter
            else
              none
termination_by matched

/-- Fill the table of a pattern at the given indices. -/
def fillChecked (pattern : Array UInt8) :
    (indices : List Nat) → (matched : Nat) → (table : Array Nat) →
      Option (Array Nat)
  | [], _, table => some table
  | index :: indices, matched, table => do
      let octet ← pattern[index]?
      let longer ← extendChecked pattern table octet matched
      let table ← write? table index longer
      fillChecked pattern indices longer table

/-- The table of a pattern, filled from its second entry on. -/
def tableChecked (pattern : Bytes) : Option (Array Nat) :=
  fillChecked pattern.toArray (List.range' 1 (pattern.length - 1)) 0
    (Array.replicate pattern.length 0)

/-- Read the text until the pattern is found or the text ends. -/
def seekChecked (pattern : Array UInt8) (table : Array Nat) :
    (text : Bytes) → (position matched : Nat) → Option (Option Nat)
  | [], _, _ => some none
  | octet :: text, position, matched => do
      let longer ← extendChecked pattern table octet matched
      if longer = pattern.size then
        let place ← difference? (position + 1) pattern.size
        return some place
      else
        seekChecked pattern table text (position + 1) longer

/--
The search from `start` on; the outer result is missing if an operation fails.
-/
def indexFromChecked (text pattern : Bytes) (start : Nat) :
    Option (Option Nat) :=
  if pattern.isEmpty then
    some (if start ≤ text.length then some start else none)
  else if text.length ≤ start then
    some none
  else do
    let table ← tableChecked pattern
    seekChecked pattern.toArray table (text.drop start) start 0

/-! ## No operation fails -/

theorem Longest.unique
    {pattern text : Bytes}
    {count other : Nat}
    (longest : Longest pattern text count)
    (otherLongest : Longest pattern text other) :
    count = other :=
  Nat.le_antisymm (otherLongest.greatest count longest.fits longest.ends)
    (longest.greatest other otherLongest.fits otherLongest.ends)

theorem extendChecked_eq
    {pattern : Bytes}
    {table : Array Nat}
    {matched : Nat}
    (bordered : Bordered pattern table matched)
    (inside : matched < pattern.length)
    (octet : UInt8) :
    extendChecked pattern.toArray table octet matched =
      some (extend pattern.toArray table octet matched) := by
  induction matched using Nat.strong_induction_on with
  | h matched ih =>
      unfold extendChecked extend
      rw [List.getElem?_toArray, List.getElem?_eq_getElem inside]
      dsimp only
      by_cases continues : pattern[matched] = octet
      · rw [if_pos continues, if_pos (congrArg some continues)]
      · rw [if_neg continues,
          if_neg (fun same => continues (Option.some.inj same))]
        cases matched with
        | zero => rw [if_pos rfl, if_neg (Nat.not_lt_zero _)]
        | succ previous =>
            rcases bordered previous (Nat.lt_succ_self previous) with
              ⟨border, stored, longest⟩
            have short : border < previous + 1 := by
              have length := longest.le_length
              rw [List.length_take] at length
              omega
            rw [if_neg (Nat.succ_ne_zero previous), Nat.add_sub_cancel, stored,
              Option.getD_some, if_pos short]
            dsimp only
            rw [if_pos short]
            exact ih border short (bordered.mono (Nat.le_of_lt short))
              (by omega)

theorem bordered_setIfInBounds
    {pattern : Bytes}
    {table : Array Nat}
    {index entry : Nat}
    (bordered : Bordered pattern table index)
    (inside : index < table.size)
    (longest : Longest pattern (pattern.tail.take index) entry) :
    Bordered pattern (table.setIfInBounds index entry) (index + 1) := by
  intro other before
  rcases Nat.lt_succ_iff_lt_or_eq.mp before with earlier | rfl
  · rw [Array.getElem?_setIfInBounds_ne (Nat.ne_of_gt earlier)]
    exact bordered other earlier
  · exact ⟨entry, Array.getElem?_setIfInBounds_self_of_lt inside, longest⟩

/--
Every index of the table is written, each after the entries that it depends on.
-/
theorem exists_fillChecked
    {pattern done upcoming : Bytes}
    {matched : Nat}
    {table : Array Nat}
    (split : pattern.tail = done ++ upcoming)
    (size : table.size = pattern.length)
    (fits : done.length < pattern.length)
    (bordered : Bordered pattern table (done.length + 1))
    (longest : Longest pattern done matched) :
    ∃ filled,
      fillChecked pattern.toArray
        (List.range' (done.length + 1) upcoming.length)
        matched table = some filled ∧
      filled.size = pattern.length ∧
        Bordered pattern filled (pattern.tail.length + 1) := by
  induction upcoming generalizing done matched table with
  | nil =>
      refine ⟨table, rfl, size, ?_⟩
      rw [split, List.append_nil]
      exact bordered
  | cons octet upcoming ih =>
      have split' : pattern.tail = (done ++ [octet]) ++ upcoming := by
        rw [split, List.append_assoc, List.singleton_append]
      have within : done.length + 1 < pattern.length := by
        have length := congrArg List.length split
        rw [List.length_tail, List.length_append, List.length_cons] at length
        omega
      have read : pattern[done.length + 1]? = some octet := by
        rw [← List.getElem?_tail, split,
          List.getElem?_append_right (Nat.le_refl _), Nat.sub_self,
          List.getElem?_cons_zero]
      have earlier := bordered.mono (Nat.le_succ_of_le longest.le_length)
      have step :=
        extendChecked_eq earlier (Nat.lt_of_le_of_lt longest.le_length fits)
          octet
      have longer := longest.extend earlier octet
      have reached : pattern.tail.take (done.length + 1) = done ++ [octet] := by
        rw [split']
        exact List.take_left' (by rw [List.length_append,
          List.length_singleton])
      have length : (done ++ [octet]).length = done.length + 1 := by
        rw [List.length_append, List.length_singleton]
      rw [List.length_cons, List.range'_succ, fillChecked,
        List.getElem?_toArray, read]
      dsimp only [Option.bind_eq_bind, Option.bind_some]
      rw [step, Option.bind_some, write?, if_pos (size.symm ▸ within),
        Option.bind_some, ← length]
      apply ih split'
      · rw [Array.size_setIfInBounds, size]
      · rw [length]
        exact within
      · rw [length]
        apply bordered_setIfInBounds bordered (size.symm ▸ within)
        rw [reached]
        exact longer
      · exact longer

theorem size_continueBorders
    (pattern : Array UInt8)
    (upcoming : Bytes)
    (matched : Nat)
    (borders : Array Nat) :
    (continueBorders pattern upcoming matched borders).size =
      borders.size + upcoming.length := by
  induction upcoming generalizing matched borders with
  | nil => rfl
  | cons octet upcoming ih =>
      rw [continueBorders, ih, Array.size_push, List.length_cons,
        Nat.add_right_comm, Nat.add_assoc]

theorem size_borders (pattern : Bytes) :
    (borders pattern).size = pattern.length := by
  cases pattern with
  | nil => rfl
  | cons first upcoming =>
      rw [borders, size_continueBorders, List.length_cons, Nat.add_comm]
      rfl

/-- Longest borders are unique, so there is only one table of them. -/
theorem eq_borders
    {pattern : Bytes}
    {table : Array Nat}
    (size : table.size = pattern.length)
    (bordered : Bordered pattern table pattern.length) :
    table = borders pattern := by
  apply Array.ext_getElem?
  intro index
  by_cases inside : index < pattern.length
  · rcases bordered index inside with ⟨count, stored, longest⟩
    rcases bordered_borders pattern index inside with
      ⟨other, otherStored, otherLongest⟩
    rw [stored, otherStored, longest.unique otherLongest]
  · rw [Array.getElem?_eq_none (by omega),
      Array.getElem?_eq_none (by rw [size_borders]; omega)]

theorem tableChecked_eq {pattern : Bytes} (nonempty : pattern ≠ []) :
    tableChecked pattern = some (borders pattern) := by
  have positive := List.length_pos_iff.mpr nonempty
  have length : pattern.tail.length + 1 = pattern.length := by
    rw [List.length_tail]
    omega
  have start : Bordered pattern (Array.replicate pattern.length 0) 1 := by
    intro index inside
    rw [Nat.lt_one_iff.mp inside]
    refine ⟨0, ?_, longest_nil _⟩
    rw [Array.getElem?_replicate, if_pos positive]
  rcases exists_fillChecked (List.nil_append pattern.tail).symm
    Array.size_replicate positive
    start (longest_nil _) with ⟨filled, result, size, bordered⟩
  rw [length] at bordered
  rw [tableChecked, ← eq_borders size bordered, ← List.length_tail]
  exact result

theorem seekChecked_eq
    {pattern : Bytes}
    {front : Bytes}
    {start matched : Nat}
    (begun : start ≤ front.length)
    (inside : matched < pattern.length)
    (longest : Longest pattern (front.drop start) matched)
    (text : Bytes) :
    seekChecked pattern.toArray (borders pattern) text front.length matched =
      some (seek pattern.toArray (borders pattern) text
        front.length matched) := by
  induction text generalizing front matched with
  | nil => rfl
  | cons octet text ih =>
      have bordered := (bordered_borders pattern).mono longest.fits
      have longer := longest.extend bordered octet
      rw [← List.drop_append_of_le_length begun] at longer
      have read : (front ++ [octet]).length = front.length + 1 :=
        List.length_append
      rw [seekChecked, extendChecked_eq bordered inside octet, seek]
      dsimp only [Option.bind_eq_bind, Option.bind_some]
      rw [List.size_toArray]
      split
      · rename_i complete
        have reached := longer.le_length
        rw [List.length_drop, complete] at reached
        rw [difference?, if_pos (by omega)]
        rfl
      · rename_i incomplete
        rw [← read]
        exact ih (by omega) (Nat.lt_of_le_of_ne longer.fits incomplete) longer

/--
No index is out of bounds, no difference is negative, and the search ends.
-/
theorem indexFromChecked_eq (text pattern : Bytes) (start : Nat) :
    indexFromChecked text pattern start =
      some (indexFrom? text pattern start) := by
  unfold indexFromChecked indexFrom?
  split
  · rfl
  · rename_i filled
    have nonempty : pattern ≠ [] :=
      fun empty => filled (List.isEmpty_iff.mpr empty)
    split
    · rename_i beyond
      rw [List.drop_eq_nil_of_le beyond, seek]
    · rename_i within
      have length : (text.take start).length = start :=
        List.length_take_of_le (by omega)
      have nothing : (text.take start).drop start = [] := by
        rw [List.drop_eq_nil_iff, length]
      have sought :=
        seekChecked_eq (Nat.le_of_eq length.symm)
          (List.length_pos_iff.mpr nonempty)
          (nothing ▸ longest_nil pattern) (text.drop start)
      rw [length] at sought
      rw [tableChecked_eq nonempty]
      exact sought

/-! ## The least place -/

/-- The pattern stands in the text at this place. -/
def OccursAt (text pattern : Bytes) (place : Nat) : Prop :=
  place + pattern.length ≤ text.length ∧
    (text.drop place).take pattern.length = pattern

instance (text pattern : Bytes) (place : Nat) :
    Decidable (OccursAt text pattern place) :=
  inferInstanceAs (Decidable (_ ∧ _))

theorem occursAt_iff_begins (text pattern : Bytes) (place : Nat) :
    OccursAt text pattern place ↔
      place ≤ text.length ∧ pattern <+: text.drop place := by
  constructor
  · rintro ⟨fits, same⟩
    exact ⟨Nat.le_of_add_right_le fits, List.prefix_iff_eq_take.mpr same.symm⟩
  · rintro ⟨inside, begins⟩
    have length := begins.length_le
    rw [List.length_drop] at length
    exact ⟨by omega, (List.prefix_iff_eq_take.mp begins).symm⟩

theorem indexFrom?_eq_some_iff_isLeast
    (text pattern : Bytes)
    (start place : Nat) :
    indexFrom? text pattern start = some place ↔
      IsLeast {other | start ≤ other ∧ OccursAt text pattern other} place := by
  rw [indexFrom?_eq_some_iff]
  constructor
  · rintro ⟨after, inside, begins, least⟩
    refine ⟨⟨after, (occursAt_iff_begins _ _ _).mpr ⟨inside, begins⟩⟩, ?_⟩
    rintro other ⟨otherAfter, occurs⟩
    rcases (occursAt_iff_begins _ _ _).mp occurs with ⟨otherInside, otherBegins⟩
    exact least other otherAfter otherInside otherBegins
  · rintro ⟨⟨after, occurs⟩, least⟩
    rcases (occursAt_iff_begins _ _ _).mp occurs with ⟨inside, begins⟩
    refine ⟨after, inside, begins, ?_⟩
    intro other otherAfter otherInside otherBegins
    exact least ⟨otherAfter,
      (occursAt_iff_begins _ _ _).mpr ⟨otherInside, otherBegins⟩⟩

theorem indexFrom?_eq_none_iff (text pattern : Bytes) (start : Nat) :
    indexFrom? text pattern start = none ↔
      ¬∃ place, start ≤ place ∧ OccursAt text pattern place := by
  constructor
  · intro absent somewhere
    classical
    have least : IsLeast {other | start ≤ other ∧ OccursAt text pattern other}
        (Nat.find somewhere) :=
      ⟨Nat.find_spec somewhere,
        fun other occurs => Nat.find_min' somewhere occurs⟩
    rw [(indexFrom?_eq_some_iff_isLeast _ _ _ _).mpr least] at absent
    cases absent
  · intro nowhere
    cases found : indexFrom? text pattern start with
    | none => rfl
    | some place =>
        exact absurd ⟨place,
          ((indexFrom?_eq_some_iff_isLeast _ _ _ _).mp found).1⟩ nowhere

/--
The search returns the least place from `start` on where the pattern stands, and
nothing exactly if there is none; in doing so it never leaves the bounds of its
pattern and of its table, and never subtracts too much.
-/
theorem indexFrom?_eq_least_occurrence (text pattern : Bytes) (start : Nat) :
    (∀ place, indexFrom? text pattern start = some place ↔
      IsLeast {other | start ≤ other ∧ OccursAt text pattern other} place) ∧
    (indexFrom? text pattern start = none ↔
      ¬∃ place, start ≤ place ∧ OccursAt text pattern place) ∧
    indexFromChecked text pattern start =
      some (indexFrom? text pattern start) :=
  ⟨indexFrom?_eq_some_iff_isLeast text pattern start,
    indexFrom?_eq_none_iff text pattern start,
    indexFromChecked_eq text pattern start⟩

-- The pattern overlaps with itself, and a partial match begins inside of
-- another one.
example :
    indexFromChecked (Bytes.ofString "abababca") (Bytes.ofString "ababca") 1 =
      some (some 2) := by
  decide +kernel

end SmaliFlow.Search
