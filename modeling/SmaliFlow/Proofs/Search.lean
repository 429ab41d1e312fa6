import Mathlib.Data.List.Infix
import Mathlib.Data.Nat.Find
import SmaliFlow.Text.Search

/-!
# The search finds what occurs

While a text is read, the search knows the greatest number of octets of the
pattern that the text so far ends with.  One step keeps this knowledge: whatever
the longer text ends with, apart from its last octet, is a beginning of the
pattern that the shorter text ends with, and falling back along the borders
visits all of these from the longest on.

The border table is the same search, run on the pattern without its first octet.
A border of a beginning of the pattern is exactly what this beginning, without
its first octet, ends with.
-/

namespace SmaliFlow.Search

/-- The greatest number of octets of the pattern that the text ends with. -/
structure Longest (pattern text : Bytes) (count : Nat) : Prop where
  fits : count ≤ pattern.length
  ends : pattern.take count <:+ text
  greatest : ∀ other ≤ pattern.length,
    pattern.take other <:+ text → other ≤ count

/--
For each index below `size` the table holds the longest border of the beginning
of the pattern that ends there.
-/
def Bordered (pattern : Bytes) (borders : Array Nat) (size : Nat) : Prop :=
  ∀ index < size, ∃ count, borders[index]? = some count ∧
    Longest pattern (pattern.tail.take index) count

/-! ## Beginnings of the pattern at the end of a text -/

theorem take_succ_suffix_concat_iff
    (pattern text : Bytes)
    (octet : UInt8)
    {count : Nat}
    (inside : count < pattern.length) :
    pattern.take (count + 1) <:+ text ++ [octet] ↔
      pattern.take count <:+ text ∧ pattern[count]? = some octet := by
  rw [List.take_succ_eq_append_getElem inside, List.suffix_concat_iff,
    List.getElem?_eq_getElem inside]
  constructor
  · rintro (empty | ⟨front, equal, suffix⟩)
    · cases (List.append_eq_nil_iff.mp empty).2
    · rcases List.append_inj' equal rfl with ⟨rfl, same⟩
      exact ⟨suffix, congrArg some (List.singleton_inj.mp same)⟩
  · rintro ⟨suffix, same⟩
    rw [Option.some.inj same]
    exact Or.inr ⟨_, rfl, suffix⟩

/--
What a beginning of the pattern ends with, and is shorter, also ends it without
its first octet.
-/
theorem take_suffix_tail_iff
    {pattern : Bytes}
    {count longer : Nat}
    (shorter : count ≤ longer)
    (inside : longer < pattern.length) :
    pattern.take count <:+ pattern.take (longer + 1) ↔
      pattern.take count <:+ pattern.tail.take longer := by
  cases pattern with
  | nil => simp at inside
  | cons first pattern =>
      rw [List.tail_cons, List.take_succ_cons]
      constructor
      · intro suffix
        apply List.suffix_of_suffix_length_le suffix (List.suffix_cons first _)
        rw [List.length_cons] at inside
        rw [List.length_take, List.length_take]
        omega
      · intro suffix
        exact suffix.trans (List.suffix_cons first _)

theorem Longest.le_length
    {pattern text : Bytes}
    {count : Nat}
    (longest : Longest pattern text count) :
    count ≤ text.length := by
  have length := longest.ends.length_le
  rw [List.length_take_of_le longest.fits] at length
  exact length

theorem Longest.eq_length_iff
    {pattern text : Bytes}
    {count : Nat}
    (longest : Longest pattern text count) :
    count = pattern.length ↔ pattern <:+ text := by
  constructor
  · rintro rfl
    have ends := longest.ends
    rwa [List.take_length] at ends
  · intro suffix
    have whole :=
      longest.greatest pattern.length (Nat.le_refl _)
        (by rwa [List.take_length])
    exact Nat.le_antisymm longest.fits whole

theorem longest_nil (pattern : Bytes) : Longest pattern [] 0 where
  fits := Nat.zero_le _
  ends := by rw [List.take_zero]
  greatest := by
    intro other fits suffix
    have length := suffix.length_le
    rw [List.length_take_of_le fits, List.length_nil] at length
    exact length

/-! ## One step -/

/--
One step of the search finds the longest beginning of the pattern again, as long
as no beginning that can be continued is longer than the one it starts from.
-/
theorem longest_extend
    {pattern text : Bytes}
    {borders : Array Nat}
    {octet : UInt8}
    {matched : Nat}
    (bordered : Bordered pattern borders matched)
    (fits : matched ≤ pattern.length)
    (ends : pattern.take matched <:+ text)
    (greatest : ∀ other < pattern.length, pattern.take other <:+ text →
      pattern[other]? = some octet → other ≤ matched) :
    Longest pattern (text ++
      [octet]) (extend pattern.toArray borders octet matched) := by
  induction matched using Nat.strong_induction_on with
  | h matched ih =>
      unfold extend
      rw [List.getElem?_toArray]
      split
      · rename_i continues
        have inside := (List.getElem?_eq_some_iff.mp continues).1
        refine ⟨inside, ?_, ?_⟩
        · exact (take_succ_suffix_concat_iff pattern text octet inside).mpr
            ⟨ends, continues⟩
        · intro other otherFits suffix
          cases other with
          | zero => exact Nat.zero_le _
          | succ other =>
              rcases (take_succ_suffix_concat_iff pattern text octet
                otherFits).mp suffix with
                ⟨shorter, next⟩
              exact Nat.succ_le_succ (greatest other otherFits shorter next)
      · rename_i stops
        have below : ∀ other < pattern.length, pattern.take other <:+ text →
            pattern[other]? = some octet → other < matched := by
          intro other inside suffix next
          apply Nat.lt_of_le_of_ne (greatest other inside suffix next)
          rintro rfl
          exact stops next
        cases matched with
        | zero =>
            rw [if_neg (Nat.not_lt_zero _)]
            refine ⟨Nat.zero_le _, by
              rw [List.take_zero]; exact List.nil_suffix, ?_⟩
            intro other otherFits suffix
            cases other with
            | zero => exact Nat.le_refl 0
            | succ other =>
                rcases (take_succ_suffix_concat_iff pattern text octet
                  otherFits).mp suffix with
                  ⟨shorter, next⟩
                exact (Nat.not_lt_zero _
                  (below other otherFits shorter next)).elim
        | succ previous =>
            -- The longest border is where the next candidate stands.
            rcases bordered previous (Nat.lt_succ_self previous) with
              ⟨border, stored, longest⟩
            have short : border ≤ previous := by
              have length := longest.le_length
              rw [List.length_take] at length
              omega
            rw [Nat.add_sub_cancel, stored, Option.getD_some,
              if_pos (Nat.lt_succ_of_le short)]
            apply ih border (Nat.lt_succ_of_le short)
            · intro index before
              exact bordered index (by omega)
            · exact longest.fits
            · exact ((take_suffix_tail_iff short fits).mpr longest.ends).trans
                ends
            · intro other inside suffix next
              have before := below other inside suffix next
              have border :
                  pattern.take other <:+ pattern.take (previous + 1) := by
                apply List.suffix_of_suffix_length_le suffix ends
                rw [List.length_take, List.length_take]
                omega
              rw [take_suffix_tail_iff (Nat.le_of_lt_succ before) fits]
                at border
              exact longest.greatest other (Nat.le_of_lt inside) border

theorem Longest.extend
    {pattern text : Bytes}
    {borders : Array Nat}
    {matched : Nat}
    (longest : Longest pattern text matched)
    (bordered : Bordered pattern borders matched)
    (octet : UInt8) :
    Longest pattern (text ++ [octet])
      (Search.extend pattern.toArray borders octet matched) := by
  apply longest_extend bordered longest.fits longest.ends
  intro other inside suffix _
  exact longest.greatest other (Nat.le_of_lt inside) suffix

theorem Bordered.mono
    {pattern : Bytes}
    {borders : Array Nat}
    {size smaller : Nat}
    (bordered : Bordered pattern borders size)
    (le : smaller ≤ size) :
    Bordered pattern borders smaller :=
  fun index inside => bordered index (Nat.lt_of_lt_of_le inside le)

/-! ## The border table -/

theorem bordered_continueBorders
    {pattern done upcoming : Bytes}
    {matched : Nat}
    {borders : Array Nat}
    (split : pattern.tail = done ++ upcoming)
    (size : borders.size = done.length + 1)
    (bordered : Bordered pattern borders (done.length + 1))
    (longest : Longest pattern done matched) :
    Bordered pattern (continueBorders pattern.toArray upcoming matched borders)
      (pattern.tail.length + 1) := by
  induction upcoming generalizing done matched borders with
  | nil =>
      rw [split, List.append_nil]
      exact bordered
  | cons octet upcoming ih =>
      have earlier := bordered.mono (Nat.le_succ_of_le longest.le_length)
      have longer := longest.extend earlier octet
      have split' : pattern.tail = (done ++ [octet]) ++ upcoming := by
        rw [split, List.append_assoc, List.singleton_append]
      rw [continueBorders]
      apply ih split'
      · rw [Array.size_push, size, List.length_append, List.length_singleton]
      · intro index inside
        rw [List.length_append, List.length_singleton] at inside
        rcases Nat.lt_succ_iff_lt_or_eq.mp inside with before | last
        · rw [Array.getElem?_push_lt (by omega), ← Array.getElem?_eq_getElem]
          exact bordered index before
        · refine ⟨Search.extend pattern.toArray borders octet matched, ?_, ?_⟩
          · rw [last, ← size]
            exact Array.getElem?_push_size
          · have read : pattern.tail.take index = done ++ [octet] := by
              rw [split', last]
              exact List.take_left' (by rw [List.length_append,
                List.length_singleton])
            rw [read]
            exact longer
      · exact longer

/--
The border table holds the longest borders of all beginnings of the pattern.
-/
theorem bordered_borders (pattern : Bytes) :
    Bordered pattern (borders pattern) pattern.length := by
  cases pattern with
  | nil =>
      intro index inside
      cases inside
  | cons first upcoming =>
      have split : (first :: upcoming).tail = [] ++ upcoming := rfl
      have start : Bordered (first :: upcoming) #[0] 1 := by
        intro index inside
        rw [Nat.lt_one_iff.mp inside]
        exact ⟨0, rfl, longest_nil _⟩
      exact bordered_continueBorders split rfl start (longest_nil _)

/-! ## The search -/

/--
The first occurrence of the pattern from `start` on that does not end among the
first `read` octets of the text.
-/
structure FirstBehind (pattern text : Bytes) (start read index : Nat) :
    Prop where
  started : start ≤ index
  occurs : pattern <+: text.drop index
  behind : read < index + pattern.length
  least : ∀ other, start ≤ other → pattern <+: text.drop other →
    read < other + pattern.length → index ≤ other

/--
The pattern ends what has been read exactly if it occurs where it would begin.
-/
theorem suffix_drop_iff
    {pattern read : Bytes}
    (rest : Bytes)
    {start : Nat}
    (begun : start ≤ read.length) :
    pattern <:+ read.drop start ↔
      ∃ index, start ≤ index ∧ index + pattern.length = read.length ∧
        pattern <+: (read ++ rest).drop index := by
  constructor
  · rintro ⟨skipped, split⟩
    have whole : read = read.take start ++ skipped ++ pattern := by
      rw [List.append_assoc, split, List.take_append_drop]
    have length := congrArg List.length split
    rw [List.length_append, List.length_drop] at length
    refine ⟨start + skipped.length, Nat.le_add_right _ _, by omega, rest, ?_⟩
    rw [whole, List.append_assoc _ pattern rest, List.drop_left']
    rw [List.length_append, List.length_take_of_le begun]
  · rintro ⟨index, after, ends, occurs⟩
    rw [List.drop_append_of_le_length (by omega)] at occurs
    have exact : pattern = read.drop index := by
      apply (List.prefix_of_prefix_length_le occurs (List.prefix_append _ _)
        ?_).eq_of_length
      · rw [List.length_drop]
        omega
      · rw [List.length_drop]
        omega
    rw [exact, ← Nat.add_sub_cancel' after, ← List.drop_drop]
    exact List.drop_suffix _ _

theorem length_le_of_prefix_drop
    {pattern text : Bytes}
    {index : Nat}
    (nonempty : pattern ≠ [])
    (occurs : pattern <+: text.drop index) :
    index + pattern.length ≤ text.length := by
  have length := occurs.length_le
  have positive := List.length_pos_iff.mpr nonempty
  rw [List.length_drop] at length
  omega

theorem FirstBehind.unique
    {pattern text : Bytes}
    {start read index other : Nat}
    (first : FirstBehind pattern text start read index)
    (otherFirst : FirstBehind pattern text start read other) :
    index = other :=
  Nat.le_antisymm (first.least other otherFirst.started otherFirst.occurs
    otherFirst.behind)
    (otherFirst.least index first.started first.occurs first.behind)

theorem firstBehind_succ_iff
    {pattern text : Bytes}
    {start read : Nat}
    (none : ∀ index, start ≤ index → index + pattern.length = read + 1 →
      ¬pattern <+: text.drop index)
    (index : Nat) :
    FirstBehind pattern text start (read + 1) index ↔
      FirstBehind pattern text start read index := by
  have later : ∀ other, start ≤ other → pattern <+: text.drop other →
      read < other + pattern.length → read + 1 < other + pattern.length := by
    intro other started occurs behind
    apply Nat.lt_of_le_of_ne behind
    intro ends
    exact none other started ends.symm occurs
  constructor
  · intro first
    refine ⟨first.started, first.occurs, Nat.lt_of_succ_lt first.behind, ?_⟩
    intro other started occurs behind
    exact first.least other started occurs (later other started occurs behind)
  · intro first
    refine ⟨first.started, first.occurs,
      later index first.started first.occurs first.behind, ?_⟩
    intro other started occurs behind
    exact first.least other started occurs (Nat.lt_of_succ_lt behind)

/-- Reading on finds the first occurrence that has not ended yet. -/
theorem seek_eq_some_iff
    {pattern : Bytes}
    (nonempty : pattern ≠ [])
    {start matched : Nat}
    {front : Bytes}
    (begun : start ≤ front.length)
    (longest : Longest pattern (front.drop start) matched)
    (text : Bytes)
    (index : Nat) :
    seek pattern.toArray (borders pattern) text front.length matched =
      some index ↔
      FirstBehind pattern (front ++ text) start front.length index := by
  induction text generalizing front matched with
  | nil =>
      rw [seek, List.append_nil]
      constructor
      · intro found
        cases found
      · intro first
        have inside := length_le_of_prefix_drop nonempty first.occurs
        exact (Nat.not_lt_of_le inside first.behind).elim
  | cons octet text ih =>
      have read : (front ++ [octet]).length = front.length + 1 :=
        List.length_append
      have split : front ++ octet :: text = (front ++ [octet]) ++ text := by
        rw [List.append_assoc, List.singleton_append]
      have begun' : start ≤ (front ++ [octet]).length := by omega
      have longer :=
        longest.extend ((bordered_borders pattern).mono longest.fits) octet
      rw [← List.drop_append_of_le_length begun] at longer
      rw [seek, split, List.size_toArray]
      split
      · rename_i complete
        rcases (suffix_drop_iff text begun').mp
            (longer.eq_length_iff.mp complete) with
          ⟨found, started, length, occurs⟩
        have first :
            FirstBehind pattern (front ++ [octet] ++ text) start
              front.length found :=
          ⟨started, occurs, by omega, fun other _ _ behind => by omega⟩
        have place : front.length + 1 - pattern.length = found := by omega
        rw [place, Option.some.injEq]
        constructor
        · rintro rfl
          exact first
        · exact first.unique
      · rename_i incomplete
        rw [← read, ih begun' longer, read]
        apply firstBehind_succ_iff
        intro other started length occurs
        have ends :=
          (suffix_drop_iff text begun').mpr ⟨other, started, by omega, occurs⟩
        exact incomplete (longer.eq_length_iff.mpr ends)

/--
The search returns the first place from `start` on where the pattern occurs, and
nothing only if there is none.
-/
theorem indexFrom?_eq_some_iff (text pattern : Bytes) (start index : Nat) :
    indexFrom? text pattern start = some index ↔
      start ≤ index ∧ index ≤ text.length ∧ pattern <+: text.drop index ∧
        ∀ other, start ≤ other → other ≤ text.length →
          pattern <+: text.drop other →
          index ≤ other := by
  unfold indexFrom?
  by_cases nonempty : pattern = []
  · subst nonempty
    rw [List.isEmpty_nil, if_pos rfl, Option.ite_none_right_eq_some,
      Option.some.injEq]
    constructor
    · rintro ⟨inside, rfl⟩
      exact ⟨Nat.le_refl _, inside, List.nil_prefix,
        fun other after _ _ => after⟩
    · rintro ⟨after, inside, -, least⟩
      have within := Nat.le_trans after inside
      exact ⟨within,
        Nat.le_antisymm after (least start (Nat.le_refl _) within
          List.nil_prefix)⟩
  · rw [List.isEmpty_eq_false_iff.mpr nonempty, if_neg Bool.false_ne_true]
    have positive := List.length_pos_iff.mpr nonempty
    by_cases inside : start ≤ text.length
    · have length : (text.take start).length = start :=
        List.length_take_of_le inside
      have nothing : (text.take start).drop start = [] := by
        rw [List.drop_eq_nil_iff, length]
      have sought := seek_eq_some_iff nonempty (Nat.le_of_eq length.symm)
        (nothing ▸ longest_nil pattern) (text.drop start) index
      rw [length, List.take_append_drop] at sought
      rw [sought]
      constructor
      · intro first
        have fits := length_le_of_prefix_drop nonempty first.occurs
        refine ⟨first.started, by omega, first.occurs, ?_⟩
        intro other after _ occurs
        exact first.least other after occurs (by omega)
      · rintro ⟨after, within, occurs, least⟩
        refine ⟨after, occurs, by omega, ?_⟩
        intro other otherAfter otherOccurs _
        have fits := length_le_of_prefix_drop nonempty otherOccurs
        exact least other otherAfter (by omega) otherOccurs
    · rw [List.drop_eq_nil_of_le (by omega), seek]
      constructor
      · intro found
        cases found
      · rintro ⟨after, within, -⟩
        exact (inside (Nat.le_trans after within)).elim

/-- The search answers whether the pattern occurs. -/
theorem contains_iff_infix (text pattern : Bytes) :
    contains text pattern = true ↔ pattern <:+: text := by
  rw [contains, Option.isSome_iff_exists]
  simp only [index?, indexFrom?_eq_some_iff]
  constructor
  · rintro ⟨index, -, -, occurs, -⟩
    exact occurs.isInfix.trans (List.drop_suffix index text).isInfix
  · rintro ⟨before, after, rfl⟩
    have somewhere : ∃ index, index ≤ (before ++ pattern ++ after).length ∧
        pattern <+: (before ++ pattern ++ after).drop index := by
      refine ⟨before.length, ?_, after, ?_⟩
      · rw [List.append_assoc, List.length_append]
        omega
      · rw [List.append_assoc, List.drop_left]
    classical
    have first := Nat.find_spec somewhere
    refine ⟨Nat.find somewhere, Nat.zero_le _, first.1, first.2, ?_⟩
    intro other _ within occurs
    exact Nat.find_min' somewhere ⟨within, occurs⟩

end SmaliFlow.Search
