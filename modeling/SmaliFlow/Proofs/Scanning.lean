import Mathlib.Data.List.DropRight
import SmaliFlow.Text.Scan

/-!
# What scanners accept

A scanner takes the longest run of octets it can.  So what it accepts is a run
of octets of one class together with the condition that the rest does not
continue the run, and what it cuts at is the first occurrence of a word.  Each
scanner is followed by the statement of exactly what it accepts; the grammars of
lines are put together from these statements.

The types of this module carry what they promise: a `Run` holds octets of its
class only, a `Word` is a run that is not empty.
-/

namespace SmaliFlow

/-! ## Classes of octets -/

namespace Octet

theorem isPadding_eq_not_isVisible (octet : UInt8) :
    isPadding octet = !isVisible octet := by
  by_cases low : octet ≤ 0x20
  · simp [isPadding, isVisible, low, UInt8.not_lt.mpr low]
  · simp [isPadding, isVisible, low, UInt8.not_le.mp low]

theorem isPadding_eq_false_iff (octet : UInt8) :
    isPadding octet = false ↔ isVisible octet = true := by
  rw [isPadding_eq_not_isVisible, Bool.not_eq_false']

theorem isVisible_eq_false_iff (octet : UInt8) :
    isVisible octet = false ↔ isPadding octet = true := by
  rw [isPadding_eq_not_isVisible, Bool.not_eq_true']

theorem eq_of_isBlank {octet : UInt8} (blank : isBlank octet = true) :
    octet = 0x20 ∨ octet = 0x09 := by
  simpa [isBlank] using blank

theorem isPadding_of_isBlank {octet : UInt8} (blank : isBlank octet = true) :
    isPadding octet = true := by
  rcases eq_of_isBlank blank with rfl | rfl <;> decide

theorem isVisible_of_isBlank {octet : UInt8} (blank : isBlank octet = true) :
    isVisible octet = false :=
  (isVisible_eq_false_iff octet).mpr (isPadding_of_isBlank blank)

theorem isBlank_of_isVisible
    {octet : UInt8}
    (visible : isVisible octet = true) :
    isBlank octet = false := by
  by_contra blank
  rw [Bool.not_eq_false] at blank
  rw [isVisible_of_isBlank blank] at visible
  cases visible

theorem isVisible_of_isAlphanumeric
    {octet : UInt8}
    (alphanumeric : isAlphanumeric octet = true) :
    isVisible octet = true := by
  simp only [isAlphanumeric, isDigit, isUpper, isLower, isVisible,
    Bool.or_eq_true, Bool.and_eq_true, decide_eq_true_eq, UInt8.le_iff_toNat_le,
    UInt8.lt_iff_toNat_lt, UInt8.reduceToNat] at alphanumeric ⊢
  omega

/-- Only a dot has the small letter of a dot. -/
theorem eq_dot_of_toLower {octet : UInt8} (same : toLower octet = 0x2e) :
    octet = 0x2e := by
  unfold toLower at same
  split at same
  · rename_i upper
    simp only [isUpper, Bool.and_eq_true, decide_eq_true_eq,
      UInt8.le_iff_toNat_le, UInt8.reduceToNat] at upper
    have values := congrArg UInt8.toNat same
    simp only [UInt8.toNat_add, UInt8.reduceToNat] at values
    omega
  · exact same

end Octet

theorem Bytes.toLower_append (front back : Bytes) :
    (front ++ back).toLower = front.toLower ++ back.toLower :=
  List.map_append

namespace Scan

/-! ## Runs -/

/-- Octets of one class. -/
structure Run (accept : UInt8 → Bool) where
  octets : Bytes
  accepted : ∀ octet ∈ octets, accept octet = true

/-- Octets of one class, at least one of them. -/
structure Word (accept : UInt8 → Bool) extends Run accept where
  nonempty : octets ≠ []

/-- Any number of spaces and tabs. -/
abbrev Blanks := Run Octet.isBlank

/-- Spaces and tabs, at least one of them. -/
abbrev Gap := Word Octet.isBlank

/-- Any number of octets that trimming takes away. -/
abbrev Padding := Run Octet.isPadding

/--
The octets do not continue a run of the class: there are none, or the first is
no member.
-/
def Halts (accept : UInt8 → Bool) (rest : Bytes) : Prop :=
  ∀ octet ∈ rest.head?, accept octet = false

instance (accept : UInt8 → Bool) (rest : Bytes) :
    Decidable (Halts accept rest) :=
  inferInstanceAs (Decidable (∀ octet ∈ rest.head?, accept octet = false))

section Halting

variable {accept other : UInt8 → Bool}

theorem halts_nil : Halts accept [] := by
  intro octet member
  cases member

theorem halts_cons
    {octet : UInt8}
    (stops : accept octet = false)
    (rest : Bytes) :
    Halts accept (octet :: rest) := by
  intro first member
  cases member
  exact stops

theorem Halts.head
    {octet : UInt8}
    {rest : Bytes}
    (halts : Halts accept (octet :: rest)) :
    accept octet = false :=
  halts octet rfl

theorem Halts.append
    {front back : Bytes}
    (frontHalts : Halts accept front)
    (backHalts : Halts accept back) :
    Halts accept (front ++ back) := by
  cases front with
  | nil => exact backHalts
  | cons octet front => exact halts_cons frontHalts.head _

theorem Halts.of_begins
    {rest shorter : Bytes}
    (halts : Halts accept rest)
    (begins : shorter <+: rest) :
    Halts accept shorter := by
  rcases begins with ⟨behind, rfl⟩
  cases shorter with
  | nil => exact halts_nil
  | cons octet shorter => exact halts_cons halts.head _

/-- A run of one class halts every run of a class apart from it. -/
theorem Run.halts
    (run : Run accept)
    (apart : ∀ octet, accept octet = true → other octet = false) :
    Halts other run.octets := by
  intro octet member
  exact apart octet (run.accepted octet (List.mem_of_mem_head? member))

theorem Word.halts
    (word : Word accept)
    (apart : ∀ octet, accept octet = true → other octet = false)
    (rest : Bytes) :
    Halts other (word.octets ++ rest) := by
  rcases List.exists_cons_of_ne_nil word.nonempty with ⟨octet, octets, split⟩
  rw [split, List.cons_append]
  exact halts_cons (apart octet
    (word.accepted octet (split ▸ List.mem_cons_self))) _

/--
A text that ends with a word ends, read backwards, runs of classes apart from
it.
-/
theorem Word.halts_reverse
    (word : Word accept)
    (apart : ∀ octet, accept octet = true → other octet = false)
    (front : Bytes) :
    Halts other (front ++ word.octets).reverse := by
  have backwards : ∀ octet ∈ word.octets.reverse, accept octet = true :=
    fun octet member => word.accepted octet (List.mem_reverse.mp member)
  have filled : word.octets.reverse ≠ [] :=
    List.reverse_ne_nil_iff.mpr word.nonempty
  rw [List.reverse_append]
  exact Word.halts ⟨⟨_, backwards⟩, filled⟩ apart _

theorem dropWhile_of_halts {rest : Bytes} (halts : Halts accept rest) :
    rest.dropWhile accept = rest := by
  cases rest with
  | nil => rfl
  | cons octet rest => exact List.dropWhile_cons_of_neg (by simp [halts.head])

theorem takeWhile_of_halts {rest : Bytes} (halts : Halts accept rest) :
    rest.takeWhile accept = [] := by
  cases rest with
  | nil => rfl
  | cons octet rest => exact List.takeWhile_cons_of_neg (by simp [halts.head])

theorem halts_dropWhile (accept : UInt8 → Bool) (input : Bytes) :
    Halts accept (input.dropWhile accept) := by
  intro octet member
  have stops := List.head?_dropWhile_not accept input
  rw [Option.mem_def.mp member] at stops
  exact stops

theorem Run.dropWhile_append
    (run : Run accept)
    {rest : Bytes}
    (halts : Halts accept rest) :
    (run.octets ++ rest).dropWhile accept = rest := by
  rw [List.dropWhile_append_of_pos run.accepted, dropWhile_of_halts halts]

theorem run_append
    (found : Run accept)
    {rest : Bytes}
    (halts : Halts accept rest) :
    run accept (found.octets ++ rest) = (found.octets, rest) := by
  rw [run, List.takeWhile_append_of_pos found.accepted,
    takeWhile_of_halts halts, List.append_nil, found.dropWhile_append halts]

/-- The longest run and the rest put together again are the input. -/
theorem exists_run (accept : UInt8 → Bool) (input : Bytes) :
    ∃ found : Run accept, found.octets = input.takeWhile accept ∧
      input = found.octets ++ input.dropWhile accept :=
  ⟨⟨input.takeWhile accept, fun _ => List.mem_takeWhile_imp⟩, rfl,
    List.takeWhile_append_dropWhile.symm⟩

theorem someRun?_append
    (word : Word accept)
    {rest : Bytes}
    (halts : Halts accept rest) :
    someRun? accept (word.octets ++ rest) = some (word.octets, rest) := by
  rcases List.exists_cons_of_ne_nil word.nonempty with ⟨octet, octets, split⟩
  have accepted : accept octet = true :=
    word.accepted octet (split ▸ List.mem_cons_self)
  have read := run_append word.toRun halts
  rw [split, List.cons_append] at read ⊢
  rw [someRun?, if_pos accepted, read]

theorem someRun?_eq_some_iff {input found rest : Bytes} :
    someRun? accept input = some (found, rest) ↔
      Halts accept rest ∧ ∃ word : Word accept,
        word.octets = found ∧ input = found ++ rest := by
  constructor
  · intro read
    cases input with
    | nil => cases read
    | cons octet input =>
        rw [someRun?] at read
        split at read
        · rename_i accepted
          rcases exists_run accept (octet :: input) with ⟨longest, same, split⟩
          cases read
          refine ⟨halts_dropWhile _ _, ⟨longest, ?_⟩, same, ?_⟩
          · rw [same, List.takeWhile_cons_of_pos accepted]
            exact List.cons_ne_nil _ _
          · rwa [same] at split
        · cases read
  · rintro ⟨halts, word, rfl, rfl⟩
    exact someRun?_append word halts

end Halting

/-! ## Blanks -/

theorem blanks_append
    (gap : Blanks)
    {rest : Bytes}
    (halts : Halts Octet.isBlank rest) :
    blanks (gap.octets ++ rest) = rest :=
  gap.dropWhile_append halts

theorem blanks_of_halts {rest : Bytes} (halts : Halts Octet.isBlank rest) :
    blanks rest = rest :=
  dropWhile_of_halts halts

theorem exists_blanks (input : Bytes) :
    ∃ gap : Blanks, input = gap.octets ++ blanks input := by
  rcases exists_run Octet.isBlank input with ⟨gap, -, split⟩
  exact ⟨gap, split⟩

/-- Blanks in front do not change what stands behind them. -/
theorem blanks_blanks_append (gap : Blanks) (rest : Bytes) :
    blanks (gap.octets ++ rest) = blanks rest :=
  List.dropWhile_append_of_pos gap.accepted

theorem someBlanks?_append
    (gap : Gap)
    {rest : Bytes}
    (halts : Halts Octet.isBlank rest) :
    someBlanks? (gap.octets ++ rest) = some rest := by
  rcases gap with ⟨⟨octets, accepted⟩, nonempty⟩
  cases octets with
  | nil => exact absurd rfl nonempty
  | cons octet octets =>
      have tail : ∀ octet ∈ octets, Octet.isBlank octet = true :=
        fun octet member => accepted octet (List.mem_cons_of_mem _ member)
      change (if Octet.isBlank octet then
        some (blanks (octets ++ rest)) else none) = some rest
      rw [if_pos (accepted octet List.mem_cons_self),
        blanks_append ⟨octets, tail⟩ halts]

theorem someBlanks?_eq_some_iff {input rest : Bytes} :
    someBlanks? input = some rest ↔
      Halts Octet.isBlank rest ∧ ∃ gap : Gap, input = gap.octets ++ rest := by
  constructor
  · intro read
    cases input with
    | nil => cases read
    | cons octet input =>
        rw [someBlanks?] at read
        split at read
        · rename_i blank
          cases read
          rcases exists_run Octet.isBlank (octet :: input) with
            ⟨longest, same, split⟩
          rw [List.dropWhile_cons_of_pos blank] at split
          refine ⟨halts_dropWhile _ _, ⟨longest, ?_⟩, split⟩
          rw [same, List.takeWhile_cons_of_pos blank]
          exact List.cons_ne_nil _ _
        · cases read
  · rintro ⟨halts, gap, rfl⟩
    exact someBlanks?_append gap halts

/-! ## Words -/

theorem word?_append (word : String) (rest : Bytes) :
    word? word (Bytes.ofString word ++ rest) = some rest :=
  word?_eq_some_iff.mpr rfl

theorem word?_eq_none_iff {word : String} {input : Bytes} :
    word? word input = none ↔ ¬Bytes.ofString word <+: input := by
  rw [Option.eq_none_iff_forall_ne_some]
  constructor
  · rintro refused ⟨rest, same⟩
    exact refused rest (word?_eq_some_iff.mpr same)
  · rintro refused rest accepted
    exact refused ⟨rest, word?_eq_some_iff.mp accepted⟩

/-- A word is refused where another octet stands than the one it begins with. -/
theorem word?_eq_none_of_head
    {word : String}
    {octet first : UInt8}
    {octets rest : Bytes}
    (spelled : Bytes.ofString word = first :: octets)
    (different : octet ≠ first) :
    word? word (octet :: rest) = none := by
  rw [word?_eq_none_iff, spelled, List.cons_prefix_cons]
  exact fun begins => different begins.1.symm

/-- The octets spell the word, in any mixture of capitals and small letters. -/
def SpellsAnyCase (word : String) (octets : Bytes) : Prop :=
  octets.toLower = (Bytes.ofString word).toLower

instance (word : String) (octets : Bytes) :
    Decidable (SpellsAnyCase word octets) :=
  inferInstanceAs (Decidable (octets.toLower = (Bytes.ofString word).toLower))

theorem SpellsAnyCase.length_eq
    {word : String}
    {octets : Bytes}
    (spells : SpellsAnyCase word octets) :
    octets.length = (Bytes.ofString word).length := by
  have same := congrArg List.length spells
  rwa [Bytes.toLower, Bytes.toLower, List.length_map, List.length_map] at same

theorem wordAnyCase?_append
    {word : String}
    {octets : Bytes}
    (spells : SpellsAnyCase word octets)
    (rest : Bytes) :
    wordAnyCase? word (octets ++ rest) = some rest := by
  rw [wordAnyCase?]
  simp only [← spells.length_eq, List.take_left, List.drop_left]
  exact if_pos spells

theorem wordAnyCase?_eq_some_iff {word : String} {input rest : Bytes} :
    wordAnyCase? word input = some rest ↔
      ∃ octets, SpellsAnyCase word octets ∧ input = octets ++ rest := by
  constructor
  · intro read
    rw [wordAnyCase?] at read
    split at read
    · rename_i spells
      cases read
      exact ⟨_, spells, (List.take_append_drop _ input).symm⟩
    · cases read
  · rintro ⟨octets, spells, rfl⟩
    exact wordAnyCase?_append spells rest

/-! ## Cutting -/

/--
A word that begins in front of its first occurrence would end before that one
does.
-/
theorem isPrefixOf?_eq_none_of_later
    {word before : Bytes}
    {octet : UInt8}
    (first : ¬word <:+: octet :: before ++ word.dropLast)
    (after : Bytes) :
    word.isPrefixOf? (octet :: (before ++ word ++ after)) = none := by
  have nonempty : word ≠ [] := by
    rintro rfl
    exact first List.nil_infix
  rw [Option.eq_none_iff_forall_ne_some]
  intro rest begins
  have joined :
      (octet :: before ++ word.dropLast) ++ ([word.getLast nonempty] ++ after) =
        octet :: (before ++ word ++ after) := by
    rw [← List.append_assoc, List.append_assoc _ word.dropLast,
      List.dropLast_append_getLast nonempty, List.cons_append, List.cons_append]
  have front :
      word <+: (octet :: before ++ word.dropLast) ++
        ([word.getLast nonempty] ++ after) :=
    ⟨rest, (isPrefixOf?_eq_some_iff.mp begins).trans joined.symm⟩
  have short : word.length ≤ (octet :: before ++ word.dropLast).length := by
    simp only [List.length_append, List.length_cons, List.length_dropLast]
    omega
  exact first (List.prefix_of_prefix_length_le front (List.prefix_append _ _)
    short).isInfix

theorem cutAt_append
    {word before : Bytes}
    (nonempty : word ≠ [])
    (first : ¬word <:+: before ++ word.dropLast)
    (after passed : Bytes) :
    cutAt word (before ++ word ++ after) passed =
      some (passed.reverse ++ before, after) := by
  induction before generalizing passed with
  | nil =>
      rcases List.exists_cons_of_ne_nil nonempty with ⟨octet, octets, rfl⟩
      have found :
          (octet :: octets).isPrefixOf? (octet :: (octets ++ after)) =
            some after :=
        isPrefixOf?_eq_some_iff.mpr rfl
      rw [List.nil_append, List.cons_append, cutAt, found, List.append_nil]
  | cons octet before ih =>
      have later : ¬word <:+: before ++ word.dropLast :=
        fun occurs => first (occurs.trans (List.suffix_cons octet _).isInfix)
      rw [List.cons_append, List.cons_append, cutAt,
        isPrefixOf?_eq_none_of_later first]
      dsimp only
      rw [ih later, List.reverse_cons, List.append_assoc, List.singleton_append]

theorem cutAt_eq_none
    {word input : Bytes}
    (absent : ¬word <:+: input)
    (passed : Bytes) :
    cutAt word input passed = none := by
  induction input generalizing passed with
  | nil =>
      have nonempty : word ≠ [] := by
        rintro rfl
        exact absent List.nil_infix
      rw [cutAt, if_neg (by simp [nonempty])]
  | cons octet input ih =>
      have passes : word.isPrefixOf? (octet :: input) = none := by
        rw [Option.eq_none_iff_forall_ne_some]
        intro rest begins
        exact absent ⟨[], rest, isPrefixOf?_eq_some_iff.mp begins⟩
      rw [cutAt, passes]
      exact ih (fun occurs =>
        absent (occurs.trans (List.suffix_cons octet _).isInfix)) _

/-- A word that occurs has a first occurrence. -/
theorem exists_first_of_infix
    {word input : Bytes}
    (nonempty : word ≠ [])
    (occurs : word <:+: input) :
    ∃ before after,
      input = before ++ word ++ after ∧ ¬word <:+: before ++ word.dropLast := by
  induction input with
  | nil => exact absurd (List.infix_nil.mp occurs) nonempty
  | cons octet input ih =>
      by_cases here : word <+: octet :: input
      · rcases here with ⟨after, same⟩
        refine ⟨[], after, same.symm, ?_⟩
        intro shorter
        have length := shorter.length_le
        rw [List.nil_append, List.length_dropLast] at length
        have filled := List.length_pos_of_ne_nil nonempty
        omega
      · rcases List.infix_cons_iff.mp occurs with begins | behind
        · exact absurd begins here
        · rcases ih behind with ⟨before, after, rfl, first⟩
          refine ⟨octet :: before, after, rfl, ?_⟩
          rw [List.cons_append, List.infix_cons_iff]
          rintro (begins | inside)
          · have longer : before ++ word.dropLast <+: before ++ word ++ after :=
              ((List.prefix_append_right_inj before).mpr
                (List.dropLast_prefix word)).trans
                (List.prefix_append _ after)
            exact here (begins.trans (List.cons_prefix_cons.mpr ⟨rfl, longer⟩))
          · exact first inside

theorem cut?_append
    {word : String}
    {before : Bytes}
    (nonempty : Bytes.ofString word ≠ [])
    (first : ¬Bytes.ofString word <:+: before ++ (Bytes.ofString word).dropLast)
    (after : Bytes) :
    cut? word (before ++ Bytes.ofString word ++ after) = some (before, after) :=
  cutAt_append nonempty first after []

theorem cut?_eq_none
    {word : String}
    {input : Bytes}
    (absent : ¬Bytes.ofString word <:+: input) :
    cut? word input = none :=
  cutAt_eq_none absent []

/--
A single octet is first met where the text in front of it does not hold it.
-/
theorem cut?_octet
    {word : String}
    {octet : UInt8}
    (spelled : Bytes.ofString word = [octet])
    {before : Bytes}
    (absent : octet ∉ before)
    (after : Bytes) :
    cut? word (before ++ octet :: after) = some (before, after) := by
  have first :
      ¬Bytes.ofString word <:+: before ++ (Bytes.ofString word).dropLast := by
    rw [spelled, List.dropLast_singleton, List.append_nil]
    exact fun occurs => absent (occurs.subset (List.mem_singleton_self octet))
  have cut := cut?_append (by simp [spelled]) first after
  rwa [spelled, List.append_assoc, List.singleton_append] at cut

/--
A word without the octet that stands behind a text ends no later than the text.
-/
theorem exists_of_append_eq
    {word after text rest : Bytes}
    {stop : UInt8}
    (absent : stop ∉ word)
    (split : word ++ after = text ++ stop :: rest) :
    ∃ between, text = word ++ between ∧ after = between ++ stop :: rest := by
  rcases List.append_eq_append_iff.mp split with
    ⟨between, same, behind⟩ | ⟨between, same, behind⟩
  · exact ⟨between, same, behind⟩
  · cases between with
    | nil =>
        exact ⟨[], by rw [same, List.append_nil, List.append_nil], behind.symm⟩
    | cons first between =>
        cases behind
        exact absurd (same ▸ List.mem_append_right _ List.mem_cons_self) absent

/--
A word whose first octet a text does not hold occurs only behind that text.
-/
theorem infix_of_infix_append
    {octet : UInt8}
    {word front back : Bytes}
    (absent : octet ∉ front)
    (occurs : octet :: word <:+: front ++ back) :
    octet :: word <:+: back := by
  induction front with
  | nil => exact occurs
  | cons first front ih =>
      rw [List.mem_cons, not_or] at absent
      rcases List.infix_cons_iff.mp occurs with begins | behind
      · exact absurd (List.cons_prefix_cons.mp begins).1 absent.1
      · exact ih absent.2 behind

/--
An arrow that begins inside a text and ends behind it would need two dashes.
-/
theorem not_arrow_infix_append
    {before : Bytes}
    (free : ¬Bytes.ofString "->" <:+: before) :
    ¬Bytes.ofString "->" <:+: before ++ (Bytes.ofString "->").dropLast := by
  change ¬Bytes.ofString "->" <:+: before ++ [0x2d]
  rw [List.infix_concat_iff]
  rintro (ends | inside)
  · rcases List.suffix_concat_iff.mp ends with empty | ⟨front, arrow, -⟩
    · cases empty
    · have last := congrArg List.getLast? arrow
      rw [List.getLast?_concat] at last
      cases last
  · exact free inside

theorem cut?_arrow
    {before : Bytes}
    (free : ¬Bytes.ofString "->" <:+: before)
    (after : Bytes) :
    cut? "->" (before ++ Bytes.ofString "->" ++ after) = some (before, after) :=
  cut?_append (by decide) (not_arrow_infix_append free) after

end Scan

/-! ## Trimming -/

namespace Bytes

/-- The text neither begins nor ends with padding. -/
structure Trimmed (text : Bytes) : Prop where
  starts : Scan.Halts Octet.isPadding text
  ends : Scan.Halts Octet.isPadding text.reverse

theorem trim_padding_append
    {before : Bytes}
    (padding : ∀ octet ∈ before, Octet.isPadding octet = true)
    (text : Bytes) :
    trim (before ++ text) = trim text := by
  rw [trim, List.dropWhile_append_of_pos padding, trim]

/-- Padding at the end is taken away up to the last octet that is none. -/
theorem rdropWhile_append
    {text : Bytes}
    (ends : Scan.Halts Octet.isPadding text.reverse)
    (tail : Bytes) :
    (text ++ tail).rdropWhile Octet.isPadding =
      text ++ tail.rdropWhile Octet.isPadding := by
  rw [List.rdropWhile, List.reverse_append, List.dropWhile_append,
    List.rdropWhile]
  split
  · rename_i dropped
    rw [Scan.dropWhile_of_halts ends, List.isEmpty_iff.mp dropped,
      List.reverse_reverse, List.reverse_nil, List.append_nil]
  · rw [List.reverse_append, List.reverse_reverse]

theorem Trimmed.trim_append
    {text : Bytes}
    (trimmed : Trimmed text)
    (filled : text ≠ [])
    (tail : Bytes) :
    trim (text ++ tail) = text ++ tail.rdropWhile Octet.isPadding := by
  have starts : Scan.Halts Octet.isPadding (text ++ tail) := by
    rcases List.exists_cons_of_ne_nil filled with ⟨octet, octets, rfl⟩
    exact Scan.halts_cons trimmed.starts.head _
  rw [← rdropWhile_append trimmed.ends, trim, Scan.dropWhile_of_halts starts,
    List.rdropWhile]

theorem Trimmed.ends_append
    {text : Bytes}
    (trimmed : Trimmed text)
    (filled : text ≠ [])
    (front : Bytes) :
    Scan.Halts Octet.isPadding (front ++ text).reverse := by
  rcases List.exists_cons_of_ne_nil (List.reverse_ne_nil_iff.mpr filled) with
    ⟨last, rest, split⟩
  have ends := trimmed.ends
  rw [split] at ends
  rw [List.reverse_append, split]
  exact Scan.halts_cons ends.head _

theorem Trimmed.trim_eq {text : Bytes} (trimmed : Trimmed text) :
    text.trim = text := by
  rw [trim, Scan.dropWhile_of_halts trimmed.starts,
    Scan.dropWhile_of_halts trimmed.ends, List.reverse_reverse]

theorem trimmed_trim (text : Bytes) : Trimmed text.trim := by
  constructor
  · exact (Scan.halts_dropWhile _ text).of_begins (List.rdropWhile_prefix _ _)
  · rw [trim, List.reverse_reverse]
    exact Scan.halts_dropWhile _ _

/--
A text that begins with no padding is its trimmed form with padding behind it.
-/
theorem exists_eq_trim_append
    {text : Bytes}
    (starts : Scan.Halts Octet.isPadding text) :
    ∃ after : Scan.Padding, text = text.trim ++ after.octets := by
  refine ⟨⟨text.rtakeWhile Octet.isPadding, fun _ => List.mem_rtakeWhile_imp⟩,
    ?_⟩
  rw [trim, Scan.dropWhile_of_halts starts]
  exact (List.rdropWhile_append_rtakeWhile).symm

end Bytes

end SmaliFlow
