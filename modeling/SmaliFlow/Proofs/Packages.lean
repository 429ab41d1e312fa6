import SmaliFlow.Proofs.Encoding
import SmaliFlow.Proofs.Indexing
import SmaliFlow.Settings

/-!
# Packages as whole components

Whether a path lies below a package is found by searching the octets of the
package in those of the path again and again, until an occurrence stands between
slashes.  Each search begins one octet behind the occurrence that was rejected
before, so none is missed.

Said of texts, the components of the package, which are its parts between
slashes, stand in a row among the components of the path, and a further
component follows them.
-/

namespace SmaliFlow

/-! ## The occurrences -/

theorem Search.occursAt_iff_exists (text pattern : Bytes) (place : Nat) :
    OccursAt text pattern place ↔
      ∃ front back,
        text = front ++ (pattern ++ back) ∧ front.length = place := by
  rw [occursAt_iff_begins]
  constructor
  · rintro ⟨inside, back, behind⟩
    refine ⟨text.take place, back, ?_, List.length_take_of_le inside⟩
    rw [behind, List.take_append_drop]
  · rintro ⟨front, back, rfl, rfl⟩
    rw [List.drop_left, List.length_append]
    exact ⟨Nat.le_add_right _ _, List.prefix_append pattern back⟩

namespace Settings

/-- The loop finds an occurrence between slashes wherever there is one. -/
theorem holdsFrom_iff (path package : Bytes) (start : Nat) :
    holdsFrom path package start = true ↔
      ∃ place, start ≤ place ∧ Search.OccursAt path package place ∧
        standsWhole path package place = true := by
  fun_induction holdsFrom path package start with
  | case1 start absent =>
      rw [Search.indexFrom?_eq_none_iff] at absent
      constructor
      · intro holds
        cases holds
      · rintro ⟨place, after, occurs, -⟩
        exact absurd ⟨place, after, occurs⟩ absent
  | case2 start found sought ih =>
      rcases (Search.indexFrom?_eq_some_iff_isLeast _ _ _ _).mp sought with
        ⟨⟨after, occurs⟩, least⟩
      rw [Bool.or_eq_true, ih]
      constructor
      · rintro (whole | ⟨place, later, laterOccurs, whole⟩)
        · exact ⟨found, after, occurs, whole⟩
        · exact ⟨place, by omega, laterOccurs, whole⟩
      · rintro ⟨place, placeAfter, placeOccurs, whole⟩
        -- Nothing is skipped, because what was found is the first occurrence.
        rcases Nat.eq_or_lt_of_le (least ⟨placeAfter, placeOccurs⟩) with
          rfl | later
        · exact Or.inl whole
        · exact Or.inr ⟨place, later, placeOccurs, whole⟩

theorem standsWhole_append_iff (front package back : Bytes) :
    standsWhole (front ++ (package ++ back)) package front.length = true ↔
      (front = [] ∨ front.getLast? = some 0x2f) ∧ back.head? = some 0x2f := by
  have behind :
      (front ++ (package ++ back))[front.length + package.length]? =
        back.head? := by
    rw [List.getElem?_append_right (Nat.le_add_right _ _),
      Nat.add_sub_cancel_left, List.getElem?_append_right (Nat.le_refl _),
      Nat.sub_self, List.head?_eq_getElem?]
  rw [standsWhole, behind, Bool.and_eq_true, Bool.or_eq_true, beq_iff_eq,
    beq_iff_eq, beq_iff_eq, List.length_eq_zero_iff]
  refine and_congr_left fun _ => or_congr_right' fun nonempty => ?_
  have positive := List.length_pos_iff.mpr nonempty
  rw [List.getElem?_append_left (by omega), List.getLast?_eq_getElem?]

/-- Some occurrence of a package stands between slashes. -/
theorem holdsFrom_zero_iff (path package : Bytes) :
    holdsFrom path package 0 = true ↔
      ∃ front back, path = front ++ (package ++ 0x2f :: back) ∧
        (front = [] ∨ front.getLast? = some 0x2f) := by
  rw [holdsFrom_iff]
  constructor
  · rintro ⟨place, -, occurs, whole⟩
    rcases (Search.occursAt_iff_exists _ _ _).mp occurs with
      ⟨front, rest, rfl, rfl⟩
    rcases (standsWhole_append_iff _ _ _).mp whole with ⟨begins, ends⟩
    rcases List.head?_eq_some_iff.mp ends with ⟨back, rfl⟩
    exact ⟨front, back, rfl, begins⟩
  · rintro ⟨front, back, rfl, begins⟩
    refine ⟨front.length, Nat.zero_le _, ?_, ?_⟩
    · exact (Search.occursAt_iff_exists _ _ _).mpr ⟨front, _, rfl, rfl⟩
    · exact (standsWhole_append_iff _ _ _).mpr ⟨begins, rfl⟩

/-! ## Components of texts -/

/-- The parts of a text between its slashes. -/
def components (text : List Char) : List (List Char) :=
  text.splitOn '/'

/--
The components of `package` stand in a row among those of `path`, and at least
one more component, which may be empty, follows them.
-/
def LiesBelow (path package : List Char) : Prop :=
  ∃ before behind, behind ≠ [] ∧
    components path = before ++ (components package ++ behind)

theorem components_slash (front back : List Char) :
    components (front ++ '/' :: back) = components front ++ components back :=
  List.splitOn_append_cons_self front back

theorem components_ne_nil (text : List Char) : components text ≠ [] :=
  List.splitOn_ne_nil '/' text

theorem intercalate_components (text : List Char) :
    ['/'].intercalate (components text) = text :=
  List.intercalate_splitOn '/'

theorem intercalate_append
    {front back : List (List Char)}
    (frontFilled : front ≠ [])
    (backFilled : back ≠ []) :
    ['/'].intercalate (front ++ back) =
      ['/'].intercalate front ++ '/' :: ['/'].intercalate back := by
  induction front with
  | nil => exact absurd rfl frontFilled
  | cons first front ih =>
      cases front with
      | nil =>
          rw [List.singleton_append, List.intercalate_cons_of_ne_nil backFilled,
            List.intercalate_singleton, List.append_assoc,
            List.singleton_append]
      | cons second front =>
          rw [List.cons_append, List.cons_append, List.intercalate_cons_cons,
            ← List.cons_append, ih (List.cons_ne_nil _ _),
            List.intercalate_cons_cons, List.append_assoc _ _ ('/' :: _)]

/-- Whole components are what stands between slashes. -/
theorem liesBelow_iff (path package : List Char) :
    LiesBelow path package ↔
      ∃ front back, path = front ++ (package ++ '/' :: back) ∧
        (front = [] ∨ front.getLast? = some '/') := by
  constructor
  · rintro ⟨before, behind, filled, same⟩
    have text := intercalate_components path
    rw [same] at text
    have inner := intercalate_append (components_ne_nil package) filled
    rw [intercalate_components] at inner
    by_cases empty : before = []
    · rw [empty, List.nil_append, inner] at text
      exact ⟨[], _, text.symm, Or.inl rfl⟩
    · rw [intercalate_append empty
        (List.append_ne_nil_of_right_ne_nil _ filled), inner] at text
      refine ⟨['/'].intercalate before ++ ['/'], ['/'].intercalate behind, ?_,
        Or.inr List.getLast?_concat⟩
      rw [List.append_assoc, List.singleton_append]
      exact text.symm
  · rintro ⟨front, back, rfl, rfl | slash⟩
    · refine ⟨[], components back, components_ne_nil back, ?_⟩
      rw [List.nil_append, components_slash, List.nil_append]
    · rcases List.getLast?_eq_some_iff.mp slash with ⟨above, rfl⟩
      refine ⟨components above, components back, components_ne_nil back, ?_⟩
      rw [List.append_assoc, List.singleton_append, components_slash,
        components_slash]

/-! ## Octets of texts -/

theorem plain_slash : Bytes.Plain '/' 0x2f :=
  ⟨by decide, by decide⟩

theorem plain_dot : Bytes.Plain '.' 0x2e :=
  ⟨by decide, by decide⟩

theorem plain_backslash : Bytes.Plain '\\' 0x5c :=
  ⟨by decide, by decide⟩

/-- The octets lie between slashes exactly if the components do. -/
theorem holdsFrom_encode_iff (path package : List Char) :
    holdsFrom (Bytes.encode path) (Bytes.encode package) 0 = true ↔
      LiesBelow path package := by
  rw [holdsFrom_zero_iff, liesBelow_iff]
  constructor
  · rintro ⟨front, back, same, begins⟩
    rw [← List.append_assoc] at same
    rcases plain_slash.exists_of_encode_eq same with
      ⟨before, behind, rfl, beforeSame, -⟩
    rcases begins with rfl | slash
    · rw [List.nil_append] at beforeSame
      rw [Bytes.encode_inj beforeSame]
      exact ⟨[], behind, rfl, Or.inl rfl⟩
    · rcases List.getLast?_eq_some_iff.mp slash with ⟨above, rfl⟩
      rw [List.append_assoc, List.singleton_append] at beforeSame
      rcases plain_slash.exists_of_encode_eq beforeSame with
        ⟨upper, inner, rfl, -, innerSame⟩
      refine ⟨upper ++ ['/'], behind, ?_, Or.inr List.getLast?_concat⟩
      rw [Bytes.encode_inj innerSame, List.append_assoc, List.append_assoc,
        List.singleton_append, List.cons_append]
  · rintro ⟨front, back, rfl, begins⟩
    have octets : Bytes.encode (front ++ (package ++ '/' :: back)) =
        Bytes.encode front ++
          (Bytes.encode package ++ 0x2f :: Bytes.encode back) := by
      rw [Bytes.encode_append, Bytes.encode_append, Bytes.encode_cons,
        plain_slash.single, List.singleton_append]
    refine ⟨Bytes.encode front, Bytes.encode back, octets, ?_⟩
    rcases begins with rfl | slash
    · exact Or.inl rfl
    · rcases List.getLast?_eq_some_iff.mp slash with ⟨above, rfl⟩
      rw [Bytes.encode_append, Bytes.encode_cons, plain_slash.single]
      exact Or.inr List.getLast?_concat

/-- Whether a character is a slash or a dot. -/
def isEdge (character : Char) : Bool :=
  character == '/' || character == '.'

/--
A package without slashes and dots at its ends, and with a slash for every dot.
-/
def packageText (package : String) : List Char :=
  ((package.toList.dropWhile isEdge).rdropWhile isEdge).map fun character =>
    if character = '.' then '/' else character

/-- A path with a slash for every backslash. -/
def pathText (path : String) : List Char :=
  path.toList.map fun character => if character = '\\' then '/' else character

theorem isPackageEdge_eq
    {character : Char}
    {octet : UInt8}
    (member : octet ∈ String.utf8EncodeChar character) :
    isPackageEdge octet = isEdge character := by
  rw [isPackageEdge, plain_slash.beq_eq member, plain_dot.beq_eq member, isEdge]

theorem packagePath_eq (package : String) :
    packagePath package = Bytes.encode (packageText package) := by
  have agree : ∀ character, ∀ octet ∈ String.utf8EncodeChar character,
      isPackageEdge octet = isEdge character :=
    fun _ _ => isPackageEdge_eq
  rw [packageText, plain_dot.encode_map_replace plain_slash,
    ← Bytes.rdropWhile_encode agree, ← Bytes.dropWhile_encode agree,
    ← Bytes.ofString_eq_encode]
  rfl

theorem slashPath_eq (path : String) :
    slashPath path = Bytes.encode (pathText path) := by
  rw [pathText, plain_backslash.encode_map_replace plain_slash,
    ← Bytes.ofString_eq_encode]
  rfl

theorem isBelow_iff (path package : List Char) :
    isBelow (Bytes.encode path) (Bytes.encode package) = true ↔
      package ≠ [] ∧ LiesBelow path package := by
  rw [isBelow, Bool.and_eq_true, holdsFrom_encode_iff, Bool.not_eq_true',
    List.isEmpty_eq_false_iff]
  refine and_congr_left fun _ => not_congr ⟨fun empty => ?_, fun empty => ?_⟩
  · exact Bytes.encode_inj empty
  · rw [empty]
    rfl

/--
A path lies below an advertising package exactly if, for one of the packages
that are not empty without their edges, its components stand in a row among
those of the path and a further one follows.  The loop over the occurrences
finds each of them, wherever it starts.
-/
theorem isAdPath_iff_components (settings : Settings) (path : String) :
    (settings.isAdPath path = true ↔
      ∃ package ∈ settings.adPackages, packageText package ≠ [] ∧
        LiesBelow (pathText path) (packageText package)) ∧
    ∀ (text package : Bytes) (start : Nat),
      holdsFrom text package start = true ↔
        ∃ place, start ≤ place ∧ Search.OccursAt text package place ∧
          standsWhole text package place = true := by
  refine ⟨?_, holdsFrom_iff⟩
  rw [isAdPath, List.any_eq_true, slashPath_eq]
  simp only [packagePath_eq, isBelow_iff]

-- The first occurrence begins inside of a component and overlaps with the
-- second one.
example :
    { Settings.standard with adPackages := [".a.a/"] }.isAdPath "ba/a\\a/x" =
      true := by
  decide +kernel

end Settings

end SmaliFlow
