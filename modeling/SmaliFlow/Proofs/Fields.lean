import SmaliFlow.Field
import SmaliFlow.Proofs.Headers

/-!
# Declarations of fields

A field is declared by a directive, its flags, its name and its type, with a
colon between these two, and optionally by an initial value behind an equals
sign.  The name ends at the first colon and the type at the first blank or
equals sign, so all of these signs may stand in the value.  A name that is
spelled as a flag is followed by the colon and not by a space, so it is not
taken for one.

The main statement is that a field has the flags, the name, the type and the
initial value with which its line declares it.
-/

namespace SmaliFlow

/-- A text whose octets are of one class, at least one of them. -/
structure Scan.Text (accept : UInt8 → Bool) where
  text : String
  accepted : ∀ octet ∈ Bytes.ofString text, accept octet = true
  nonempty : Bytes.ofString text ≠ []

/-- The octets of a text. -/
def Scan.Text.word {accept : UInt8 → Bool} (text : Scan.Text accept) :
    Scan.Word accept :=
  ⟨⟨Bytes.ofString text.text, text.accepted⟩, text.nonempty⟩

namespace Field

/-! ## Declarations as they are written -/

/-- An initial value as it is written. -/
structure Initializer where
  /-- The blanks in front of the equals sign. -/
  before : Scan.Blanks
  /-- The blanks behind the equals sign. -/
  after : Scan.Blanks
  value : String
  trimmed : Bytes.Trimmed (Bytes.ofString value)

/--
The octets of an initial value, from the blanks in front of the equals sign on.
-/
def Initializer.octets (initializer : Initializer) : Bytes :=
  initializer.before.octets ++
    0x3d :: (initializer.after.octets ++ Bytes.ofString initializer.value)

/-- A declaration as it is written. -/
structure Spelling where
  flags : List Modifier.Flag
  gap : Scan.Blanks
  name : Scan.Text isNameOctet
  descriptor : Scan.Text isTypeOctet
  initializer : Option Initializer

namespace Spelling

/-- The octets from the directive to the type. -/
def front (spelling : Spelling) : Bytes :=
  Bytes.ofString ".field" ++ (Modifier.flagOctets spelling.flags ++
    0x20 :: (spelling.gap.octets ++ (spelling.name.word.octets ++
      0x3a :: spelling.descriptor.word.octets)))

/-- The octets behind the type. -/
def tail (spelling : Spelling) : Bytes :=
  (spelling.initializer.map Initializer.octets).getD []

/-- The octets of a declaration. -/
def octets (spelling : Spelling) : Bytes :=
  spelling.front ++ spelling.tail

/-- What a declaration on a line with the given number says. -/
def field (spelling : Spelling) (number : Nat) : Field where
  name := spelling.name.text
  modifiers := spelling.flags.map Modifier.Flag.modifier
  descriptor := spelling.descriptor.text
  initialValue := spelling.initializer.map Initializer.value
  number

end Spelling

/-! ## Reading a declaration -/

theorem isVisible_of_isNameOctet
    {octet : UInt8}
    (accepted : isNameOctet octet = true) :
    Octet.isVisible octet = true :=
  (Bool.and_eq_true_iff.mp accepted).1

theorem isVisible_of_isTypeOctet
    {octet : UInt8}
    (accepted : isTypeOctet octet = true) :
    Octet.isVisible octet = true :=
  (Bool.and_eq_true_iff.mp accepted).1

theorem colon_notMem_keyword (modifier : Modifier) :
    0x3a ∉ Bytes.ofString modifier.keyword := by
  have all : ∀ modifier ∈ Modifier.all,
      0x3a ∉ Bytes.ofString modifier.keyword := by
    decide +kernel
  exact all modifier (Modifier.mem_all modifier)

theorem isPadding_of_isTypeOctet
    {octet : UInt8}
    (accepted : isTypeOctet octet = true) :
    Octet.isPadding octet = false :=
  (Octet.isPadding_eq_false_iff octet).mpr (isVisible_of_isTypeOctet accepted)

theorem Spelling.trimmed_front (spelling : Spelling) :
    Bytes.Trimmed spelling.front := by
  constructor
  · exact Scan.halts_cons (by decide) _
  · have split : spelling.front = (Bytes.ofString ".field" ++
        (Modifier.flagOctets spelling.flags ++ 0x20 :: (spelling.gap.octets ++
          (spelling.name.word.octets ++ [0x3a])))) ++
            spelling.descriptor.word.octets := by
      simp only [front, List.append_assoc, List.cons_append, List.nil_append]
    rw [split]
    exact spelling.descriptor.word.halts_reverse
      (fun _ => isPadding_of_isTypeOctet) _

namespace Initializer

/-- What is left of an initial value when the line has been trimmed. -/
theorem rdropWhile_octets (initializer : Initializer) :
    ∃ rest : Bytes, initializer.octets.rdropWhile Octet.isPadding =
        initializer.before.octets ++ 0x3d :: rest ∧
      rest.trim = Bytes.ofString initializer.value := by
  have split : initializer.octets = (initializer.before.octets ++ [0x3d]) ++
      (initializer.after.octets ++ Bytes.ofString initializer.value) := by
    simp only [octets, List.append_assoc, List.cons_append, List.nil_append]
  have sign : Scan.Halts Octet.isPadding (initializer.before.octets ++
    [0x3d]).reverse := by
    rw [List.reverse_append]
    exact Scan.halts_cons (by decide) _
  have padding : ∀ octet ∈ initializer.after.octets,
    Octet.isPadding octet = true :=
    fun octet member =>
      Octet.isPadding_of_isBlank (initializer.after.accepted octet member)
  rw [split, Bytes.rdropWhile_append sign]
  refine ⟨_, by rw [List.append_assoc, List.singleton_append], ?_⟩
  by_cases filled : Bytes.ofString initializer.value = []
  · -- Without a value the blanks behind the equals sign end the line.
    rw [filled, List.append_nil, List.rdropWhile_eq_nil_iff.mpr padding]
    rfl
  · have ends := initializer.trimmed.ends_append filled initializer.after.octets
    rw [List.rdropWhile, Scan.dropWhile_of_halts ends, List.reverse_reverse,
      Bytes.trim_padding_append padding, initializer.trimmed.trim_eq]

end Initializer

/-- Behind the type there is nothing, or blanks and an equals sign. -/
theorem Spelling.halts_rdropWhile_tail (spelling : Spelling) :
    Scan.Halts isTypeOctet (spelling.tail.rdropWhile Octet.isPadding) := by
  apply Scan.Halts.of_begins _
    (List.rdropWhile_prefix Octet.isPadding spelling.tail)
  cases initializer : spelling.initializer with
  | none =>
      rw [tail, initializer]
      exact Scan.halts_nil
  | some found =>
      rw [tail, initializer]
      apply Scan.Halts.append _ (Scan.halts_cons (by decide) _)
      apply found.before.halts
      intro octet blank
      rw [isTypeOctet, Octet.isVisible_of_isBlank blank, Bool.false_and]

theorem Spelling.initialValue?_tail (spelling : Spelling) :
    (initialValue? (spelling.tail.rdropWhile Octet.isPadding)).map Utf8.decode =
      spelling.initializer.map Initializer.value := by
  cases initializer : spelling.initializer with
  | none =>
      rw [tail, initializer]
      rfl
  | some found =>
      rcases found.rdropWhile_octets with ⟨rest, written, trimmed⟩
      have read : initialValue? (found.octets.rdropWhile Octet.isPadding) =
          some (Bytes.ofString found.value) := by
        have sign : Scan.word? "=" (0x3d :: rest) = some rest :=
          Scan.word?_append "=" rest
        rw [initialValue?, written,
          Scan.blanks_append found.before (Scan.halts_cons (by decide) _),
          sign, Option.map_some, trimmed]
      rw [tail, initializer]
      change (initialValue? (found.octets.rdropWhile Octet.isPadding)).map
        Utf8.decode = _
      rw [read, Option.map_some, Option.map_some, Utf8.decode_ofString]

/--
A field has the flags, the name, the type and the initial value with which it is
declared, and the number of the line.
-/
theorem declared_field_round_trip (spelling : Spelling) (number : Nat) :
    read? spelling.octets number = some (spelling.field number) := by
  have filled : spelling.front ≠ [] := List.cons_ne_nil _ _
  let visibleName : Scan.Word Octet.isVisible :=
    ⟨⟨spelling.name.word.octets, fun octet member =>
      isVisible_of_isNameOctet (spelling.name.accepted octet member)⟩,
        spelling.name.nonempty⟩
  let behind := spelling.tail.rdropWhile Octet.isPadding
  rcases Modifier.exists_scan_append spelling.gap visibleName (by decide)
    colon_notMem_keyword
    spelling.flags (spelling.descriptor.word.octets ++ behind) with
      ⟨left, scanned, named⟩
  have directive : Scan.word? ".field" spelling.octets.trim =
      some (Modifier.flagOctets spelling.flags ++ 0x20 ::
        (spelling.gap.octets ++
        (visibleName.octets ++ 0x3a ::
          (spelling.descriptor.word.octets ++ behind)))) := by
    rw [Spelling.octets, spelling.trimmed_front.trim_append filled,
      Scan.word?_eq_some_iff, Spelling.front]
    simp only [List.append_assoc, List.cons_append, visibleName, behind]
  have name : Scan.someRun? isNameOctet (Scan.blanks left) =
      some (spelling.name.word.octets,
        0x3a :: (spelling.descriptor.word.octets ++ behind)) := by
    rw [named]
    exact Scan.someRun?_append spelling.name.word
      (Scan.halts_cons (by decide) _)
  have colon :
      Scan.word? ":" (0x3a :: (spelling.descriptor.word.octets ++ behind)) =
        some (spelling.descriptor.word.octets ++ behind) :=
    Scan.word?_append ":" _
  have descriptor :
      Scan.someRun? isTypeOctet (spelling.descriptor.word.octets ++ behind) =
        some (spelling.descriptor.word.octets, behind) :=
    Scan.someRun?_append spelling.descriptor.word spelling.halts_rdropWhile_tail
  have decoded {accept : UInt8 → Bool} (text : Scan.Text accept) :
      Utf8.decode text.word.octets = text.text :=
    Utf8.decode_ofString text.text
  simp only [read?, directive, scanned, name, colon, descriptor, decoded,
    spelling.initialValue?_tail, behind, Option.bind_eq_bind, Option.bind_some,
    Option.pure_def]
  rfl

/--
A declaration whose name is spelled as a flag, and whose value holds all
separators.
-/
def staticField : Spelling where
  flags := [⟨⟨[0x20, 0x20, 0x20], by decide +kernel⟩, .final⟩,
    ⟨⟨[0x09, 0x20, 0x09], by decide +kernel⟩, .enum⟩]
  gap := ⟨[0x09, 0x20], by decide +kernel⟩
  name := ⟨"static", by decide +kernel, by decide +kernel⟩
  descriptor := ⟨"[L:é;", by decide +kernel, by decide +kernel⟩
  initializer := some
    { before := ⟨[0x09, 0x09], by decide +kernel⟩
      after := ⟨[0x09, 0x09, 0x20], by decide +kernel⟩
      value := "= a:b \t=\"é\""
      trimmed := ⟨by decide +kernel, by decide +kernel⟩ }

theorem declared_field_round_trip_of_staticField :
    read? (Bytes.ofString
      ".field    final \t \tenum \t static:[L:é;\t\t=\t\t = a:b \t=\"é\"") 7 =
        some
      { name := "static"
        modifiers := [.final, .enum]
        descriptor := "[L:é;"
        initialValue := some "= a:b \t=\"é\""
        number := 7 } := by
  have written :
      staticField.octets = Bytes.ofString
      ".field    final \t \tenum \t static:[L:é;\t\t=\t\t = a:b \t=\"é\"" := by
    decide +kernel
  rw [← written]
  exact declared_field_round_trip staticField 7

end Field

end SmaliFlow
