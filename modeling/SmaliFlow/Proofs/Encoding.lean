import Mathlib.Data.List.DropRight
import SmaliFlow.Text.Bytes

/-!
# Characters and their octets

The octets of a text are those of its characters, one after the other.  A
character that takes more than one octet has none below 128.  So an octet below
128 stands for a character of its own wherever it occurs, and what is done to
such octets is done to these characters: replacing them, taking them away at the
ends, and cutting a text where one of them stands.
-/

namespace SmaliFlow.Bytes

/-- The octets of characters. -/
def encode (characters : List Char) : Bytes :=
  characters.flatMap String.utf8EncodeChar

theorem encode_cons (character : Char) (characters : List Char) :
    encode (character :: characters) =
      String.utf8EncodeChar character ++ encode characters :=
  List.flatMap_cons

theorem encode_append (front back : List Char) :
    encode (front ++ back) = encode front ++ encode back :=
  List.flatMap_append

theorem ofString_eq_encode (text : String) :
    ofString text = encode text.toList := by
  rw [ofString, String.toUTF8_eq_toByteArray, ← String.utf8Encode_toList,
    List.utf8Encode, List.data_toByteArray]
  rfl

theorem encode_inj
    {left right : List Char}
    (same : encode left = encode right) :
    left = right := by
  have octets : left.utf8Encode = right.utf8Encode :=
    congrArg List.toByteArray same
  have decoded := congrArg ByteArray.utf8Decode? octets
  rw [List.utf8Decode?_utf8Encode, List.utf8Decode?_utf8Encode] at decoded
  exact congrArg Array.toList (Option.some.inj decoded)

theorem not_small_ofNat
    {value : Nat}
    (low : 0x80 ≤ value)
    (high : value < 0x100) :
    ¬UInt8.ofNat value < 0x80 := by
  rw [UInt8.lt_iff_toNat_lt, UInt8.toNat_ofNat', Nat.mod_eq_of_lt high,
    Nat.not_lt]
  exact low

theorem not_small_of_mem
    {character : Char}
    {octet : UInt8}
    (large : 127 < character.val.toNat)
    (member : octet ∈ String.utf8EncodeChar character) :
    ¬octet < 0x80 := by
  rw [String.utf8EncodeChar.eq_def] at member
  dsimp only at member
  rw [if_neg (Nat.not_le.mpr large)] at member
  split at member
  · simp only [List.mem_cons, List.not_mem_nil, or_false] at member
    rcases member with rfl | rfl
    all_goals exact not_small_ofNat (by omega) (by omega)
  · split at member
    · simp only [List.mem_cons, List.not_mem_nil, or_false] at member
      rcases member with rfl | rfl | rfl
      all_goals exact not_small_ofNat (by omega) (by omega)
    · simp only [List.mem_cons, List.not_mem_nil, or_false] at member
      rcases member with rfl | rfl | rfl | rfl
      all_goals exact not_small_ofNat (by omega) (by omega)

/-- An octet below 128 is no part of a longer encoding. -/
theorem eq_singleton_of_mem
    {character : Char}
    {octet : UInt8}
    (small : octet < 0x80)
    (member : octet ∈ String.utf8EncodeChar character) :
    String.utf8EncodeChar character = [octet] := by
  by_cases large : 127 < character.val.toNat
  · exact absurd small (not_small_of_mem large member)
  · have single :
        String.utf8EncodeChar character =
          [UInt8.ofNat character.val.toNat] := by
      rw [String.utf8EncodeChar.eq_def]
      exact if_pos (Nat.not_lt.mp large)
    rw [single] at member
    rw [single, List.mem_singleton.mp member]

/-- The character has the one octet, which is below 128. -/
structure Plain (character : Char) (octet : UInt8) : Prop where
  single : String.utf8EncodeChar character = [octet]
  small : octet < 0x80

namespace Plain

variable {character : Char} {octet : UInt8}

theorem mem_iff (plain : Plain character octet) (other : Char) :
    octet ∈ String.utf8EncodeChar other ↔ other = character := by
  constructor
  · intro member
    have same :=
      (eq_singleton_of_mem plain.small member).trans plain.single.symm
    have encoded : encode [other] = encode [character] := by
      rw [encode_cons, encode_cons, same]
    exact List.singleton_inj.mp (encode_inj encoded)
  · rintro rfl
    rw [plain.single]
    exact List.mem_singleton_self octet

/-- Among the octets of a text, only that of the plain character equals it. -/
theorem beq_eq
    (plain : Plain character octet)
    {other : Char}
    {otherOctet : UInt8}
    (member : otherOctet ∈ String.utf8EncodeChar other) :
    (otherOctet == octet) = (other == character) := by
  rw [Bool.eq_iff_iff, beq_iff_eq, beq_iff_eq]
  constructor
  · rintro rfl
    exact (plain.mem_iff other).mp member
  · rintro rfl
    rw [plain.single] at member
    exact List.mem_singleton.mp member

/-- Replacing a plain character by another one replaces its octet. -/
theorem encode_map_replace
    (plain : Plain character octet)
    {other : Char}
    {otherOctet : UInt8}
    (otherPlain : Plain other otherOctet)
    (characters : List Char) :
    encode (characters.map fun each => if each = character then
      other else each) =
      (encode characters).map fun each =>
        if each == octet then otherOctet else each := by
  induction characters with
  | nil => rfl
  | cons first characters ih =>
      rw [List.map_cons, encode_cons, ih, encode_cons, List.map_append]
      congr 1
      by_cases same : first = character
      · rw [if_pos same, otherPlain.single, same, plain.single,
          List.map_singleton, if_pos (beq_self_eq_true octet)]
      · have kept : ∀ each ∈ String.utf8EncodeChar first,
            (if each == octet then otherOctet else each) = each := by
          intro each member
          rw [plain.beq_eq member,
            if_neg (fun isPlain => same (eq_of_beq isPlain))]
        rw [if_neg same, List.map_congr_left kept, List.map_id']

/-- A text is cut where the octet of a plain character stands. -/
theorem exists_of_encode_eq
    (plain : Plain character octet)
    {characters : List Char}
    {front back : Bytes}
    (same : encode characters = front ++ octet :: back) :
    ∃ before behind,
      characters = before ++ character :: behind ∧ encode before = front ∧
      encode behind = back := by
  induction characters generalizing front with
  | nil => simp [encode] at same
  | cons first characters ih =>
      rw [encode_cons, List.append_eq_append_iff] at same
      rcases same with ⟨rest, rfl, tail⟩ | ⟨rest, split, tail⟩
      · rcases ih tail with ⟨before, behind, rfl, frontSame, backSame⟩
        exact ⟨first :: before, behind, rfl, by
          rw [encode_cons, frontSame], backSame⟩
      · cases rest with
        | nil =>
            -- The octet begins the next character.
            rw [List.append_nil] at split
            have next : encode characters = [] ++ octet :: back := tail.symm
            rcases ih next with ⟨before, behind, rfl, frontSame, backSame⟩
            refine ⟨first :: before, behind, rfl, ?_, backSame⟩
            rw [encode_cons, frontSame, List.append_nil, split]
        | cons shared rest =>
            rcases List.cons.inj tail with ⟨rfl, behind⟩
            have member : octet ∈ String.utf8EncodeChar first := by
              rw [split]
              exact List.mem_append_right _ List.mem_cons_self
            have isPlain := (plain.mem_iff first).mp member
            rw [isPlain, plain.single] at split
            rcases List.append_eq_singleton_iff.mp split.symm with
              ⟨rfl, alone⟩ | ⟨-, none⟩
            · rcases List.cons.inj alone with ⟨-, rfl⟩
              exact ⟨[], characters, by
                rw [isPlain, List.nil_append], rfl, behind.symm⟩
            · cases none

end Plain

/-- What is dropped at the beginning of a text is dropped from its octets. -/
theorem dropWhile_flatMap
    {encodeOne : Char → Bytes}
    {drops : Char → Bool}
    {dropsOctet : UInt8 → Bool}
    (nonempty : ∀ character, encodeOne character ≠ [])
    (agree : ∀ character, ∀ octet ∈ encodeOne character,
      dropsOctet octet = drops character)
    (characters : List Char) :
    (characters.flatMap encodeOne).dropWhile dropsOctet =
      (characters.dropWhile drops).flatMap encodeOne := by
  induction characters with
  | nil => rfl
  | cons first characters ih =>
      rw [List.flatMap_cons]
      by_cases dropped : drops first
      · rw [List.dropWhile_cons_of_pos dropped, List.dropWhile_append_of_pos,
          ih]
        intro octet member
        rw [agree first octet member, dropped]
      · rw [List.dropWhile_cons_of_neg dropped, List.flatMap_cons]
        rcases List.exists_cons_of_ne_nil (nonempty first) with
          ⟨octet, rest, octets⟩
        rw [octets, List.cons_append, List.dropWhile_cons_of_neg]
        rw [agree first octet (octets ▸ List.mem_cons_self)]
        exact dropped

section Ends

variable {drops : Char → Bool} {dropsOctet : UInt8 → Bool}

theorem dropWhile_encode
    (agree : ∀ character, ∀ octet ∈ String.utf8EncodeChar character,
      dropsOctet octet = drops character)
    (characters : List Char) :
    (encode characters).dropWhile dropsOctet =
      encode (characters.dropWhile drops) :=
  dropWhile_flatMap (fun _ => String.utf8EncodeChar_ne_nil) agree characters

/-- What is dropped at the end of a text is dropped from its octets. -/
theorem rdropWhile_encode
    (agree : ∀ character, ∀ octet ∈ String.utf8EncodeChar character,
      dropsOctet octet = drops character)
    (characters : List Char) :
    (encode characters).rdropWhile dropsOctet =
      encode (characters.rdropWhile drops) := by
  have backwards :
      (characters.reverse.flatMap (List.reverse ∘
        String.utf8EncodeChar)).dropWhile
        dropsOctet = (characters.reverse.dropWhile drops).flatMap
          (List.reverse ∘ String.utf8EncodeChar) := by
    apply dropWhile_flatMap
    · intro character
      exact fun empty =>
        String.utf8EncodeChar_ne_nil (List.reverse_eq_nil_iff.mp empty)
    · intro character octet member
      exact agree character octet (List.mem_reverse.mp member)
  rw [encode, List.rdropWhile, List.reverse_flatMap, backwards,
    List.reverse_flatMap, ← Function.comp_assoc,
    List.reverse_involutive.comp_self, Function.id_comp]
  rfl

end Ends

end SmaliFlow.Bytes
