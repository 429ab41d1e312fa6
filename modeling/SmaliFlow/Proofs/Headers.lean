import SmaliFlow.Method.Basic
import SmaliFlow.Proofs.Decoding
import SmaliFlow.Proofs.Rebuild
import SmaliFlow.Proofs.Scanning

/-!
# Declarations of methods

A method is declared by a directive, its flags, its name, its parameters in
parentheses and its return type.  A flag is read as soon as its keyword stands
there, and only then a space is looked for behind it.  No keyword begins with
another one, so no flag is taken for another; and a name is followed by no space
but by the octet that ends it, so no name is taken for a flag, not even one that
is spelled as a keyword.

The main statement is that a method which is declared with the first of its
lines has the flags, the name, the parameters and the return type that are
written there.
-/

namespace SmaliFlow

/-! ## Flags -/

namespace Modifier

/-- A flag as it is written: a space, any blanks and its keyword. -/
structure Flag where
  gap : Scan.Blanks
  modifier : Modifier

/-- The octets of a flag. -/
def Flag.octets (flag : Flag) : Bytes :=
  0x20 :: (flag.gap.octets ++ Bytes.ofString flag.modifier.keyword)

/-- The octets of flags. -/
def flagOctets (flags : List Flag) : Bytes :=
  flags.flatMap Flag.octets

theorem keyword_visible (modifier : Modifier) :
    ∀ octet ∈ Bytes.ofString modifier.keyword,
      Octet.isVisible octet = true := by
  have all : ∀ modifier ∈ all, ∀ octet ∈ Bytes.ofString modifier.keyword,
      Octet.isVisible octet = true := by
    decide +kernel
  exact all modifier (mem_all modifier)

theorem keyword_ne_nil (modifier : Modifier) :
    Bytes.ofString modifier.keyword ≠ [] := by
  have all : ∀ modifier ∈ all, Bytes.ofString modifier.keyword ≠ [] := by
    decide +kernel
  exact all modifier (mem_all modifier)

/-- The keyword of a flag, as a word of visible octets. -/
def word (modifier : Modifier) : Scan.Word Octet.isVisible :=
  ⟨⟨Bytes.ofString modifier.keyword, keyword_visible modifier⟩,
    keyword_ne_nil modifier⟩

theorem flagOctets_cons (flag : Flag) (flags : List Flag) (rest : Bytes) :
    flagOctets (flag :: flags) ++ rest =
      0x20 :: (flag.gap.octets ++
        (flag.modifier.word.octets ++ (flagOctets flags ++ rest))) := by
  simp only [flagOctets, List.flatMap_cons, Flag.octets, word, List.cons_append,
    List.append_assoc]

/-- Passing over the blanks in front of a word leaves the word. -/
theorem blanks_spaced
    (gap : Scan.Blanks)
    (word : Scan.Word Octet.isVisible)
    (rest : Bytes) :
    Scan.blanks (0x20 :: (gap.octets ++ (word.octets ++ rest))) =
      word.octets ++ rest :=
  Scan.blanks_append ⟨0x20 :: gap.octets,
    List.forall_mem_cons.mpr ⟨rfl, gap.accepted⟩⟩
    (word.halts (fun _ => Octet.isBlank_of_isVisible) rest)

theorem space_notMem_keyword (modifier : Modifier) :
    0x20 ∉ Bytes.ofString modifier.keyword := by
  intro member
  cases keyword_visible modifier 0x20 member

/-- No keyword begins with another one. -/
theorem eq_of_keyword_begins
    {left right : Modifier}
    (begins : Bytes.ofString left.keyword <+: Bytes.ofString right.keyword) :
    left = right := by
  have all : ∀ left ∈ all, ∀ right ∈ all,
      Bytes.ofString left.keyword <+: Bytes.ofString right.keyword →
        left = right := by
    decide +kernel
  exact all left (mem_all left) right (mem_all right) begins

theorem append_of_word?
    {input rest : Bytes}
    {modifier : Modifier}
    (found : word? input = some (modifier, rest)) :
    Bytes.ofString modifier.keyword ++ rest = input := by
  rcases List.exists_of_findSome?_eq_some found with ⟨candidate, -, mapped⟩
  rcases Option.map_eq_some_iff.mp mapped with ⟨remaining, accepted, same⟩
  cases same
  exact Scan.word?_eq_some_iff.mp accepted

/-- In front of a space a keyword is read as its own flag. -/
theorem word?_keyword (modifier : Modifier) (rest : Bytes) :
    word? (Bytes.ofString modifier.keyword ++ 0x20 :: rest) =
      some (modifier, 0x20 :: rest) := by
  have accepted :
      (word? (Bytes.ofString modifier.keyword ++ 0x20 :: rest)).isSome =
        true := by
    rw [word?, List.findSome?_isSome_iff]
    exact ⟨modifier, mem_all modifier, by rw [Scan.word?_append]; rfl⟩
  rcases Option.isSome_iff_exists.mp accepted with ⟨⟨other, after⟩, found⟩
  rcases Scan.exists_of_append_eq (space_notMem_keyword other)
      (append_of_word? found) with
    ⟨between, same, rfl⟩
  cases eq_of_keyword_begins ⟨between, same.symm⟩
  rw [found, List.self_eq_append_right.mp same, List.nil_append]

theorem next?_of_keyword
    {input rest : Bytes}
    {modifier : Modifier}
    (spelled : Scan.blanks input =
      Bytes.ofString modifier.keyword ++ 0x20 :: rest) :
    next? input = some (modifier, Scan.blanks rest) := by
  have space : Scan.word? " " (0x20 :: rest) = some rest :=
    Scan.word?_append " " rest
  simp only [next?, spelled, word?_keyword, Option.bind_eq_bind,
    Option.bind_some, space, Option.pure_def]

/-- A name is no flag if the octet behind it is no space and in no keyword. -/
theorem next?_of_name
    (name : Scan.Word Octet.isVisible)
    {stop : UInt8}
    (visible : Octet.isVisible stop = true)
    (absent : ∀ modifier : Modifier, stop ∉ Bytes.ofString modifier.keyword)
    {input rest : Bytes}
    (spelled : Scan.blanks input = name.octets ++ stop :: rest) :
    next? input = none := by
  cases found : word? (Scan.blanks input) with
  | none => simp only [next?, found, Option.bind_eq_bind, Option.bind_none]
  | some result =>
      rcases result with ⟨modifier, after⟩
      have split := (append_of_word? found).trans spelled
      rcases Scan.exists_of_append_eq (absent modifier) split with
        ⟨between, same, rfl⟩
      have refused : Scan.word? " " (between ++ stop :: rest) = none := by
        cases between with
        | nil =>
            apply Scan.word?_eq_none_of_head rfl
            rintro rfl
            cases visible
        | cons octet between =>
            have member : octet ∈ name.octets :=
              same ▸ List.mem_append_right _ List.mem_cons_self
            apply Scan.word?_eq_none_of_head rfl
            rintro rfl
            cases name.accepted _ member
      simp only [next?, found, Option.bind_eq_bind, Option.bind_some, refused,
        Option.bind_none]

theorem continueScan_of_some
    {input rest : Bytes}
    {modifier : Modifier}
    (accepted : next? input = some (modifier, rest))
    (found : List Modifier) :
    continueScan input found = continueScan rest (modifier :: found) := by
  rw [continueScan]
  split
  · rename_i again
    rw [accepted] at again
    cases again
    rfl
  · rename_i refused
    rw [accepted] at refused
    cases refused

theorem continueScan_of_none
    {input : Bytes}
    (refused : next? input = none)
    (found : List Modifier) :
    continueScan input found = (found.reverse, input) := by
  rw [continueScan]
  split
  · rename_i accepted
    rw [refused] at accepted
    cases accepted
  · rfl

section Declared

variable (gap : Scan.Blanks) (name : Scan.Word Octet.isVisible) {stop : UInt8}
  (visible : Octet.isVisible stop = true)
  (absent : ∀ modifier : Modifier, stop ∉ Bytes.ofString modifier.keyword)
include visible absent

/--
The flags in front of a name are read one after the other, and the name is left.
Only blanks may be in front of it.
-/
theorem continueScan_append
    (flags : List Flag)
    (rest : Bytes)
    {input : Bytes}
    (spelled : Scan.blanks input = Scan.blanks
      (flagOctets flags ++ 0x20 ::
        (gap.octets ++ (name.octets ++ stop :: rest))))
    (found : List Modifier) :
    ∃ left, continueScan input found =
      (found.reverse ++ flags.map Flag.modifier, left) ∧
      Scan.blanks left = name.octets ++ stop :: rest := by
  induction flags generalizing input found with
  | nil =>
      have behind : Scan.blanks input = name.octets ++ stop :: rest :=
        spelled.trans (blanks_spaced gap name _)
      refine ⟨input, ?_, behind⟩
      rw [continueScan_of_none (next?_of_name name visible absent behind),
        List.map_nil, List.append_nil]
  | cons flag flags ih =>
      -- Whatever follows the keyword begins with a space.
      have spaced : ∃ after,
          flagOctets flags ++ 0x20 ::
            (gap.octets ++ (name.octets ++ stop :: rest)) =
            0x20 :: after := by
        cases flags with
        | nil => exact ⟨_, rfl⟩
        | cons next flags => exact ⟨_, rfl⟩
      rcases spaced with ⟨after, spaced⟩
      have keyword : Scan.blanks input =
          Bytes.ofString flag.modifier.keyword ++ 0x20 :: after := by
        rw [spelled, flagOctets_cons, spaced]
        exact blanks_spaced flag.gap flag.modifier.word _
      have onward : Scan.blanks (Scan.blanks after) = Scan.blanks
          (flagOctets flags ++ 0x20 ::
            (gap.octets ++ (name.octets ++ stop :: rest))) := by
        have again : Scan.blanks (Scan.blanks after) = Scan.blanks after :=
          Scan.blanks_of_halts (Scan.halts_dropWhile _ _)
        rw [spaced, again]
        exact (Scan.blanks_blanks_append ⟨[0x20], by decide +kernel⟩ after).symm
      rcases ih onward (flag.modifier :: found) with ⟨left, scanned, behind⟩
      refine ⟨left, ?_, behind⟩
      rw [continueScan_of_some (next?_of_keyword keyword), scanned,
        List.reverse_cons, List.append_assoc]
      rfl

theorem exists_scan_append (flags : List Flag) (rest : Bytes) :
    ∃ left, scan (flagOctets flags ++ 0x20 ::
        (gap.octets ++ (name.octets ++ stop :: rest))) =
        (flags.map Flag.modifier, left) ∧
      Scan.blanks left = name.octets ++ stop :: rest :=
  continueScan_append gap name visible absent flags rest rfl []

end Declared

end Modifier

/-! ## Headers -/

namespace Header

/-- A declaration as it is written. -/
structure Spelling where
  flags : List Modifier.Flag
  gap : Scan.Blanks
  name : Scan.Word Octet.isVisible
  nameFree : 0x28 ∉ name.octets
  parameters : Bytes
  parametersFree : 0x29 ∉ parameters
  returnType : Scan.Run Octet.isVisible
  /-- What stands behind the return type. -/
  tail : Bytes
  halts : Scan.Halts Octet.isVisible tail

namespace Spelling

/-- The octets from the directive to the return type. -/
def front (spelling : Spelling) : Bytes :=
  Bytes.ofString ".method" ++ (Modifier.flagOctets spelling.flags ++
    0x20 :: (spelling.gap.octets ++ (spelling.name.octets ++
      0x28 :: (spelling.parameters ++ 0x29 :: spelling.returnType.octets))))

/-- The octets of a declaration. -/
def octets (spelling : Spelling) : Bytes :=
  spelling.front ++ spelling.tail

/-- What a declaration says. -/
def header (spelling : Spelling) : Header where
  modifiers := spelling.flags.map Modifier.Flag.modifier
  name := Utf8.decode spelling.name.octets
  parameters := spelling.parameters
  returnType := spelling.returnType.octets

theorem trimmed_front (spelling : Spelling) : Bytes.Trimmed spelling.front := by
  let closing : Scan.Word Octet.isVisible :=
    ⟨⟨0x29 :: spelling.returnType.octets,
      List.forall_mem_cons.mpr ⟨rfl, spelling.returnType.accepted⟩⟩,
        List.cons_ne_nil _ _⟩
  constructor
  · exact Scan.halts_cons (by decide) _
  · have split : spelling.front = (Bytes.ofString ".method" ++
        (Modifier.flagOctets spelling.flags ++ 0x20 :: (spelling.gap.octets ++
          (spelling.name.octets ++ 0x28 :: spelling.parameters)))) ++
            closing.octets := by
      simp only [front, closing, List.append_assoc, List.cons_append]
    rw [split]
    exact closing.halts_reverse (fun octet =>
      (Octet.isPadding_eq_false_iff octet).mpr) _

theorem trimmed_name (spelling : Spelling) :
    Bytes.Trimmed spelling.name.octets := by
  constructor
  · exact spelling.name.toRun.halts fun octet =>
      (Octet.isPadding_eq_false_iff octet).mpr
  · exact spelling.name.halts_reverse (fun octet =>
      (Octet.isPadding_eq_false_iff octet).mpr) []

end Spelling

theorem parenthesis_notMem_keyword (modifier : Modifier) :
    0x28 ∉ Bytes.ofString modifier.keyword := by
  have all : ∀ modifier ∈ Modifier.all,
      0x28 ∉ Bytes.ofString modifier.keyword := by
    decide +kernel
  exact all modifier (Modifier.mem_all modifier)

theorem scan?_append
    (spelling : Spelling)
    {tail : Bytes}
    (halts : Scan.Halts Octet.isVisible tail) :
    scan? (spelling.front ++ tail) = some spelling.header := by
  rcases Modifier.exists_scan_append spelling.gap spelling.name (by decide)
    parenthesis_notMem_keyword spelling.flags
    (spelling.parameters ++ 0x29 :: (spelling.returnType.octets ++ tail)) with
    ⟨left, scanned, behind⟩
  have directive : Scan.word? ".method" (spelling.front ++ tail) =
      some (Modifier.flagOctets spelling.flags ++ 0x20 ::
        (spelling.gap.octets ++
        (spelling.name.octets ++ 0x28 :: (spelling.parameters ++
          0x29 :: (spelling.returnType.octets ++ tail))))) := by
    rw [Scan.word?_eq_some_iff, Spelling.front]
    simp only [List.append_assoc, List.cons_append]
  have opens : Scan.cut? "(" (Scan.blanks left) = some (spelling.name.octets,
      spelling.parameters ++ 0x29 :: (spelling.returnType.octets ++ tail)) := by
    rw [behind]
    exact Scan.cut?_octet rfl spelling.nameFree _
  have closes :
      Scan.cut? ")" (spelling.parameters ++ 0x29 ::
        (spelling.returnType.octets ++
        tail)) = some (spelling.parameters,
          spelling.returnType.octets ++ tail) :=
    Scan.cut?_octet rfl spelling.parametersFree _
  simp only [scan?, directive, scanned, opens, closes,
    Scan.run_append spelling.returnType halts, spelling.trimmed_name.trim_eq,
    Option.bind_eq_bind, Option.bind_some, Option.pure_def]
  rfl

theorem read_trim (spelling : Spelling) :
    read spelling.octets.trim = spelling.header := by
  have filled : spelling.front ≠ [] := List.cons_ne_nil _ _
  have kept :=
    spelling.halts.of_begins (List.rdropWhile_prefix Octet.isPadding
      spelling.tail)
  rw [Spelling.octets, spelling.trimmed_front.trim_append filled, read,
    scan?_append spelling kept]

theorem kind_eq_constructor_iff (header : Header) :
    header.kind = .constructor ↔ header.name = "<init>" := by
  rw [kind]
  split
  · rename_i named
    exact iff_of_true rfl named
  · rename_i other
    refine iff_of_false ?_ other
    split
    all_goals
      intro same
      cases same

theorem kind_eq_staticInitializer_iff (header : Header) :
    header.kind = .staticInitializer ↔ header.name = "<clinit>" := by
  rw [kind]
  split
  · rename_i named
    rw [named]
    exact iff_of_false MethodKind.noConfusion (by decide)
  · split
    · rename_i named
      exact iff_of_true rfl named
    · rename_i other
      exact iff_of_false MethodKind.noConfusion other

end Header

/-! ## Declared methods -/

namespace Method

theorem exists_declare?
    {lines : Array Line}
    {id : Nat}
    {ids : List Nat}
    {line : Line}
    (found : lines[id]? = some line)
    (inside : ∀ other ∈ ids, other < lines.size)
    (label : Nat) :
    ∃ method, declare? label lines (id :: ids) = some method ∧
      method.header = Header.read line.text := by
  have all : ∀ other ∈ id :: ids, other < lines.size :=
    List.forall_mem_cons.mpr ⟨(Array.getElem?_eq_some_iff.mp found).1, inside⟩
  rcases Flow.Listing.exists_ofIds? all with ⟨listing, listed⟩
  refine ⟨declare label listing, by rw [declare?, listed, Option.map_some], ?_⟩
  rcases Flow.Listing.ofIds?_eq_some_iff.mp listed with
    ⟨entries, named, members, rfl⟩
  cases entries with
  | nil => cases named
  | cons entry entries =>
      have first := members entry List.mem_cons_self
      rw [(List.cons.inj named).1, found] at first
      have texts := Flow.Listing.map_ofLines (entry :: entries) Flow.Row.text
        (fun entry => entry.2.text) fun _ _ _ _ => rfl
      have head := congrArg List.head? texts
      rw [List.head?_map, List.map_cons, List.head?_cons,
        ← Option.some.inj first] at head
      change Header.read _ = _
      rw [head, Option.getD_some]

/--
A method has the flags, the name, the parameters and the return type that its
first line declares, and it is a constructor or a static initializer by its name
alone.
-/
theorem declared_header_round_trip
    (spelling : Header.Spelling)
    {lines : Array Line}
    {id : Nat}
    {ids : List Nat}
    {line : Line}
    (found : lines[id]? = some line)
    (text : line.text = spelling.octets.trim)
    (inside : ∀ other ∈ ids, other < lines.size)
    (label : Nat) :
    ∃ method, declare? label lines (id :: ids) = some method ∧
      method.header.modifiers = spelling.flags.map Modifier.Flag.modifier ∧
      method.header.name = Utf8.decode spelling.name.octets ∧
      (∀ name, spelling.name.octets = Bytes.ofString name →
        method.header.name = name) ∧
      method.header.parameters = spelling.parameters ∧
      method.header.returnType = spelling.returnType.octets ∧
      (method.header.kind = .constructor ↔
        spelling.name.octets = Bytes.ofString "<init>") ∧
      (method.header.kind = .staticInitializer ↔
        spelling.name.octets = Bytes.ofString "<clinit>") := by
  rcases exists_declare? found inside label with ⟨method, declared, header⟩
  rw [text, Header.read_trim] at header
  refine ⟨method, declared, ?_⟩
  rw [Header.kind_eq_constructor_iff, Header.kind_eq_staticInitializer_iff,
    header]
  refine ⟨rfl, rfl, ?_, rfl, rfl, Utf8.decode_eq_iff (by decide) _,
    Utf8.decode_eq_iff (by decide) _⟩
  intro name same
  rw [Header.Spelling.header, same, Utf8.decode_ofString]

/-- A declaration with uneven blanks whose name is spelled as a flag. -/
def publicMethod : Header.Spelling where
  flags := [⟨⟨[0x20, 0x20], by decide +kernel⟩, .static⟩,
    ⟨⟨[0x09], by decide +kernel⟩, .constructor⟩]
  gap := ⟨[], by decide +kernel⟩
  name := ⟨⟨Bytes.ofString "public", by decide +kernel⟩, by decide +kernel⟩
  nameFree := by decide +kernel
  parameters := Bytes.ofString "I (static "
  parametersFree := by decide +kernel
  returnType := ⟨Bytes.ofString "V", by decide +kernel⟩
  tail := Bytes.ofString "\t# ()"
  halts := by decide +kernel

/-- A class of two lines, the second of which declares that method. -/
def publicMethodLines : Array Line :=
  Line.ofTexts ["nop",
    ".method   static \tconstructor public(I (static )V\t# ()"]

theorem declared_header_round_trip_of_publicMethod :
    publicMethodLines[1]?.map Line.text = some publicMethod.octets.trim ∧
    ∃ method, declare? 7 publicMethodLines [1, 0] = some method ∧
      method.header.modifiers = [.static, .constructor] ∧
      method.header.name = "public" ∧
      method.header.parameters = Bytes.ofString "I (static " ∧
      method.header.returnType = Bytes.ofString "V" ∧
        method.header.kind ≠ .constructor := by
  have view : publicMethodLines[1]?.map Line.text =
      some publicMethod.octets.trim := by
    decide +kernel
  rcases Option.map_eq_some_iff.mp view with ⟨line, found, text⟩
  have inside : ∀ other ∈ [0], other < publicMethodLines.size := by
    decide +kernel
  rcases declared_header_round_trip publicMethod found text inside 7 with
    ⟨method, declared, modifiers, -, name, parameters, returnType, constructs,
      -⟩
  refine ⟨view, method, declared, modifiers, name "public" rfl, parameters,
    returnType, ?_⟩
  rw [Ne, constructs]
  decide +kernel

end Method

end SmaliFlow
