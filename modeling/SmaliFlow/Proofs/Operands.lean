import SmaliFlow.Proofs.Catching

/-!
# Operands survive being written down

Registers, labels and method references are written behind an opcode with commas
between them, and reading the line gives them back.  The comma that separates
two registers also separates the last register from what follows, so the list of
registers has to give back exactly one comma.  In braces a range names its two
ends in the same way as a list of two.
-/

namespace SmaliFlow

/-! ## Registers -/

namespace Register

/-- The letter of a bank and a decimal number. -/
structure Spelling where
  bank : UInt8
  named : isBank bank = true
  number : Scan.Word Octet.isDigit

/-- The octets of a register. -/
def Spelling.octets (spelling : Spelling) : Bytes :=
  spelling.bank :: spelling.number.octets

/-- What may stand between two registers. -/
inductive Mark where
  | comma
  | dots
  deriving DecidableEq, Repr

/-- The word of a mark. -/
def Mark.word : Mark → String
  | .comma => ","
  | .dots => ".."

/-- A mark with any blanks around it. -/
structure Separator (mark : Mark) where
  before : Scan.Blanks
  after : Scan.Blanks

/-- The octets of a separator. -/
def Separator.octets {mark : Mark} (separator : Separator mark) : Bytes :=
  separator.before.octets ++ Bytes.ofString mark.word ++ separator.after.octets

/-- A register with the comma behind it. -/
structure Followed where
  register : Spelling
  comma : Separator .comma

/-- The octets of registers, each with the comma behind it. -/
def followedOctets (front : List Followed) : Bytes :=
  front.flatMap fun entry => entry.register.octets ++ entry.comma.octets

/-- The registers of a list in which each has a comma behind it. -/
def followedRegisters (front : List Followed) : List Bytes :=
  front.map fun entry => entry.register.octets

/-- Registers in braces: none, a list of them, or the two ends of a range. -/
inductive Braced where
  | empty (inside : Scan.Blanks)
  | list (opening : Scan.Blanks) (front : List Followed) (last : Spelling)
    (closing : Scan.Blanks)
  | range (opening : Scan.Blanks) (first : Spelling) (dots : Separator .dots)
    (last : Spelling)
      (closing : Scan.Blanks)

namespace Braced

/-- The octets between the braces. -/
def inside : Braced → Bytes
  | empty inside => inside.octets
  | list opening front last closing =>
      opening.octets ++ followedOctets front ++ last.octets ++ closing.octets
  | range opening first dots last closing =>
      opening.octets ++ first.octets ++ dots.octets ++ last.octets ++
        closing.octets

/-- The octets of registers in braces. -/
def octets (braced : Braced) : Bytes :=
  Bytes.ofString "\x7b" ++ braced.inside ++ Bytes.ofString "\x7d"

/-- The registers in braces. -/
def registers : Braced → List Bytes
  | empty _ => []
  | list _ front last _ => followedRegisters front ++ [last.octets]
  | range _ first _ last _ => [first.octets, last.octets]

end Braced

/-! ## Reading registers -/

theorem isDigit_of_isBlank
    {octet : UInt8}
    (blank : Octet.isBlank octet = true) :
    Octet.isDigit octet = false := by
  rcases Octet.eq_of_isBlank blank with rfl | rfl <;> decide

theorem isPadding_of_isBank {octet : UInt8} (named : isBank octet = true) :
    Octet.isPadding octet = false := by
  simp only [isBank, Bool.or_eq_true, beq_iff_eq] at named
  rcases named with ((rfl | rfl) | rfl) | rfl <;> decide

theorem isBlank_of_isBank {octet : UInt8} (named : isBank octet = true) :
    Octet.isBlank octet = false :=
  Octet.isBlank_of_isVisible ((Octet.isPadding_eq_false_iff octet).mp
    (isPadding_of_isBank named))

theorem Mark.halts
    (mark : Mark)
    {accept : UInt8 → Bool}
    (comma : accept 0x2c = false)
    (dot : accept 0x2e = false)
    (rest : Bytes) :
    Scan.Halts accept (Bytes.ofString mark.word ++ rest) := by
  cases mark with
  | comma => exact Scan.halts_cons comma rest
  | dots => exact Scan.halts_cons dot _

theorem Separator.halts
    {mark : Mark}
    (separator : Separator mark)
    (rest : Bytes) :
    Scan.Halts Octet.isDigit (separator.octets ++ rest) := by
  rw [Separator.octets, List.append_assoc, List.append_assoc]
  exact (separator.before.halts fun _ => isDigit_of_isBlank).append
    (mark.halts (by decide) (by decide) _)

theorem scan?_append
    (register : Spelling)
    {rest : Bytes}
    (halts : Scan.Halts Octet.isDigit rest) :
    scan? (register.octets ++ rest) = some (register.octets, rest) := by
  rw [Spelling.octets, List.cons_append, scan?, if_pos register.named,
    Scan.someRun?_append register.number halts]
  rfl

/-- The first of the separators that the input begins with is the given mark. -/
def Accepts (separators : List String) (mark : Mark) : Prop :=
  ∀ rest, separators.findSome? (fun separator =>
    Scan.word? separator (Bytes.ofString mark.word ++ rest)) = some rest

theorem accepts_comma (others : List String) :
    Accepts ("," :: others) .comma := by
  intro rest
  rw [List.findSome?_cons, Mark.word, Scan.word?_append]

theorem accepts_dots : Accepts [",", ".."] .dots := by
  intro rest
  have noComma : Scan.word? "," (Bytes.ofString ".." ++ rest) = none :=
    Scan.word?_eq_none_of_head rfl (by decide)
  rw [List.findSome?_cons, Mark.word, noComma, List.findSome?_cons,
    Scan.word?_append]

theorem next?_append
    {separators : List String}
    {mark : Mark}
    (accepts : Accepts separators mark)
    (separator : Separator mark)
    (register : Spelling)
    {rest : Bytes}
    (halts : Scan.Halts Octet.isDigit rest) :
    next? separators (separator.octets ++ (register.octets ++ rest)) =
      some (register.octets, rest) := by
  have markHalts (behind : Bytes) : Scan.Halts Octet.isBlank
      (Bytes.ofString mark.word ++ behind) :=
    mark.halts (by decide) (by decide) behind
  have registerHalts : Scan.Halts Octet.isBlank (register.octets ++ rest) :=
    Scan.halts_cons (isBlank_of_isBank register.named) _
  simp only [next?, Separator.octets, List.append_assoc,
    Scan.blanks_append separator.before (markHalts _), accepts _,
    Option.bind_eq_bind, Option.bind_some,
    Scan.blanks_append separator.after registerHalts,
    scan?_append register halts]

theorem continueScan_of_some
    {separators : List String}
    {input register rest : Bytes}
    (read : next? separators input = some (register, rest))
    (found : List Bytes) :
    continueScan separators input found =
      continueScan separators rest (register :: found) := by
  rw [continueScan]
  split
  · rename_i accepted
    rw [read] at accepted
    cases accepted
    rfl
  · rename_i refused
    rw [read] at refused
    cases refused

theorem continueScan_of_none
    {separators : List String}
    {input : Bytes}
    (refused : next? separators input = none)
    (found : List Bytes) :
    continueScan separators input found = (found.reverse, input) := by
  rw [continueScan]
  split
  · rename_i accepted
    rw [refused] at accepted
    cases accepted
  · rfl

theorem followedOctets_cons
    (entry : Followed)
    (front : List Followed)
    (rest : Bytes) :
    followedOctets (entry :: front) ++ rest =
      entry.register.octets ++
        (entry.comma.octets ++ (followedOctets front ++ rest)) := by
  rw [followedOctets, List.flatMap_cons, List.append_assoc, List.append_assoc,
    followedOctets]

/-- Behind a comma the scan takes all registers that have commas behind them. -/
theorem exists_continueScan_front
    (others : List String)
    (front : List Followed)
    (comma : Separator .comma)
    (rest : Bytes)
    (found : List Bytes) :
    ∃ last : Separator .comma,
      continueScan ("," :: others) (comma.octets ++
        (followedOctets front ++ rest)) found =
        continueScan ("," :: others) (last.octets ++ rest)
          ((followedRegisters front).reverse ++ found) := by
  induction front generalizing comma found with
  | nil => exact ⟨comma, rfl⟩
  | cons entry front ih =>
      rcases ih entry.comma (entry.register.octets :: found) with
        ⟨last, scanned⟩
      refine ⟨last, ?_⟩
      rw [followedOctets_cons,
        continueScan_of_some (next?_append (accepts_comma others) comma
        entry.register (entry.comma.halts _)), scanned, followedRegisters,
        followedRegisters, List.map_cons, List.reverse_cons, List.append_assoc,
        List.singleton_append]

/--
A list of registers that each have a comma behind them is read up to the last
comma.
-/
theorem exists_scanList_front
    (others : List String)
    (entry : Followed)
    (front : List Followed)
    (rest : Bytes) :
    ∃ last : Separator .comma,
      scanList ("," :: others) (followedOctets (entry :: front) ++ rest) =
        continueScan ("," :: others) (last.octets ++ rest)
          (followedRegisters (entry :: front)).reverse := by
  rcases exists_continueScan_front others front entry.comma rest
    [entry.register.octets] with ⟨last, scanned⟩
  refine ⟨last, ?_⟩
  rw [followedOctets_cons, scanList,
    scan?_append entry.register (entry.comma.halts _)]
  dsimp only
  rw [scanned, followedRegisters, followedRegisters, List.map_cons,
    List.reverse_cons]

/-! ## Registers in braces -/

/-- Neither separator stands in front of a closing brace. -/
theorem next?_closing (closing : Scan.Blanks) (rest : Bytes) :
    next? [",", ".."] (closing.octets ++ (Bytes.ofString "\x7d" ++ rest)) =
      none := by
  have braceHalts : Scan.Halts Octet.isBlank (Bytes.ofString "\x7d" ++ rest) :=
    Scan.halts_cons (by decide) rest
  have noComma : Scan.word? "," (Bytes.ofString "\x7d" ++ rest) = none :=
    Scan.word?_eq_none_of_head rfl (by decide)
  have noDots : Scan.word? ".." (Bytes.ofString "\x7d" ++ rest) = none :=
    Scan.word?_eq_none_of_head rfl (by decide)
  simp only [next?, Scan.blanks_append closing braceHalts, List.findSome?_cons,
    noComma, noDots, List.findSome?_nil, Option.bind_eq_bind, Option.bind_none]

theorem closing_halts (closing : Scan.Blanks) (rest : Bytes) :
    Scan.Halts Octet.isDigit (closing.octets ++
      (Bytes.ofString "\x7d" ++ rest)) :=
  (closing.halts fun _ => isDigit_of_isBlank).append
    (Scan.halts_cons (by decide) rest)

theorem scanList_list
    (front : List Followed)
    (last : Spelling)
    (closing : Scan.Blanks)
    (rest : Bytes) :
    scanList [",", ".."]
        (followedOctets front ++
          (last.octets ++
            (closing.octets ++ (Bytes.ofString "\x7d" ++ rest)))) =
      (followedRegisters front ++ [last.octets],
        closing.octets ++ (Bytes.ofString "\x7d" ++ rest)) := by
  have halts := closing_halts closing rest
  have ended := continueScan_of_none (next?_closing closing rest)
  cases front with
  | nil =>
      have read := scan?_append last halts
      rw [followedOctets, List.flatMap_nil, List.nil_append, scanList, read]
      exact ended [last.octets]
  | cons entry front =>
      rcases exists_scanList_front [".."] entry front
        (last.octets ++ (closing.octets ++
        (Bytes.ofString "\x7d" ++ rest))) with ⟨comma, scanned⟩
      rw [scanned,
        continueScan_of_some (next?_append (accepts_comma _) comma last halts),
        ended, List.reverse_cons, List.reverse_reverse]

theorem scanList_range
    (first last : Spelling)
    (dots : Separator .dots)
    (closing : Scan.Blanks)
    (rest : Bytes) :
    scanList [",", ".."] (first.octets ++ (dots.octets ++
        (last.octets ++ (closing.octets ++ (Bytes.ofString "\x7d" ++ rest))))) =
      ([first.octets, last.octets],
        closing.octets ++ (Bytes.ofString "\x7d" ++ rest)) := by
  have read := scan?_append first (dots.halts (last.octets ++ (closing.octets ++
    (Bytes.ofString "\x7d" ++ rest))))
  have further :=
    next?_append accepts_dots dots last (closing_halts closing rest)
  rw [scanList, read]
  dsimp only
  rw [continueScan_of_some further,
    continueScan_of_none (next?_closing closing rest)]
  rfl

theorem Spelling.halts (register : Spelling) (rest : Bytes) :
    Scan.Halts Octet.isBlank (register.octets ++ rest) :=
  Scan.halts_cons (isBlank_of_isBank register.named) _

theorem Spelling.halts_padding (register : Spelling) (rest : Bytes) :
    Scan.Halts Octet.isPadding (register.octets ++ rest) :=
  Scan.halts_cons (isPadding_of_isBank register.named) _

theorem scanBraced?_append (braced : Braced) (rest : Bytes) :
    scanBraced? (braced.octets ++ rest) = some (braced.registers, rest) := by
  have braceHalts : Scan.Halts Octet.isBlank (Bytes.ofString "\x7d" ++ rest) :=
    Scan.halts_cons (by decide) rest
  have closes (closing : Scan.Blanks) :=
    Scan.blanks_append closing braceHalts
  cases braced with
  | empty inside =>
      have noRegister : scan? (Bytes.ofString "\x7d" ++ rest) = none := rfl
      simp only [scanBraced?, Braced.octets, Braced.inside, Braced.registers,
        List.append_assoc, Scan.word?_append, Option.bind_eq_bind,
        Option.bind_some, Option.pure_def, closes, scanList, noRegister,
        Scan.blanks_of_halts braceHalts]
  | list opening front last closing =>
      have listHalts (behind : Bytes) : Scan.Halts Octet.isBlank
          (followedOctets front ++ (last.octets ++ behind)) := by
        cases front with
        | nil => exact last.halts behind
        | cons entry front =>
            rw [followedOctets_cons]
            exact entry.register.halts _
      simp only [scanBraced?, Braced.octets, Braced.inside, Braced.registers,
        List.append_assoc, Scan.word?_append, Option.bind_eq_bind,
        Option.bind_some, Option.pure_def,
        Scan.blanks_append opening (listHalts _), scanList_list, closes]
  | range opening first dots last closing =>
      simp only [scanBraced?, Braced.octets, Braced.inside, Braced.registers,
        List.append_assoc, Scan.word?_append, Option.bind_eq_bind,
        Option.bind_some, Option.pure_def,
        Scan.blanks_append opening (first.halts _), scanList_range, closes]

/-! ## Registers in front of a label -/

/--
The comma behind the last register is the one that separates it from the
operand.
-/
theorem afterComma_append (comma : Separator .comma) (rest : Bytes) :
    Operation.afterComma (comma.octets ++ rest) =
      comma.after.octets ++ rest := by
  have commaHalts
      (behind : Bytes) :
        Scan.Halts Octet.isBlank (Bytes.ofString "," ++ behind) :=
    Scan.halts_cons (by decide) behind
  rw [Operation.afterComma, Separator.octets, Mark.word, List.append_assoc,
    List.append_assoc, Scan.blanks_append comma.before (commaHalts _),
    Scan.word?_append]

theorem scanBraced?_eq_none
    {octet : UInt8}
    (different : octet ≠ 0x7b)
    (rest : Bytes) :
    scanBraced? (octet :: rest) = none := by
  rw [scanBraced?, Scan.word?_eq_none_of_head rfl different,
    Option.bind_eq_bind, Option.bind_none]

theorem ne_brace_of_isBank {octet : UInt8} (named : isBank octet = true) :
    octet ≠ 0x7b := by
  rintro rfl
  cases named

/--
What stands in front of the label is read as the registers, and the label is
left.
-/
theorem scanOperands_label
    (front : List Followed)
    (label : Label.Spelling)
    (tail : Bytes) :
    (scanOperands (followedOctets front ++ (label.octets ++ tail))).1 =
      followedRegisters front ∧
      ∃ blanks : Scan.Blanks,
        Operation.afterComma (scanOperands (followedOctets front ++
          (label.octets ++ tail))).2 =
          blanks.octets ++ (label.octets ++ tail) := by
  have noRegister : scan? (label.octets ++ tail) = none := rfl
  cases front with
  | nil =>
      have unbraced : scanBraced? (label.octets ++ tail) = none :=
        scanBraced?_eq_none (by decide) _
      have noComma : Scan.word? "," (label.octets ++ tail) = none :=
        Scan.word?_eq_none_of_head rfl (by decide)
      have read : scanOperands (followedOctets [] ++ (label.octets ++ tail)) =
          ([], label.octets ++ tail) := by
        rw [followedOctets, List.flatMap_nil, List.nil_append, scanOperands,
          unbraced, Option.getD_none, scanList, noRegister]
      rw [read]
      refine ⟨rfl, ⟨[], by simp⟩, ?_⟩
      rw [Operation.afterComma,
        Scan.blanks_of_halts (label.halts (by decide) tail), noComma,
        List.nil_append]
  | cons entry front =>
      rcases exists_scanList_front [] entry front (label.octets ++ tail) with
        ⟨comma, scanned⟩
      have commaHalts
          (behind : Bytes) :
            Scan.Halts Octet.isBlank (Bytes.ofString "," ++ behind) :=
        Scan.halts_cons (by decide) behind
      -- Behind the last comma stands no register, so the list gives this comma
      -- back.
      have ended :
          next? [","] (comma.octets ++ (label.octets ++ tail)) = none := by
        simp only [next?, Separator.octets, Mark.word, List.append_assoc,
          Scan.blanks_append comma.before (commaHalts _), List.findSome?_cons,
          Scan.word?_append, Option.bind_eq_bind, Option.bind_some,
          Scan.blanks_append comma.after (label.halts (by decide) tail),
          noRegister]
      have unbraced :
          scanBraced? (followedOctets (entry :: front) ++
            (label.octets ++ tail)) =
            none := by
        rw [followedOctets_cons]
        exact scanBraced?_eq_none (ne_brace_of_isBank entry.register.named) _
      have read : scanOperands (followedOctets (entry :: front) ++
          (label.octets ++ tail)) =
          (followedRegisters (entry :: front),
            comma.octets ++ (label.octets ++ tail)) := by
        rw [scanOperands, unbraced, Option.getD_none, scanned,
          continueScan_of_none ended, List.reverse_reverse]
      rw [read]
      exact ⟨rfl, comma.after, afterComma_append comma _⟩

end Register

/-! ## Method references -/

namespace MethodRef

/-- A method reference that its own octets do not take apart in another way. -/
structure Spelling extends MethodRef where
  ownerTrimmed : Bytes.Trimmed owner
  ownerFree : ¬Bytes.ofString "->" <:+: owner
  nameTrimmed : Bytes.Trimmed name
  nameFree : 0x28 ∉ name
  parametersFree : 0x29 ∉ parameters
  returnVisible : ∀ octet ∈ returnType, Octet.isVisible octet = true

/-- The octets of a method reference. -/
def octets (reference : MethodRef) : Bytes :=
  reference.owner ++ Bytes.ofString "->" ++ reference.name ++
    Bytes.ofString "(" ++
    reference.parameters ++ Bytes.ofString ")" ++ reference.returnType

theorem Spelling.read?_octets (spelling : Spelling) :
    read? spelling.toMethodRef.octets = some spelling.toMethodRef := by
  rcases spelling with
    ⟨reference, ownerTrimmed, ownerFree, nameTrimmed, nameFree,
    parametersFree, returnVisible⟩
  have opening (behind : Bytes) :
      Scan.cut? "(" (reference.name ++ (Bytes.ofString "(" ++ behind)) =
        some (reference.name, behind) :=
    Scan.cut?_octet rfl nameFree behind
  have closing (behind : Bytes) :
      Scan.cut? ")" (reference.parameters ++ (Bytes.ofString ")" ++ behind)) =
        some (reference.parameters, behind) :=
    Scan.cut?_octet rfl parametersFree behind
  have returned :
      Scan.run Octet.isVisible reference.returnType =
        (reference.returnType, []) := by
    have read :=
      Scan.run_append ⟨reference.returnType, returnVisible⟩ Scan.halts_nil
    rwa [List.append_nil] at read
  have arrow := Scan.cut?_arrow ownerFree
  simp only [List.append_assoc] at arrow
  simp only [read?, octets, List.append_assoc, arrow, opening, closing,
    returned, Option.bind_eq_bind, Option.bind_some, Option.pure_def,
    ownerTrimmed.trim_eq, nameTrimmed.trim_eq]

theorem octets_ne_nil (reference : MethodRef) : reference.octets ≠ [] := by
  apply List.append_ne_nil_of_left_ne_nil
  exact List.append_ne_nil_of_right_ne_nil _ (by decide)

theorem Spelling.trimmed (spelling : Spelling) :
    Bytes.Trimmed spelling.toMethodRef.octets where
  starts := by
    rw [octets]
    simp only [List.append_assoc]
    exact spelling.ownerTrimmed.starts.append (Scan.halts_cons (by decide) _)
  ends := by
    have returned : Scan.Halts Octet.isPadding spelling.returnType.reverse := by
      intro octet member
      rw [Octet.isPadding_eq_false_iff]
      exact spelling.returnVisible octet
        (List.mem_reverse.mp (List.mem_of_mem_head? member))
    rw [octets, List.reverse_append, List.reverse_append]
    exact returned.append (Scan.halts_cons (by decide) _)

end MethodRef

/-! ## Whole instructions -/

theorem Family.takesLabel_of_mem
    {family : Family}
    (member : family ∈ [Family.branch, .goto, .switch, .fillArrayData]) :
    family.takesLabel = true := by
  revert member
  cases family <;> decide

theorem Family.takesMethod_of_mem
    {family : Family}
    (member : family ∈ [Family.invoke, .invokeStatic]) :
    family.takesLabel = false ∧ family.takesMethod = true := by
  revert member
  cases family <;> decide

/-- The octets that comments, labels and directives begin with. -/
def Instruction.marks : Bytes :=
  [0x23, 0x3a, 0x2e]

namespace Operation

theorem isVisible_of_isOpcodeOctet
    {octet : UInt8}
    (named : isOpcodeOctet octet = true) :
    Octet.isVisible octet = true := by
  simp only [isOpcodeOctet, Bool.or_eq_true, beq_iff_eq] at named
  rcases named with ((alphanumeric | rfl) | rfl) | rfl
  · exact Octet.isVisible_of_isAlphanumeric alphanumeric
  · decide
  · decide
  · decide

theorem isPadding_of_isOpcodeOctet
    {octet : UInt8}
    (named : isOpcodeOctet octet = true) :
    Octet.isPadding octet = false :=
  (Octet.isPadding_eq_false_iff octet).mpr (isVisible_of_isOpcodeOctet named)

theorem isOpcodeOctet_of_isBlank
    {octet : UInt8}
    (blank : Octet.isBlank octet = true) :
    isOpcodeOctet octet = false := by
  rcases Octet.eq_of_isBlank blank with rfl | rfl <;> decide

/-- A line is an instruction if its first visible octet marks nothing else. -/
theorem read_unmarked
    {line rest : Bytes}
    {octet : UInt8}
    (trimmed : line.trim = octet :: rest)
    (unmarked : octet ∉ Instruction.marks) :
    Instruction.read line = .code (read (octet :: rest)) := by
  rw [Instruction.read, trimmed]
  split
  · cases ‹octet :: rest = []›
  · rename_i same
    cases same
    exact absurd (by decide) unmarked
  · rename_i same
    cases same
    exact absurd (by decide) unmarked
  · rename_i same
    cases same
    exact absurd (by decide) unmarked
  · rename_i same
    cases same
    rfl

theorem not_mark_of_isOpcodeOctet
    {octet : UInt8}
    (named : isOpcodeOctet octet = true) :
    octet ∉ Instruction.marks := by
  intro marked
  simp only [Instruction.marks, List.mem_cons, List.not_mem_nil, or_false]
    at marked
  rcases marked with rfl | rfl | rfl <;> cases named

/-- A trimmed line that begins with an opcode is an instruction. -/
theorem read_eq_code
    {line text : Bytes}
    (opcode : Scan.Word isOpcodeOctet)
    (trimmed : line.trim = opcode.octets ++ text) :
    Instruction.read line = .code (read (opcode.octets ++ text)) := by
  rcases List.exists_cons_of_ne_nil opcode.nonempty with ⟨octet, octets, split⟩
  have named : isOpcodeOctet octet = true :=
    opcode.accepted octet (split ▸ List.mem_cons_self)
  rw [split, List.cons_append] at trimmed ⊢
  exact read_unmarked trimmed (not_mark_of_isOpcodeOctet named)

/-- The opcode acts on what is read behind it only through its family. -/
theorem read_run_append
    (opcode : Scan.Run isOpcodeOctet)
    {text : Bytes}
    (halts : Scan.Halts isOpcodeOctet text) :
    read (opcode.octets ++ text) =
      { family := Family.ofOpcode opcode.octets, opcode := opcode.octets,
        registers := (Register.scanOperands text.trim).1,
        operand := readOperand (Family.ofOpcode opcode.octets)
          (afterComma (Register.scanOperands text.trim).2).trim } := by
  rw [read, Scan.run_append opcode halts]

theorem read_append
    (opcode : Scan.Word isOpcodeOctet)
    (gap : Scan.Gap)
    (text : Bytes) :
    read (opcode.octets ++ (gap.octets ++ text)) =
      { family := Family.ofOpcode opcode.octets, opcode := opcode.octets,
        registers := (Register.scanOperands text.trim).1,
        operand := readOperand (Family.ofOpcode opcode.octets)
          (afterComma (Register.scanOperands text.trim).2).trim } := by
  have opcodeHalts : Scan.Halts isOpcodeOctet (gap.octets ++ text) :=
    gap.halts (fun _ => isOpcodeOctet_of_isBlank) text
  have padding : ∀ octet ∈ gap.octets, Octet.isPadding octet = true :=
    fun octet member => Octet.isPadding_of_isBlank (gap.accepted octet member)
  rw [read_run_append opcode.toRun opcodeHalts,
    Bytes.trim_padding_append padding]

/--
A line that begins with an opcode and ends with a trimmed text is trimmed.
-/
theorem trimmed_append
    (opcode : Scan.Word isOpcodeOctet)
    (middle : Bytes)
    {text : Bytes}
    (trimmed : Bytes.Trimmed text)
    (filled : text ≠ []) :
    Bytes.Trimmed (opcode.octets ++ (middle ++ text)) where
  starts := opcode.halts (fun _ => isPadding_of_isOpcodeOctet) _
  ends := by
    rw [← List.append_assoc]
    exact trimmed.ends_append filled _

theorem readOperand_label
    {family : Family}
    (takes : family.takesLabel = true)
    (label : Label.Spelling)
    {tail : Bytes}
    (halts : Scan.Halts Label.isNameOctet tail) :
    readOperand family (label.octets ++ tail) = .label label.octets := by
  rw [readOperand, if_pos takes, Label.read?, Label.scan?_append label halts]
  rfl

theorem readOperand_method
    {family : Family}
    (unlabelled : family.takesLabel = false)
    (takes : family.takesMethod = true)
    (callee : MethodRef.Spelling) :
    readOperand family callee.toMethodRef.octets =
      .method callee.toMethodRef := by
  rw [readOperand, unlabelled, if_neg Bool.false_ne_true, if_pos takes,
    callee.read?_octets]

/-- Registers, each with a comma behind it, in front of a label. -/
theorem trimmed_followed
    (front : List Register.Followed)
    (label : Label.Spelling) :
    Bytes.Trimmed (Register.followedOctets front ++ label.octets) where
  starts := by
    cases front with
    | nil => exact Scan.halts_cons (by decide) _
    | cons entry front =>
        rw [Register.followedOctets_cons]
        exact entry.register.halts_padding _
  ends := label.trimmed.ends_append label.octets_ne_nil _

theorem read_label_line
    {opcode : Scan.Word isOpcodeOctet}
    (takes : (Family.ofOpcode opcode.octets).takesLabel = true)
    (gap : Scan.Gap)
    (front : List Register.Followed)
    (label : Label.Spelling)
    {tail : Bytes}
    (halts : Scan.Halts Label.isNameOctet tail) :
    Instruction.read (opcode.octets ++ gap.octets ++
        Register.followedOctets front ++ label.octets ++ tail) =
      .code
        { family := Family.ofOpcode opcode.octets, opcode := opcode.octets,
          registers := Register.followedRegisters front,
          operand := .label label.octets } := by
  let kept := tail.rdropWhile Octet.isPadding
  have keptHalts : Scan.Halts Label.isNameOctet kept :=
    halts.of_begins (List.rdropWhile_prefix _ _)
  have keptKept : kept.rdropWhile Octet.isPadding = kept :=
    List.rdropWhile_idempotent _ _
  have lineTrimmed : (opcode.octets ++ (gap.octets ++
      (Register.followedOctets front ++ (label.octets ++ tail)))).trim =
        opcode.octets ++ (gap.octets ++ (Register.followedOctets front ++
          (label.octets ++ kept))) := by
    have whole :=
      (trimmed_append opcode (gap.octets ++ Register.followedOctets front)
        label.trimmed label.octets_ne_nil).trim_append
          (by simp [label.octets_ne_nil]) tail
    simpa only [List.append_assoc] using whole
  have textTrimmed :
      (Register.followedOctets front ++ (label.octets ++ kept)).trim =
        Register.followedOctets front ++ (label.octets ++ kept) := by
    rw [← List.append_assoc, (trimmed_followed front label).trim_append
      (by simp [label.octets_ne_nil]), keptKept]
  have labelTrimmed : (label.octets ++ kept).trim = label.octets ++ kept := by
    rw [label.trimmed.trim_append label.octets_ne_nil, keptKept]
  rcases Register.scanOperands_label front label kept with
    ⟨registers, blanks, operand⟩
  have padding : ∀ octet ∈ blanks.octets, Octet.isPadding octet = true :=
    fun octet member =>
      Octet.isPadding_of_isBlank (blanks.accepted octet member)
  simp only [List.append_assoc]
  rw [read_eq_code opcode lineTrimmed, read_append, textTrimmed, registers,
    operand, Bytes.trim_padding_append padding, labelTrimmed,
    readOperand_label takes label keptHalts]

theorem read_call_line
    {opcode : Scan.Word isOpcodeOctet}
    (unlabelled : (Family.ofOpcode opcode.octets).takesLabel = false)
    (takes : (Family.ofOpcode opcode.octets).takesMethod = true)
    (gap : Scan.Gap)
    (braced : Register.Braced)
    (comma : Register.Separator .comma)
    (callee : MethodRef.Spelling) :
    Instruction.read (opcode.octets ++ gap.octets ++ braced.octets ++
        comma.octets ++ callee.toMethodRef.octets) =
      .code
        { family := Family.ofOpcode opcode.octets, opcode := opcode.octets,
          registers := braced.registers,
          operand := .method callee.toMethodRef } := by
  have filled := callee.octets_ne_nil
  have lineTrimmed :
      (opcode.octets ++ (gap.octets ++ (braced.octets ++ (comma.octets ++
        callee.toMethodRef.octets)))).trim =
          opcode.octets ++ (gap.octets ++ (braced.octets ++
          (comma.octets ++ callee.toMethodRef.octets))) := by
    have whole :=
      (trimmed_append opcode (gap.octets ++ (braced.octets ++ comma.octets))
        callee.trimmed filled).trim_eq
    simpa only [List.append_assoc] using whole
  have textTrimmed :
      (braced.octets ++ (comma.octets ++ callee.toMethodRef.octets)).trim =
        braced.octets ++ (comma.octets ++ callee.toMethodRef.octets) := by
    apply Bytes.Trimmed.trim_eq
    constructor
    · exact Scan.halts_cons (by decide) _
    · rw [← List.append_assoc]
      exact callee.trimmed.ends_append filled _
  have operands : Register.scanOperands (braced.octets ++ (comma.octets ++
      callee.toMethodRef.octets)) =
        (braced.registers, comma.octets ++ callee.toMethodRef.octets) := by
    rw [Register.scanOperands, Register.scanBraced?_append, Option.getD_some]
  have padding : ∀ octet ∈ comma.after.octets, Octet.isPadding octet = true :=
    fun octet member =>
      Octet.isPadding_of_isBlank (comma.after.accepted octet member)
  simp only [List.append_assoc]
  rw [read_eq_code opcode lineTrimmed, read_append, textTrimmed, operands,
    Register.afterComma_append, Bytes.trim_padding_append padding,
    callee.trimmed.trim_eq, readOperand_method unlabelled takes callee]

end Operation

/--
Whatever is written behind an opcode is read back.  A family that takes a label
gets the registers in front of it, in their order, and exactly the label; a
family that calls gets the registers in the braces, or the two ends of the range
there, and exactly the method.
-/
theorem Instruction.operands_survive_spelling
    (opcode : Scan.Word Operation.isOpcodeOctet)
    (gap : Scan.Gap) :
    (Family.ofOpcode opcode.octets ∈
      [Family.branch, .goto, .switch, .fillArrayData] →
      ∀ (front : List Register.Followed) (label : Label.Spelling)
        (tail : Bytes), Scan.Halts Label.isNameOctet tail →
          read (opcode.octets ++ gap.octets ++ Register.followedOctets front ++
              label.octets ++ tail) =
            .code
              { family := Family.ofOpcode opcode.octets,
                opcode := opcode.octets,
                registers := Register.followedRegisters front,
                operand := .label label.octets }) ∧
    (Family.ofOpcode opcode.octets ∈ [Family.invoke, .invokeStatic] →
      ∀ (braced : Register.Braced) (comma : Register.Separator .comma)
        (callee : MethodRef.Spelling),
          read (opcode.octets ++ gap.octets ++ braced.octets ++ comma.octets ++
              callee.toMethodRef.octets) =
            .code
              { family := Family.ofOpcode opcode.octets,
                opcode := opcode.octets, registers := braced.registers,
                operand := .method callee.toMethodRef }) := by
  constructor
  · intro member front label tail halts
    exact Operation.read_label_line (Family.takesLabel_of_mem member) gap
      front label halts
  · intro member braced comma callee
    have takes := Family.takesMethod_of_mem member
    exact Operation.read_call_line takes.1 takes.2 gap braced comma callee

/--
A branch in mixed case, with uneven blanks and another register in the text
behind its label.
-/
def mixedBranch : Bytes :=
  Bytes.ofString "If-nE v1 ,\tP22,:c # v9, :d"

/--
A call on a range whose class ends with a dash, right in front of the arrow.
-/
def dashedCall : Bytes :=
  Bytes.ofString "invoke-virtual/range \x7bv0..p15\x7d , L-->a b(->)V"

theorem Instruction.operands_survive_of_mixedBranch :
    read mixedBranch =
        .code
          { family := .branch, opcode := Bytes.ofString "If-nE",
            registers := [Bytes.ofString "v1", Bytes.ofString "P22"],
            operand := .label (Bytes.ofString ":c") } ∧
      read dashedCall =
        .code
          { family := .invoke, opcode := Bytes.ofString "invoke-virtual/range",
            registers := [Bytes.ofString "v0", Bytes.ofString "p15"],
            operand := .method
              { owner := Bytes.ofString "L-", name := Bytes.ofString "a b",
                parameters := Bytes.ofString "->",
                returnType := Bytes.ofString "V" } } := by
  let space : Scan.Gap := ⟨⟨[0x20], by decide +kernel⟩, by decide +kernel⟩
  let none : Scan.Blanks := ⟨[], by decide +kernel⟩
  let tab : Scan.Blanks := ⟨[0x09], by decide +kernel⟩
  let first : Register.Spelling :=
    ⟨0x76, by decide +kernel, ⟨[0x31], by decide +kernel⟩, by decide +kernel⟩
  let second : Register.Spelling :=
    ⟨0x50, by decide +kernel, ⟨[0x32, 0x32], by
      decide +kernel⟩, by decide +kernel⟩
  let label : Label.Spelling :=
    ⟨⟨⟨[0x63], by decide +kernel⟩, by decide +kernel⟩⟩
  let low : Register.Spelling :=
    ⟨0x76, by decide +kernel, ⟨[0x30], by decide +kernel⟩, by decide +kernel⟩
  let high : Register.Spelling :=
    ⟨0x70, by decide +kernel, ⟨[0x31, 0x35], by
      decide +kernel⟩, by decide +kernel⟩
  let callee : MethodRef.Spelling :=
    { owner := Bytes.ofString "L-", name := Bytes.ofString "a b",
      parameters := Bytes.ofString "->", returnType := Bytes.ofString "V",
      ownerTrimmed := ⟨by decide +kernel, by decide +kernel⟩, ownerFree := by
        decide +kernel,
      nameTrimmed := ⟨by decide +kernel, by decide +kernel⟩, nameFree := by
        decide +kernel,
      parametersFree := by decide +kernel, returnVisible := by decide +kernel }
  constructor
  · exact (operands_survive_spelling
      ⟨⟨Bytes.ofString "If-nE", by decide +kernel⟩, by decide +kernel⟩ space).1
        (by decide +kernel)
      [⟨first, ⟨⟨[0x20], by decide +kernel⟩, tab⟩⟩, ⟨second, ⟨none, none⟩⟩]
        label
      (Bytes.ofString " # v9, :d") (by decide +kernel)
  · exact (operands_survive_spelling
      ⟨⟨Bytes.ofString "invoke-virtual/range", by decide +kernel⟩, by
        decide +kernel⟩ space).2
      (by decide +kernel) (.range none low ⟨none, none⟩ high none)
      ⟨⟨[0x20], by decide +kernel⟩, ⟨[0x20], by decide +kernel⟩⟩ callee

end SmaliFlow
