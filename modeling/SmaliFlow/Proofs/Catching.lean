import SmaliFlow.Instruction.Basic
import SmaliFlow.Proofs.Regions
import SmaliFlow.Proofs.Scanning

/-!
# The spelling of labels and catch directives

A catch directive is a keyword in any mixture of capitals and small letters, the
caught class unless everything is caught, a range of two labels in braces and
the label of the handler.  The types of this module are the ways to write such a
directive down, with every blank they leave a choice for.  The scanner accepts
exactly what is written in one of these ways, and a line is a guard exactly if
it is, up to padding around it.
-/

namespace SmaliFlow

/-! ## Labels -/

namespace Label

/-- A colon and a name. -/
structure Spelling where
  name : Scan.Word isNameOctet

/-- The octets of a label. -/
def Spelling.octets (spelling : Spelling) : Bytes :=
  0x3a :: spelling.name.octets

theorem isPadding_of_isNameOctet
    {octet : UInt8}
    (named : isNameOctet octet = true) :
    Octet.isPadding octet = false := by
  rw [Octet.isPadding_eq_false_iff]
  simp only [isNameOctet, Bool.or_eq_true, beq_iff_eq] at named
  rcases named with (alphanumeric | rfl) | rfl
  · exact Octet.isVisible_of_isAlphanumeric alphanumeric
  · decide
  · decide

theorem isNameOctet_of_isPadding
    {octet : UInt8}
    (padding : Octet.isPadding octet = true) :
    isNameOctet octet = false := by
  by_contra named
  rw [Bool.not_eq_false] at named
  rw [isPadding_of_isNameOctet named] at padding
  cases padding

theorem isNameOctet_of_isBlank
    {octet : UInt8}
    (blank : Octet.isBlank octet = true) :
    isNameOctet octet = false :=
  isNameOctet_of_isPadding (Octet.isPadding_of_isBlank blank)

theorem Spelling.halts
    (spelling : Spelling)
    {accept : UInt8 → Bool}
    (stops : accept 0x3a = false)
    (rest : Bytes) :
    Scan.Halts accept (spelling.octets ++ rest) :=
  Scan.halts_cons stops _

theorem Spelling.octets_ne_nil (spelling : Spelling) : spelling.octets ≠ [] :=
  List.cons_ne_nil _ _

theorem Spelling.trimmed (spelling : Spelling) :
    Bytes.Trimmed spelling.octets where
  starts := Scan.halts_cons (by decide) _
  ends := spelling.name.halts_reverse (fun _ => isPadding_of_isNameOctet) [0x3a]

theorem Spelling.dash_notMem (spelling : Spelling) :
    0x2d ∉ spelling.octets := by
  intro member
  rcases List.mem_cons.mp member with colon | named
  · cases colon
  · cases spelling.name.accepted 0x2d named

theorem scan?_append
    (spelling : Spelling)
    {rest : Bytes}
    (halts : Scan.Halts isNameOctet rest) :
    scan? (spelling.octets ++ rest) = some (spelling.octets, rest) := by
  have colon :
      Scan.word? ":" (spelling.octets ++ rest) =
        some (spelling.name.octets ++ rest) :=
    Scan.word?_eq_some_iff.mpr rfl
  rw [scan?, colon, Option.bind_eq_bind, Option.bind_some,
    Scan.someRun?_append spelling.name halts]
  rfl

theorem scan?_eq_some_iff {input label rest : Bytes} :
    scan? input = some (label, rest) ↔
      Scan.Halts isNameOctet rest ∧
        ∃ spelling : Spelling,
          spelling.octets = label ∧ input = label ++ rest := by
  constructor
  · intro read
    rcases Option.bind_eq_some_iff.mp read with ⟨behind, colon, named⟩
    rcases Option.bind_eq_some_iff.mp named with
      ⟨⟨name, behindName⟩, run, returned⟩
    rcases Scan.someRun?_eq_some_iff.mp run with ⟨halts, word, rfl, rfl⟩
    cases returned
    exact ⟨halts, ⟨word⟩, rfl, (Scan.word?_eq_some_iff.mp colon).symm⟩
  · rintro ⟨halts, spelling, rfl, rfl⟩
    exact scan?_append spelling halts

end Label

namespace CatchDirective

/-! ## Ranges -/

/-- Two labels in braces, with two dots between them. -/
structure RangeSpelling where
  opening : Scan.Blanks
  first : Label.Spelling
  beforeDots : Scan.Gap
  afterDots : Scan.Gap
  last : Label.Spelling
  closing : Scan.Blanks

/-- The octets of a range. -/
def RangeSpelling.octets (range : RangeSpelling) : Bytes :=
  Bytes.ofString "\x7b" ++ range.opening.octets ++ range.first.octets ++
    range.beforeDots.octets ++ Bytes.ofString ".." ++ range.afterDots.octets ++
    range.last.octets ++ range.closing.octets ++ Bytes.ofString "\x7d"

theorem scanRange?_append (range : RangeSpelling) (rest : Bytes) :
    scanRange? (range.octets ++ rest) =
      some ((range.first.octets, range.last.octets), rest) := by
  have firstHalts (behind : Bytes) : Scan.Halts Label.isNameOctet
      (range.beforeDots.octets ++ behind) :=
    range.beforeDots.halts (fun _ => Label.isNameOctet_of_isBlank) behind
  have lastHalts : Scan.Halts Label.isNameOctet
      (range.closing.octets ++ (Bytes.ofString "\x7d" ++ rest)) :=
    (range.closing.halts fun _ => Label.isNameOctet_of_isBlank).append
      (Scan.halts_cons (by decide) _)
  have dotsHalt
      (behind : Bytes) :
        Scan.Halts Octet.isBlank (Bytes.ofString ".." ++ behind) :=
    Scan.halts_cons (by decide) _
  have braceHalts : Scan.Halts Octet.isBlank (Bytes.ofString "\x7d" ++ rest) :=
    Scan.halts_cons (by decide) _
  have labelHalts (label : Label.Spelling) (behind : Bytes) :
      Scan.Halts Octet.isBlank (label.octets ++ behind) :=
    label.halts (by decide) behind
  simp only [scanRange?, RangeSpelling.octets, List.append_assoc,
    Option.bind_eq_bind, Option.bind_some, Option.pure_def, Scan.word?_append,
    Scan.blanks_append _ (labelHalts _ _), Label.scan?_append _ (firstHalts _),
    Scan.someBlanks?_append _ (dotsHalt _),
    Scan.someBlanks?_append _ (labelHalts _ _), Label.scan?_append _ lastHalts,
    Scan.blanks_append _ braceHalts]

theorem scanRange?_eq_some_iff {input first last rest : Bytes} :
    scanRange? input = some ((first, last), rest) ↔
      ∃ range : RangeSpelling,
        range.first.octets = first ∧ range.last.octets = last ∧
        input = range.octets ++ rest := by
  constructor
  · intro read
    simp only [scanRange?, Option.bind_eq_bind, Option.bind_eq_some_iff,
      Option.pure_def, Option.some.injEq, Prod.exists, Prod.mk.injEq] at read
    obtain ⟨behindBrace, brace, foundFirst, behindFirst, firstRead, behindGap,
      beforeDots, behindDots, dots, behindAfter, afterDots, foundLast,
      behindLast, lastRead, behindClosing, closed, ⟨rfl, rfl⟩, rfl⟩ := read
    rcases Scan.exists_blanks behindBrace with ⟨opening, openingSplit⟩
    rcases Label.scan?_eq_some_iff.mp firstRead with
      ⟨-, firstLabel, rfl, firstSplit⟩
    rcases Scan.someBlanks?_eq_some_iff.mp beforeDots with ⟨-, beforeGap, rfl⟩
    rcases Scan.someBlanks?_eq_some_iff.mp afterDots with ⟨-, afterGap, rfl⟩
    rcases Label.scan?_eq_some_iff.mp lastRead with ⟨-, lastLabel, rfl, rfl⟩
    rcases Scan.exists_blanks behindLast with ⟨closing, closingSplit⟩
    rw [Scan.word?_eq_some_iff] at brace dots closed
    refine ⟨⟨opening, firstLabel, beforeGap, afterGap, lastLabel, closing⟩, rfl,
      rfl, ?_⟩
    simp only [RangeSpelling.octets, List.append_assoc]
    rw [← brace, openingSplit, firstSplit, ← dots, closingSplit, ← closed]
  · rintro ⟨range, rfl, rfl, rfl⟩
    exact scanRange?_append range rest

/-! ## What is caught -/

/-- The keyword and, unless everything is caught, the caught class. -/
inductive SubjectSpelling where
  | one (keyword : Bytes) (spells : Scan.SpellsAnyCase ".catch" keyword)
      (before : Scan.Gap) (exception : Scan.Word Octet.isVisible)
        (behind : Scan.Gap)
  | everything (keyword : Bytes) (spells :
    Scan.SpellsAnyCase ".catchall" keyword)
      (behind : Scan.Gap)

namespace SubjectSpelling

/-- The octets up to the range. -/
def octets : SubjectSpelling → Bytes
  | one keyword _ before exception behind =>
      keyword ++ before.octets ++ exception.octets ++ behind.octets
  | everything keyword _ behind => keyword ++ behind.octets

/-- The caught class. -/
def exception : SubjectSpelling → Option Bytes
  | one _ _ _ exception _ => some exception.octets
  | everything _ _ _ => none

end SubjectSpelling

/-- Behind the shorter keyword stands a blank, where the longer one goes on. -/
theorem wordAnyCase?_catchall_eq_none
    {keyword : Bytes}
    (spells : Scan.SpellsAnyCase ".catch" keyword)
    (gap : Scan.Gap)
    (rest : Bytes) :
    Scan.wordAnyCase? ".catchall" (keyword ++ (gap.octets ++ rest)) = none := by
  rw [Option.eq_none_iff_forall_ne_some]
  intro behind read
  rcases Scan.wordAnyCase?_eq_some_iff.mp read with ⟨longer, longerSpells, same⟩
  rcases List.exists_cons_of_ne_nil gap.nonempty with ⟨blank, blanks, gapSplit⟩
  have isBlank : Octet.isBlank blank = true :=
    gap.accepted blank (gapSplit ▸ List.mem_cons_self)
  have goesOn : (Bytes.ofString ".catchall").toLower =
      (Bytes.ofString ".catch").toLower ++ [0x61, 0x6c, 0x6c] := by
    decide
  have lowered := congrArg Bytes.toLower same
  rw [Bytes.toLower_append, spells, gapSplit, Bytes.toLower_append longer,
    longerSpells, goesOn, List.append_assoc] at lowered
  have seventh := (List.cons.inj (List.append_cancel_left lowered)).1
  rcases Octet.eq_of_isBlank isBlank with rfl | rfl <;> cases seventh

theorem scanException?_append
    (subject : SubjectSpelling)
    {rest : Bytes}
    (halts : Scan.Halts Octet.isBlank rest) :
    scanException? (subject.octets ++ rest) =
      some (subject.exception, rest) := by
  cases subject with
  | one keyword spells before exception behind =>
      have exceptionHalts :
          Scan.Halts Octet.isVisible (behind.octets ++ rest) :=
        behind.halts (fun _ => Octet.isVisible_of_isBlank) rest
      have beforeHalts : Scan.Halts Octet.isBlank
          (exception.octets ++ (behind.octets ++ rest)) :=
        exception.halts (fun _ => Octet.isBlank_of_isVisible) _
      simp only [scanException?, SubjectSpelling.octets,
        SubjectSpelling.exception, List.append_assoc,
        wordAnyCase?_catchall_eq_none spells, Option.bind_eq_bind,
        Option.bind_some, Option.pure_def, Scan.wordAnyCase?_append spells,
        Scan.someBlanks?_append before beforeHalts,
        Scan.someRun?_append exception exceptionHalts,
        Scan.someBlanks?_append behind halts]
  | everything keyword spells behind =>
      simp only [scanException?, SubjectSpelling.octets,
        SubjectSpelling.exception, List.append_assoc,
        Scan.wordAnyCase?_append spells, Option.bind_eq_bind, Option.bind_some,
        Option.pure_def, Scan.someBlanks?_append behind halts]

theorem exists_subject_of_scanException?
    {input rest : Bytes}
    {exception : Option Bytes}
    (read : scanException? input = some (exception, rest)) :
    ∃ subject : SubjectSpelling, subject.exception = exception ∧
      input = subject.octets ++ rest := by
  unfold scanException? at read
  split at read
  · rename_i behindKeyword keywordRead
    simp only [Option.bind_eq_bind, Option.bind_eq_some_iff, Option.pure_def,
      Option.some.injEq, Prod.mk.injEq] at read
    obtain ⟨behindGap, gapRead, rfl, rfl⟩ := read
    rcases Scan.wordAnyCase?_eq_some_iff.mp keywordRead with
      ⟨keyword, spells, rfl⟩
    rcases Scan.someBlanks?_eq_some_iff.mp gapRead with ⟨-, behind, rfl⟩
    exact ⟨.everything keyword spells behind, rfl,
      (List.append_assoc _ _ _).symm⟩
  · simp only [Option.bind_eq_bind, Option.bind_eq_some_iff, Option.pure_def,
      Option.some.injEq, Prod.exists, Prod.mk.injEq] at read
    obtain ⟨behindKeyword, keywordRead, behindBefore, beforeRead, caught,
      behindCaught, caughtRead, behindGap, gapRead, rfl, rfl⟩ := read
    rcases Scan.wordAnyCase?_eq_some_iff.mp keywordRead with
      ⟨keyword, spells, rfl⟩
    rcases Scan.someBlanks?_eq_some_iff.mp beforeRead with ⟨-, before, rfl⟩
    rcases Scan.someRun?_eq_some_iff.mp caughtRead with ⟨-, exception, rfl, rfl⟩
    rcases Scan.someBlanks?_eq_some_iff.mp gapRead with ⟨-, behind, rfl⟩
    refine ⟨.one keyword spells before exception behind, rfl, ?_⟩
    simp only [SubjectSpelling.octets, List.append_assoc]

/-! ## Whole directives -/

/--
A directive as it is written: what is caught, the range and the label of the
handler.
-/
structure Spelling where
  subject : SubjectSpelling
  range : RangeSpelling
  gap : Scan.Gap
  handler : Label.Spelling

namespace Spelling

/-- The octets of a directive. -/
def octets (spelling : Spelling) : Bytes :=
  spelling.subject.octets ++ spelling.range.octets ++ spelling.gap.octets ++
    spelling.handler.octets

/-- What a directive says. -/
def directive (spelling : Spelling) : CatchDirective where
  exception := spelling.subject.exception
  first := spelling.range.first.octets
  last := spelling.range.last.octets
  handler := spelling.handler.octets

end Spelling

/--
The input begins with the directive in one of its spellings.  What follows does
not go on with the name of the handler.
-/
def Written (input : Bytes) (directive : CatchDirective) (rest : Bytes) :
    Prop :=
  Scan.Halts Label.isNameOctet rest ∧
    ∃ spelling : Spelling,
      spelling.directive = directive ∧ input = spelling.octets ++ rest

theorem scan?_append
    (spelling : Spelling)
    {rest : Bytes}
    (halts : Scan.Halts Label.isNameOctet rest) :
    scan? (spelling.octets ++ rest) = some (spelling.directive, rest) := by
  have rangeHalts (behind : Bytes) : Scan.Halts Octet.isBlank
      (spelling.range.octets ++ behind) :=
    Scan.halts_cons (by decide) _
  have handlerHalts :
      Scan.Halts Octet.isBlank (spelling.handler.octets ++ rest) :=
    spelling.handler.halts (by decide) rest
  simp only [scan?, Spelling.octets, Spelling.directive, List.append_assoc,
    scanException?_append _ (rangeHalts _), scanRange?_append,
    Option.bind_eq_bind, Option.bind_some, Option.pure_def,
    Scan.someBlanks?_append _ handlerHalts, Label.scan?_append _ halts]

theorem scan?_eq_some_iff_written
    {input rest : Bytes}
    {directive : CatchDirective} :
    scan? input = some (directive, rest) ↔ Written input directive rest := by
  constructor
  · intro read
    simp only [scan?, Option.bind_eq_bind, Option.bind_eq_some_iff,
      Option.pure_def, Option.some.injEq, Prod.exists, Prod.mk.injEq] at read
    obtain ⟨exception, behindSubject, subjectRead, first, last, behindRange,
      rangeRead, behindGap, gapRead, handler, behindHandler, handlerRead, rfl,
      rfl⟩ := read
    rcases exists_subject_of_scanException? subjectRead with ⟨subject, rfl, rfl⟩
    rcases scanRange?_eq_some_iff.mp rangeRead with ⟨range, rfl, rfl, rfl⟩
    rcases Scan.someBlanks?_eq_some_iff.mp gapRead with ⟨-, gap, rfl⟩
    rcases Label.scan?_eq_some_iff.mp handlerRead with
      ⟨halts, handler, rfl, rfl⟩
    refine ⟨halts, ⟨subject, range, gap, handler⟩, rfl, ?_⟩
    simp only [Spelling.octets, List.append_assoc]
  · rintro ⟨halts, spelling, rfl, rfl⟩
    exact scan?_append spelling halts

/-! ## Lines -/

/-- A keyword begins with its dot, which has no other case. -/
theorem exists_dot_of_spells
    {word : String}
    {letters keyword : Bytes}
    (spelled : (Bytes.ofString word).toLower = 0x2e :: letters)
    (spells : Scan.SpellsAnyCase word keyword) :
    ∃ rest, keyword = 0x2e :: rest := by
  have lowered : keyword.map Octet.toLower = 0x2e :: letters :=
    spells.trans spelled
  rcases List.map_eq_cons_iff.mp lowered with ⟨octet, rest, rfl, dot, -⟩
  rw [Octet.eq_dot_of_toLower dot]
  exact ⟨rest, rfl⟩

theorem Spelling.exists_dot (spelling : Spelling) :
    ∃ rest, spelling.octets = 0x2e :: rest := by
  rcases spelling with ⟨subject, range, gap, handler⟩
  cases subject with
  | one keyword spells before exception behind =>
      rcases exists_dot_of_spells rfl spells with ⟨rest, rfl⟩
      exact ⟨_, rfl⟩
  | everything keyword spells behind =>
      rcases exists_dot_of_spells rfl spells with ⟨rest, rfl⟩
      exact ⟨_, rfl⟩

theorem Spelling.trimmed (spelling : Spelling) :
    Bytes.Trimmed spelling.octets where
  starts := by
    rcases spelling.exists_dot with ⟨rest, dot⟩
    rw [dot]
    exact Scan.halts_cons (by decide) rest
  ends := spelling.handler.trimmed.ends_append spelling.handler.octets_ne_nil _

theorem read_eq_readDirective
    {line text : Bytes}
    (trimmed : line.trim = text)
    (dot : text.head? = some 0x2e) :
    Instruction.read line = Instruction.readDirective text := by
  rcases List.head?_eq_some_iff.mp dot with ⟨rest, rfl⟩
  rw [Instruction.read, trimmed]
  rfl

/--
A written directive is read as a guard, whatever padding stands around it.
-/
theorem read_of_written
    {input rest : Bytes}
    {directive : CatchDirective}
    (written : Written input directive rest)
    (before after : Scan.Padding) :
    Instruction.read (before.octets ++ input ++ after.octets) =
      .guard directive := by
  rcases written with ⟨halts, spelling, rfl, rfl⟩
  rcases spelling.exists_dot with ⟨behindDot, dot⟩
  have filled : spelling.octets ≠ [] := by
    rw [dot]
    exact List.cons_ne_nil _ _
  have trimmed :
      Bytes.trim (before.octets ++
        (spelling.octets ++ (rest ++ after.octets))) =
        spelling.octets ++
          (rest ++ after.octets).rdropWhile Octet.isPadding := by
    rw [Bytes.trim_padding_append before.accepted,
      spelling.trimmed.trim_append filled]
  have kept : Scan.Halts Label.isNameOctet
      ((rest ++ after.octets).rdropWhile Octet.isPadding) :=
    (halts.append (after.halts fun _ =>
      Label.isNameOctet_of_isPadding)).of_begins
      (List.rdropWhile_prefix _ _)
  rw [List.append_assoc, List.append_assoc,
    read_eq_readDirective trimmed (by rw [dot]; rfl),
    Instruction.readDirective, scan?_append spelling kept]

/--
A line that begins with a dot and is read as a guard begins with a written
directive.
-/
theorem exists_written_of_kind
    {line : Bytes}
    (dot : line.head? = some 0x2e)
    (guards : (Instruction.read line).kind = .guard) :
    ∃ directive rest, Written line directive rest := by
  rcases List.head?_eq_some_iff.mp dot with ⟨tail, rfl⟩
  have visible : Octet.isPadding 0x2e = false := by decide
  rcases Bytes.exists_eq_trim_append (Scan.halts_cons visible tail) with
    ⟨after, split⟩
  rcases Bytes.exists_trim_cons visible tail with ⟨kept, trimmed⟩
  rw [read_eq_readDirective trimmed rfl, Instruction.readDirective, ← trimmed]
    at guards
  cases read : scan? (Bytes.trim (0x2e :: tail)) with
  | none =>
      rw [read] at guards
      dsimp only at guards
      split at guards <;> cases guards
  | some result =>
      rcases result with ⟨directive, rest⟩
      rcases scan?_eq_some_iff_written.mp read with
        ⟨halts, spelling, rfl, written⟩
      -- The padding behind the line does not go on with the name of the handler
      -- either.
      refine ⟨spelling.directive, rest ++ after.octets, ?_, spelling, rfl, ?_⟩
      · exact halts.append (after.halts fun _ => Label.isNameOctet_of_isPadding)
      · rw [split, written, List.append_assoc]

/--
A directive is read exactly if it is written in one of its spellings, and what
is read is what was written.  So a line that holds such a directive, whatever
padding stands around it, is a guard that carries it, and no other line that
begins with a dot is a guard.
-/
theorem directives_read_exactly :
    (∀ (input rest : Bytes) (directive : CatchDirective),
      scan? input = some (directive, rest) ↔ Written input directive rest) ∧
    (∀ (input rest : Bytes) (directive : CatchDirective),
      Written input directive rest →
      ∀ before after : Scan.Padding,
        Instruction.read (before.octets ++ input ++ after.octets) =
          .guard directive) ∧
    (∀ line : Bytes, line.head? = some 0x2e →
      (∀ directive rest, ¬Written line directive rest) →
        (Instruction.read line).kind ≠ .guard) := by
  refine ⟨fun _ _ _ => scan?_eq_some_iff_written, fun _ _ _ => read_of_written,
    ?_⟩
  intro line dot unwritten guards
  rcases exists_written_of_kind dot guards with ⟨directive, rest, written⟩
  exact unwritten directive rest written

/--
A directive in mixed case whose caught class holds braces, with text behind the
handler.
-/
def bracedClass : Bytes :=
  Bytes.ofString ".CaTch La\x7bb\x7d \t\x7b :s .. :e\x7d\t:h# -> :x"

/-- A directive without blanks around the dots of its range. -/
def denseRange : Bytes :=
  Bytes.ofString ".catchall \x7b:s..:e\x7d :h"

theorem directives_read_exactly_of_bracedClass :
    Written bracedClass
      { exception := some (Bytes.ofString "La\x7bb\x7d"),
        first := Bytes.ofString ":s", last := Bytes.ofString ":e",
        handler := Bytes.ofString ":h" }
      (Bytes.ofString "# -> :x") ∧
    Instruction.read ([0x00, 0x20] ++ bracedClass ++ [0x0c]) =
      .guard
        { exception := some (Bytes.ofString "La\x7bb\x7d"),
          first := Bytes.ofString ":s", last := Bytes.ofString ":e",
          handler := Bytes.ofString ":h" } ∧
    (Instruction.read denseRange).kind ≠ .guard := by
  have written :=
    (directives_read_exactly.1 bracedClass (Bytes.ofString "# -> :x")
      { exception := some (Bytes.ofString "La\x7bb\x7d"),
        first := Bytes.ofString ":s", last := Bytes.ofString ":e",
        handler := Bytes.ofString ":h" }).mp (by decide +kernel)
  have refused : scan? denseRange = none := by decide +kernel
  refine ⟨written, ?_, ?_⟩
  · exact directives_read_exactly.2.1 _ _ _ written
      ⟨[0x00, 0x20], by decide +kernel⟩
      ⟨[0x0c], by decide +kernel⟩
  · apply directives_read_exactly.2.2 denseRange (by decide +kernel)
    intro directive rest other
    have read := (directives_read_exactly.1 _ _ _).mpr other
    rw [refused] at read
    cases read

end CatchDirective

end SmaliFlow
