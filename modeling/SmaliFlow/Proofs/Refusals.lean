import Mathlib.Data.List.Basic
import Mathlib.Data.List.Induction
import SmaliFlow.Proofs.Isolation

/-!
# Why files are refused

A file is refused for one of five causes, and this module says for each of them
what the file looks like.  The first raw line that breaks a limit decides before
anything else does.  If there is none, the lines are gone through for methods:
one that is opened inside of another, or else one that is never closed.  Only a
file whose methods are in order can lack the declaration of its class.

Whether a method is open is a fact about the lines above: a header, and behind
it nothing that opens or closes a method.  One step of the division keeps the
open method and the other lines in agreement with that, and a whole file does so
by induction.
-/

namespace SmaliFlow

/-! ## Limits -/

theorem Settings.admits_concat_iff
    (settings : Settings)
    (front : List Bytes)
    (raw : Bytes) :
    settings.Admits (front ++ [raw]) ↔
      settings.Admits front ∧ raw.length ≤ settings.maxLineLength ∧
        (front ++ [raw]).flatten.length ≤ settings.maxFileSize := by
  constructor
  · intro admits
    have smaller : front.flatten.length ≤ (front ++ [raw]).flatten.length := by
      simp
    exact ⟨⟨fun other member =>
      admits.each other (List.mem_append_left _ member),
      smaller.trans admits.total⟩, admits.each raw (by simp), admits.total⟩
  · rintro ⟨admits, short, small⟩
    refine ⟨?_, small⟩
    intro other member
    rcases List.mem_append.mp member with earlier | last
    · exact admits.each other earlier
    · rw [List.mem_singleton.mp last]
      exact short

/-- Raw lines that break the limits have a first one that does. -/
theorem Settings.exists_first_of_not_admits
    {settings : Settings}
    {rawLines : List Bytes}
    (breaks : ¬settings.Admits rawLines) :
    ∃ front raw back, rawLines = front ++ raw :: back ∧ settings.Admits front ∧
      (settings.maxLineLength < raw.length ∨
        settings.maxFileSize < (front ++ [raw]).flatten.length) := by
  induction rawLines using List.reverseRecOn with
  | nil => exact absurd ⟨by simp, Nat.zero_le _⟩ breaks
  | append_singleton front raw ih =>
      by_cases admits : settings.Admits front
      · refine ⟨front, raw, [], rfl, admits, ?_⟩
        rw [admits_concat_iff] at breaks
        by_contra obeys
        rw [not_or, Nat.not_lt, Nat.not_lt] at obeys
        exact breaks ⟨admits, obeys⟩
      · rcases ih admits with
          ⟨before, first, back, rfl, admitsBefore, breaksFirst⟩
        exact ⟨before, first, back ++ [raw], by simp, admitsBefore, breaksFirst⟩

/-- Reading goes through lines that obey the limits. -/
theorem Line.readFrom_append
    (settings : Settings)
    (path : String)
    (front back : List Bytes)
    (number size : Nat)
    (region : Region)
    (lines : Array Line)
    (each : ∀ raw ∈ front, raw.length ≤ settings.maxLineLength)
    (total : size + front.flatten.length ≤ settings.maxFileSize) :
    readFrom settings path (front ++ back) number size region lines =
      readFrom settings path back (number + front.length)
        (size + front.flatten.length)
        (region.after (front.map Bytes.trim))
        (lines ++ (scan region number front).toArray) := by
  induction front generalizing number size region lines with
  | nil => simp [scan, Region.after]
  | cons raw front ih =>
      rw [List.forall_mem_cons] at each
      rw [List.flatten_cons, List.length_append, ← Nat.add_assoc] at total
      have small : size + raw.length ≤ settings.maxFileSize :=
        Nat.le_of_add_right_le total
      have joined (line : Line) (rest : List Line) :
          lines.push line ++ rest.toArray =
            lines ++ (line :: rest).toArray := by
        simp
      rw [List.cons_append, readFrom, if_neg (Nat.not_lt.mpr each.1),
        if_neg (Nat.not_lt.mpr small), ih _ _ _ _ each.2 total, joined, scan,
        List.map_cons, Region.after_cons, List.flatten_cons, List.length_append,
        List.length_cons, Nat.add_right_comm number, Nat.add_assoc number,
        Nat.add_assoc size]

/-! ## Open methods -/

namespace Outline

/--
The method of the header is open behind the lines: nothing since opens or closes
one.
-/
def OpenBy (header : Line) (front : List Line) : Prop :=
  ∃ above inner, front = above ++ header :: inner ∧ header.opensMethod = true ∧
    ∀ line ∈ inner, line.opensMethod = false ∧ line.closesMethod = false

/-- No method is open behind the lines. -/
def Closed (front : List Line) : Prop :=
  ∀ header, ¬OpenBy header front

/-- Some line opens a method while another one is open. -/
def Nests (lines : List Line) : Prop :=
  ∃ front line back,
    lines = front ++ line :: back ∧ ¬Closed front ∧ line.opensMethod = true

/-- The line is one of those outside every method. -/
def Outside (lines : List Line) (line : Line) : Prop :=
  ∃ front back,
    lines = front ++ line :: back ∧ Closed front ∧ line.opensMethod = false

/-- Some line outside every method declares the class. -/
def Declares (lines : List Line) : Prop :=
  ∃ line, Outside lines line ∧ line.isGiven = false ∧
    line.text.startsWith ".class" = true

/-- Splits of lines with one more at the end. -/
theorem exists_split_concat_iff
    (front : List Line)
    (last : Line)
    (holds : List Line → Line → Prop) :
    (∃ above line below,
      front ++ [last] = above ++ line :: below ∧ holds above line) ↔
      (∃ above line below, front = above ++ line :: below ∧ holds above line) ∨
        holds front last := by
  constructor
  · rintro ⟨above, line, below, split, held⟩
    rcases List.eq_nil_or_concat' below with rfl | ⟨inner, final, rfl⟩
    · rcases List.append_inj' split rfl with ⟨rfl, same⟩
      cases same
      exact Or.inr held
    · rw [← List.cons_append, ← List.append_assoc] at split
      exact Or.inl ⟨above, line, inner, (List.append_inj' split rfl).1, held⟩
  · rintro (⟨above, line, below, rfl, held⟩ | held)
    · exact ⟨above, line, below ++ [last], by simp, held⟩
    · exact ⟨front, last, [], rfl, held⟩

theorem openBy_concat_iff (header : Line) (front : List Line) (line : Line) :
    OpenBy header (front ++ [line]) ↔
      (line.opensMethod = true ∧ header = line) ∨
        (line.opensMethod = false ∧ line.closesMethod = false ∧
          OpenBy header front) := by
  constructor
  · rintro ⟨above, inner, split, opens, silent⟩
    rcases List.eq_nil_or_concat' inner with rfl | ⟨before, final, rfl⟩
    · rcases List.append_inj' split rfl with ⟨-, same⟩
      cases same
      exact Or.inl ⟨opens, rfl⟩
    · rw [← List.cons_append, ← List.append_assoc] at split
      rcases List.append_inj' split rfl with ⟨rfl, same⟩
      cases same
      have last := silent line (by simp)
      exact Or.inr ⟨last.1, last.2, above, before, rfl, opens,
        fun other member => silent other (List.mem_append_left _ member)⟩
  · rintro (⟨opens, rfl⟩ | ⟨lineOpens, lineCloses, above, inner, rfl, opens,
      silent⟩)
    · exact ⟨front, [], rfl, opens, by simp⟩
    · refine ⟨above, inner ++ [line], by simp, opens, ?_⟩
      intro other member
      rcases List.mem_append.mp member with earlier | last
      · exact silent other earlier
      · rw [List.mem_singleton.mp last]
        exact ⟨lineOpens, lineCloses⟩

theorem closed_nil : Closed [] := by
  rintro header ⟨above, inner, split, -⟩
  simp at split

theorem nests_concat_iff (front : List Line) (line : Line) :
    Nests (front ++ [line]) ↔
      Nests front ∨ (¬Closed front ∧ line.opensMethod = true) :=
  exists_split_concat_iff front line fun above line =>
    ¬Closed above ∧ line.opensMethod = true

theorem outside_concat_iff (front : List Line) (last line : Line) :
    Outside (front ++ [last]) line ↔
      Outside front line ∨
        (Closed front ∧ last.opensMethod = false ∧ line = last) := by
  have splits := exists_split_concat_iff front last fun above other =>
    Closed above ∧ other.opensMethod = false ∧ line = other
  constructor
  · rintro ⟨above, below, split, closed, silent⟩
    rcases splits.mp ⟨above, line, below, split, closed, silent, rfl⟩ with
      ⟨before, other, after, inner, held, quiet, rfl⟩ | held
    · exact Or.inl ⟨before, after, inner, held, quiet⟩
    · exact Or.inr held
  · rintro (⟨above, below, split, closed, silent⟩ | held)
    · rcases splits.mpr (Or.inl ⟨above, line, below, split, closed, silent,
        rfl⟩) with
        ⟨before, other, after, inner, held, quiet, rfl⟩
      exact ⟨before, after, inner, held, quiet⟩
    · rcases splits.mpr (Or.inr held) with
        ⟨before, other, after, inner, held, quiet, rfl⟩
      exact ⟨before, after, inner, held, quiet⟩

/-- Lines that nest methods have a first one that does. -/
theorem exists_first_of_nests {lines : List Line} (nests : Nests lines) :
    ∃ front line back header, lines = front ++ line :: back ∧ ¬Nests front ∧
      OpenBy header front ∧ line.opensMethod = true := by
  induction lines using List.reverseRecOn with
  | nil =>
      rcases nests with ⟨front, line, back, split, -⟩
      simp at split
  | append_singleton front line ih =>
      by_cases earlier : Nests front
      · rcases ih earlier with
          ⟨before, first, back, header, rfl, flat, opened, opens⟩
        exact ⟨before, first, back ++ [line], header, by
          simp, flat, opened, opens⟩
      · rcases ((nests_concat_iff front line).mp nests).resolve_left earlier
          with ⟨held, opens⟩
        rw [Closed, not_forall_not] at held
        rcases held with ⟨header, opened⟩
        exact ⟨front, line, [], header, rfl, earlier, opened, opens⟩

/-! ## The division, step by step -/

/--
Behind these lines the division has this open method and these other lines.
-/
structure Reached
    (front : List Line)
    (current : Option OpenMethod)
    (others : List IndexedLine) : Prop where
  opened : ∀ header,
    OpenBy header front → current.map OpenMethod.start = some header.number
  closed : Closed front → current = none
  others : ∀ line, (∃ index, (index, line) ∈ others) ↔ Outside front line

namespace Reached

variable {front : List Line} {others : List IndexedLine} {line : Line}

theorem isClosed (reached : Reached front none others) : Closed front := by
  intro header held
  cases reached.opened header held

theorem not_isClosed
    {opened : OpenMethod}
    (reached : Reached front (some opened) others) :
    ¬Closed front := by
  intro closed
  cases reached.closed closed

theorem header
    (reached : Reached front none others)
    (opens : line.opensMethod = true)
    (entries : List IndexedLine) :
    Reached (front ++ [line]) (some { start := line.number, lines := entries })
      others := by
  refine ⟨?_, ?_, ?_⟩
  · intro header held
    rw [openBy_concat_iff, opens] at held
    rcases held with ⟨-, rfl⟩ | ⟨silent, -⟩
    · rfl
    · cases silent
  · intro closed
    exact absurd ((openBy_concat_iff line front line).mpr (Or.inl ⟨opens, rfl⟩))
      (closed line)
  · intro other
    rw [outside_concat_iff, opens, reached.others]
    simp

theorem other
    (reached : Reached front none others)
    (silent : line.opensMethod = false)
    (index : Nat) :
    Reached (front ++ [line]) none ((index, line) :: others) := by
  have closed := reached.isClosed
  refine ⟨?_, fun _ => rfl, ?_⟩
  · intro header held
    rw [openBy_concat_iff, silent] at held
    rcases held with ⟨opens, -⟩ | ⟨-, -, held⟩
    · cases opens
    · exact absurd held (closed header)
  · intro other
    rw [outside_concat_iff, ← reached.others]
    constructor
    · rintro ⟨place, member⟩
      rcases List.mem_cons.mp member with same | later
      · cases same
        exact Or.inr ⟨closed, silent, rfl⟩
      · exact Or.inl ⟨place, later⟩
    · rintro (⟨place, member⟩ | ⟨-, -, rfl⟩)
      · exact ⟨place, List.mem_cons_of_mem _ member⟩
      · exact ⟨index, List.mem_cons_self⟩

theorem inner
    {opened : OpenMethod}
    (reached : Reached front (some opened) others)
    (silent : line.opensMethod = false)
    (unclosed : line.closesMethod = false)
    (entries : List IndexedLine) :
    Reached (front ++ [line]) (some { opened with lines := entries })
      others := by
  have held := reached.not_isClosed
  refine ⟨?_, ?_, ?_⟩
  · intro header later
    rw [openBy_concat_iff, silent] at later
    rcases later with ⟨opens, -⟩ | ⟨-, -, earlier⟩
    · cases opens
    · exact reached.opened header earlier
  · intro closed
    apply absurd _ held
    intro header earlier
    exact closed header ((openBy_concat_iff header front line).mpr
      (Or.inr ⟨silent, unclosed, earlier⟩))
  · intro other
    rw [outside_concat_iff, reached.others]
    simp [held]

theorem closer
    {opened : OpenMethod}
    (reached : Reached front (some opened) others)
    (closes : line.closesMethod = true) :
    Reached (front ++ [line]) none others := by
  have held := reached.not_isClosed
  refine ⟨?_, fun _ => rfl, ?_⟩
  · intro header later
    rw [openBy_concat_iff, closes, Line.opensMethod_of_closesMethod closes]
      at later
    simp at later
  · intro other
    rw [outside_concat_iff, reached.others]
    simp [held]

/-- One line that nests no method takes the division one step further. -/
theorem step
    {current : Option OpenMethod}
    (reached : Reached front current others)
    (flat : line.opensMethod = true → Closed front)
    (index : Nat)
    (methods : List (List IndexedLine)) :
    ∃ later laterMethods laterOthers,
      Reached (front ++ [line]) later laterOthers ∧
      ∀ rest, divide (line :: rest) index current methods others =
        divide rest (index + 1) later laterMethods laterOthers := by
  cases current with
  | none =>
      cases opens : line.opensMethod with
      | true =>
          refine ⟨_, methods, others, reached.header opens [(index, line)],
            fun rest => ?_⟩
          rw [divide, if_pos opens]
      | false =>
          refine ⟨_, methods, _, reached.other opens index, fun rest => ?_⟩
          rw [divide, if_neg (by simp [opens])]
  | some opened =>
      have silent : line.opensMethod = false := by
        cases opens : line.opensMethod with
        | true => exact absurd (flat opens) reached.not_isClosed
        | false => rfl
      cases directive : line.isLineDirective with
      | true =>
          have unclosed := Line.closesMethod_of_isLineDirective directive
          refine ⟨_, methods, others,
            reached.inner silent unclosed opened.lines, fun rest => ?_⟩
          rw [divide, if_neg (by simp [silent]), if_pos directive]
      | false =>
          cases closes : line.closesMethod with
          | true =>
              refine ⟨_, ((index, line) :: opened.lines).reverse :: methods,
                others, reached.closer closes, fun rest => ?_⟩
              rw [divide, if_neg (by simp [silent]),
                if_neg (by simp [directive]), if_pos closes]
          | false =>
              refine ⟨_, methods, others,
                reached.inner silent closes ((index, line) :: opened.lines),
                fun rest => ?_⟩
              rw [divide, if_neg (by simp [silent]),
                if_neg (by simp [directive]),
                if_neg (by simp [closes])]

end Reached

/-- The division goes through lines that nest no method. -/
theorem exists_reached {front : List Line} (flat : ¬Nests front) :
    ∃ current methods others, Reached front current others ∧
      ∀ rest, divide (front ++ rest) 0 none [] [] =
        divide rest front.length current methods others := by
  induction front using List.reverseRecOn with
  | nil =>
      refine ⟨none, [], [], ⟨?_, fun _ => rfl, ?_⟩, fun rest => rfl⟩
      · intro header held
        exact absurd held (closed_nil header)
      · intro line
        simp [Outside]
  | append_singleton front line ih =>
      rw [nests_concat_iff, not_or, not_and] at flat
      rcases ih flat.1 with ⟨current, methods, others, reached, divided⟩
      have alone : line.opensMethod = true → Closed front := by
        intro opens
        by_contra held
        exact flat.2 held opens
      rcases reached.step alone front.length methods with
        ⟨later, laterMethods, laterOthers, laterReached, step⟩
      refine ⟨later, laterMethods, laterOthers, laterReached, fun rest => ?_⟩
      rw [List.append_assoc, List.singleton_append, divided, step,
        List.length_append]
      rfl

/-- A method inside of another is a fault that names both. -/
theorem ofLines_of_nests
    {front back : List Line}
    {line header : Line}
    (flat : ¬Nests front)
    (held : OpenBy header front)
    (opens : line.opensMethod = true) :
    ofLines (front ++ line :: back).toArray =
      .error (.nestedMethod header.number line.number) := by
  rcases exists_reached flat with ⟨current, methods, others, reached, divided⟩
  rcases Option.map_eq_some_iff.mp (reached.opened header held) with
    ⟨opened, rfl, start⟩
  rw [ofLines, divided, divide, if_pos opens, start]

/-- A method without an end is a fault that names its header. -/
theorem ofLines_of_openBy
    {lines : List Line}
    {header : Line}
    (flat : ¬Nests lines)
    (held : OpenBy header lines) :
    ofLines lines.toArray = .error (.openMethod header.number) := by
  rcases exists_reached flat with ⟨current, methods, others, reached, divided⟩
  rcases Option.map_eq_some_iff.mp (reached.opened header held) with
    ⟨opened, rfl, start⟩
  have whole := divided []
  rw [List.append_nil] at whole
  rw [ofLines, whole, divide, start]

/--
All other lines can be divided, and the other lines are those outside every
method.
-/
theorem exists_ofLines_of_closed
    {lines : List Line}
    (flat : ¬Nests lines)
    (closed : Closed lines) :
    ∃ outline, ofLines lines.toArray = .ok outline ∧
      ∀ line, (∃ index, (index, line) ∈ outline.others) ↔
        Outside lines line := by
  rcases exists_reached flat with ⟨current, methods, others, reached, divided⟩
  cases reached.closed closed
  have whole := divided []
  rw [List.append_nil] at whole
  refine ⟨_, by rw [ofLines, whole, divide], ?_⟩
  intro line
  rw [← reached.others]
  simp

end Outline

/-! ## The declaration of the class -/

namespace Attributes

theorem isSome_declared?_iff (line : Line) :
    (declared? line).isSome = true ↔
      line.knownKind? = none ∧ line.text.startsWith ".class" = true := by
  constructor
  · intro declared
    rw [declared?] at declared
    split at declared
    · cases declared
    · rename_i own
      rw [Bool.or_eq_true, not_or, Option.not_isSome_iff_eq_none] at own
      rw [Option.isSome_map, Option.isSome_iff_exists] at declared
      rcases declared with ⟨declaration, scanned⟩
      rw [scanClass?, Option.bind_eq_bind, Option.bind_eq_some_iff] at scanned
      rcases scanned with ⟨rest, word, -⟩
      refine ⟨own.1, ?_⟩
      rw [Bytes.startsWith, List.isPrefixOf_iff_prefix]
      exact ⟨rest, Scan.word?_eq_some_iff.mp word⟩
  · rintro ⟨own, starts⟩
    exact isSome_declared? own starts

/-- The class is declared exactly if some line declares it. -/
theorem isSome_descriptor_ofLines_iff (entries : List IndexedLine) :
    (ofLines entries).descriptor.isSome = true ↔
      ∃ entry ∈ entries, (declared? entry.2).isSome = true := by
  rw [descriptor_ofLines]
  induction entries using List.reverseRecOn with
  | nil => simp
  | append_singleton entries entry ih =>
      rw [List.map_append, List.foldl_append, List.map_singleton,
        List.foldl_cons, List.foldl_nil, Option.isSome_or, Bool.or_eq_true, ih]
      simp [or_comm, or_and_right, exists_or]

end Attributes

/-! ## Refused files -/

namespace ClassFile

/--
The methods of a file are in order, and a class is declared outside of them.
-/
structure WellFormed (lines : List Line) : Prop where
  flat : ¬Outline.Nests lines
  closed : Outline.Closed lines
  declares : Outline.Declares lines

/-- The cause for which a file with the given raw lines is refused. -/
inductive Refused
    (settings : Settings)
    (path : String)
    (rawLines : List Bytes) :
    (cause : SourceError) → Prop where
  | lineTooLong
      {front back : List Bytes}
      {raw : Bytes}
      (split : rawLines = front ++ raw :: back)
      (admits : settings.Admits front)
      (long : settings.maxLineLength < raw.length) :
      Refused settings path rawLines
        (.lineTooLong path (front.length + 1) settings.maxLineLength)
  | fileTooLarge
      {front back : List Bytes}
      {raw : Bytes}
      (split : rawLines = front ++ raw :: back)
      (admits : settings.Admits front)
      (short : raw.length ≤ settings.maxLineLength)
      (large : settings.maxFileSize < (front ++ [raw]).flatten.length) :
      Refused settings path rawLines (.fileTooLarge path settings.maxFileSize)
  | nestedMethod
      (admits : settings.Admits rawLines)
      {front back : List Line}
      {line header : Line}
      (split : Line.scan .body 1 rawLines = front ++ line :: back)
      (flat : ¬Outline.Nests front)
      (held : Outline.OpenBy header front)
      (opens : line.opensMethod = true) :
      Refused settings path rawLines
        (.malformed (.nestedMethod header.number line.number))
  | openMethod
      (admits : settings.Admits rawLines)
      {header : Line}
      (flat : ¬Outline.Nests (Line.scan .body 1 rawLines))
      (held : Outline.OpenBy header (Line.scan .body 1 rawLines)) :
      Refused settings path rawLines (.malformed (.openMethod header.number))
  | missingClass
      (admits : settings.Admits rawLines)
      (flat : ¬Outline.Nests (Line.scan .body 1 rawLines))
      (closed : Outline.Closed (Line.scan .body 1 rawLines))
      (silent : ¬Outline.Declares (Line.scan .body 1 rawLines)) :
      Refused settings path rawLines (.malformed .missingClass)

section

variable (settings : Settings) (path : String) (label : Nat) (source : Bytes)

/--
A file is well formed within its limits, or there is a cause to refuse it.
-/
theorem wellFormed_or_refused (rawLines : List Bytes) :
    (settings.Admits rawLines ∧ WellFormed (Line.scan .body 1 rawLines)) ∨
      ∃ cause, Refused settings path rawLines cause := by
  by_cases admits : settings.Admits rawLines
  · by_cases flat : ¬Outline.Nests (Line.scan .body 1 rawLines)
    · by_cases closed : Outline.Closed (Line.scan .body 1 rawLines)
      · by_cases declares : Outline.Declares (Line.scan .body 1 rawLines)
        · exact Or.inl ⟨admits, flat, closed, declares⟩
        · exact Or.inr ⟨_, .missingClass admits flat closed declares⟩
      · rw [Outline.Closed, not_forall_not] at closed
        rcases closed with ⟨header, held⟩
        exact Or.inr ⟨_, .openMethod admits flat held⟩
    · rcases Outline.exists_first_of_nests (not_not.mp flat) with
        ⟨front, line, back, header, split, first, held, opens⟩
      exact Or.inr ⟨_, .nestedMethod admits split first held opens⟩
  · rcases Settings.exists_first_of_not_admits admits with
      ⟨front, raw, back, split, admitsFront, breaks⟩
    by_cases long : settings.maxLineLength < raw.length
    · exact Or.inr ⟨_, .lineTooLong split admitsFront long⟩
    · exact Or.inr ⟨_, .fileTooLarge split admitsFront (Nat.not_lt.mp long)
        (breaks.resolve_left long)⟩

variable {settings path source}

theorem readAll_append
    {front back : List Bytes}
    (split : Lines.split source = front ++ back)
    (admits : settings.Admits front) :
    Line.readAll settings path source =
      Line.readFrom settings path back (1 + front.length) front.flatten.length
        (Region.after .body (front.map Bytes.trim))
          (Line.scan .body 1 front).toArray := by
  have total : 0 + front.flatten.length ≤ settings.maxFileSize := by
    rw [Nat.zero_add]
    exact admits.total
  rw [Line.readAll, split,
    Line.readFrom_append _ _ _ _ _ _ _ _ admits.each total, Nat.zero_add,
    Array.empty_append]

theorem outcome_of_readAll_eq_error
    {cause : SourceError}
    (read : Line.readAll settings path source = .error cause) :
    (ClassFile.read settings path label source).outcome = .error cause := by
  rw [ClassFile.read, read]

theorem outcome_of_ofLines_eq_error
    (admits : settings.Admits (Lines.split source))
    {fault : StructureFault}
    (outlined : Outline.ofLines
      (Line.scan .body 1 (Lines.split source)).toArray =
      .error fault) :
    (ClassFile.read settings path label source).outcome =
      .error (.malformed fault) := by
  have read := (Line.readAll_eq_ok_iff settings path source _).mpr ⟨admits, rfl⟩
  simp only [ClassFile.read, read, outlined]

/--
With its methods in order, a file is divided, and it declares a class as its
lines do.
-/
theorem exists_outline_of_closed
    {lines : List Line}
    (fresh : ∀ line ∈ lines, line.reading ≠ .done)
    (flat : ¬Outline.Nests lines)
    (closed : Outline.Closed lines) :
    ∃ outline, Outline.ofLines lines.toArray = .ok outline ∧
      ((Attributes.ofLines outline.others).descriptor.isSome = true ↔
        Outline.Declares lines) := by
  rcases Outline.exists_ofLines_of_closed flat closed with
    ⟨outline, outlined, outside⟩
  refine ⟨outline, outlined, ?_⟩
  rw [Attributes.isSome_descriptor_ofLines_iff]
  have own {line : Line} (place : Outline.Outside lines line) :
      line.knownKind? = none ↔ line.isGiven = false := by
    rcases place with ⟨front, back, rfl, -⟩
    exact Line.knownKind?_eq_none_iff (fresh line (by simp))
  constructor
  · rintro ⟨entry, member, declared⟩
    have place := (outside entry.2).mp ⟨entry.1, member⟩
    rw [Attributes.isSome_declared?_iff, own place] at declared
    exact ⟨entry.2, place, declared⟩
  · rintro ⟨line, place, declares⟩
    rcases (outside line).mpr place with ⟨index, member⟩
    refine ⟨(index, line), member, ?_⟩
    rw [Attributes.isSome_declared?_iff, own place]
    exact declares

theorem outcome_of_refused
    {cause : SourceError}
    (refused : Refused settings path (Lines.split source) cause) :
    (ClassFile.read settings path label source).outcome = .error cause := by
  cases refused with
  | lineTooLong split admits long =>
      apply outcome_of_readAll_eq_error
      rw [readAll_append split admits, Line.readFrom, if_pos long, Nat.add_comm]
  | fileTooLarge split admits short large =>
      apply outcome_of_readAll_eq_error
      rw [List.flatten_append, List.length_append, List.flatten_singleton]
        at large
      rw [readAll_append split admits, Line.readFrom,
        if_neg (Nat.not_lt.mpr short), if_pos large]
  | nestedMethod admits split flat held opens =>
      apply outcome_of_ofLines_eq_error label admits
      rw [split]
      exact Outline.ofLines_of_nests flat held opens
  | openMethod admits flat held =>
      exact outcome_of_ofLines_eq_error label admits
        (Outline.ofLines_of_openBy flat held)
  | missingClass admits flat closed silent =>
      rcases exists_outline_of_closed (fun line => Line.reading_of_mem_scan)
        flat closed with ⟨outline, outlined, declares⟩
      have read :=
        (Line.readAll_eq_ok_iff settings path source _).mpr ⟨admits, rfl⟩
      have absent : (Attributes.ofLines outline.others).descriptor = none := by
        rw [← Option.not_isSome_iff_eq_none, declares]
        exact silent
      simp only [ClassFile.read, read, outlined, ofOutline_eq outlined, absent]

theorem exists_file_of_wellFormed
    (admits : settings.Admits (Lines.split source))
    (wellFormed : WellFormed (Line.scan .body 1 (Lines.split source))) :
    ∃ file, (ClassFile.read settings path label source).outcome = .ok file := by
  rcases exists_outline_of_closed (fun line => Line.reading_of_mem_scan)
    wellFormed.flat
    wellFormed.closed with ⟨outline, outlined, declares⟩
  rcases Option.isSome_iff_exists.mp (declares.mpr wellFormed.declares) with
    ⟨descriptor, described⟩
  exact ⟨_, (read_eq_ok_iff settings path label source _).mpr
    ⟨admits, outline, descriptor, outlined, described, rfl⟩⟩

end

/--
A file is refused for exactly the cause that its raw lines give, and accepted
exactly if it is well formed within the limits.  The lines of a method have no
say in this, as long as the method is closed.
-/
theorem refused_exactly
    (settings : Settings)
    (path : String)
    (label : Nat)
    (source : Bytes) :
    (∀ cause, (ClassFile.read settings path label source).outcome =
      .error cause ↔
      Refused settings path (Lines.split source) cause) ∧
    ((∃ file, (ClassFile.read settings path label source).outcome = .ok file) ↔
      settings.Admits (Lines.split source) ∧
        WellFormed (Line.scan .body 1 (Lines.split source))) ∧
    ∀ (file : ClassFile) (index : Nat) (method : Method) (other : List Bytes)
      (limits : Settings) (place : String) (number : Nat) (replaced : Bytes),
      (ClassFile.read settings path label source).outcome = .ok file →
      file.methods[index]? = some method →
      Outline.IsRun (Outline.entries other) →
      Lines.split replaced = (Lines.split source).take method.first ++
        (other ++ (Lines.split source).drop (method.last + 1)) →
      limits.Admits (Lines.split replaced) →
      ∃ changed,
        (ClassFile.read limits place number replaced).outcome =
          .ok changed := by
  have decided := wellFormed_or_refused settings path (Lines.split source)
  refine ⟨?_, ?_, ?_⟩
  · intro cause
    constructor
    · intro failed
      rcases decided with ⟨admits, wellFormed⟩ | ⟨actual, refused⟩
      · rcases exists_file_of_wellFormed label admits wellFormed with
          ⟨file, read⟩
        rw [read] at failed
        cases failed
      · rw [outcome_of_refused label refused] at failed
        cases failed
        exact refused
    · exact outcome_of_refused label
  · constructor
    · rintro ⟨file, read⟩
      rcases decided with accepted | ⟨actual, refused⟩
      · exact accepted
      · rw [outcome_of_refused label refused] at read
        cases read
    · rintro ⟨admits, wellFormed⟩
      exact exists_file_of_wellFormed label admits wellFormed
  · intro file index method other limits place number replaced read found isRun
      lines admits
    rcases exists_replaced_of_isRun read found isRun lines admits
        place number with
      ⟨-, -, changed, -, changedRead, -⟩
    exact ⟨changed, changedRead⟩

/--
A method whose text is hostile: quoted brackets, a class and a jump that leads
nowhere.
-/
def hostileLines : List String :=
  [".method public d()V", ".annotation build LX;", ".method", ".end method",
    ".end annotation", ".class", "goto :nowhere", ".end method"]

/-- A class in which a method is opened before the one above is closed. -/
def nestedMethods : Bytes :=
  sourceOf (".class LA;" :: hostileLines.dropLast ++ hostileLines)

/--
Closed, the hostile method is accepted; without its end it is a fault of the
file.
-/
theorem refused_exactly_of_hostileLines :
    ∃ file method changed,
      (ClassFile.read Settings.standard "" 0 (threeMethods jumpLines)).outcome =
        .ok file ∧
      file.methods[1]? = some method ∧
      Outline.IsRun (Outline.entries (hostileLines.map Bytes.ofString)) ∧
      (ClassFile.read Settings.standard "" 0
        (threeMethods hostileLines)).outcome =
        .ok changed ∧
      (ClassFile.read Settings.standard "" 0 nestedMethods).outcome =
        .error (.malformed (.nestedMethod 2 9)) ∧
      Refused Settings.standard "" (Lines.split nestedMethods)
        (.malformed (.nestedMethod 2 9)) := by
  have view : (ClassFile.read Settings.standard "" 0
      (threeMethods jumpLines)).outcome.toOption.map
        (fun file => file.methods[1]?.map fun method =>
          (method.first, method.last)) =
      some (some (4, 9)) := by
    decide +kernel
  have changedLines : Lines.split (threeMethods hostileLines) =
      (Lines.split (threeMethods jumpLines)).take 4 ++
        (hostileLines.map Bytes.ofString ++
          (Lines.split (threeMethods jumpLines)).drop (9 + 1)) := by
    decide +kernel
  have isRun :
      Outline.IsRun (Outline.entries (hostileLines.map Bytes.ofString)) := by
    refine .intro ?_ (.step ?_ ?_
      (.step ?_ ?_ (.step ?_ ?_ (.step ?_ ?_ (.step ?_ ?_
      (.step ?_ ?_ (.close ?_)))))))
    all_goals decide +kernel
  have failed : (ClassFile.read Settings.standard "" 0 nestedMethods).outcome =
      .error (.malformed (.nestedMethod 2 9)) :=
    outcome_of_ofLines_eq_error 0 (by decide +kernel) (by decide +kernel)
  rcases exists_ok_of_view view with ⟨file, read, shown⟩
  rcases Option.map_eq_some_iff.mp shown with ⟨method, found, values⟩
  rw [Prod.mk.injEq] at values
  rw [← values.1, ← values.2] at changedLines
  rcases (refused_exactly Settings.standard "" 0 (threeMethods jumpLines)).2.2
    file 1 method _
    Settings.standard "" 0 _ read found isRun changedLines
      (by decide +kernel) with
    ⟨changed, changedRead⟩
  exact ⟨file, method, changed, read, found, isRun, changedRead, failed,
    ((refused_exactly Settings.standard "" 0 nestedMethods).1 _).mp failed⟩

end ClassFile

end SmaliFlow
