import Mathlib.Logic.ExistsUnique
import SmaliFlow.ClassFile.Basic

/-!
# Lines and their terminators

An octet string is a sequence of lines, each with its terminator, and possibly
of a last line without one.  A carriage return and a line feed behind it are one
terminator, so a line that ends with a carriage return alone is not followed by
a line feed.  Under this condition a text is written in exactly one way, and
cutting it gives back the lines.

What a class file means follows from its lines.  So a file that has been written
with line feeds may as well be written with any other terminator.
-/

namespace SmaliFlow.Lines

/-- What may end a line. -/
inductive Terminator where
  | feed
  | carriage
  | carriageFeed
  deriving DecidableEq, Repr

/-- The octets of a terminator. -/
def Terminator.octets : Terminator → Bytes
  | .feed => [0x0a]
  | .carriage => [0x0d]
  | .carriageFeed => [0x0d, 0x0a]

/-- A line with its terminator. -/
@[ext]
structure Ended where
  line : Bytes
  terminator : Terminator
  deriving DecidableEq, Repr

/-- The octets of a line and of its terminator. -/
def Ended.octets (entry : Ended) : Bytes :=
  entry.line ++ entry.terminator.octets

/-- No octet of the line belongs to a terminator. -/
def Unbroken (line : Bytes) : Prop :=
  0x0a ∉ line ∧ 0x0d ∉ line

instance (line : Bytes) : Decidable (Unbroken line) :=
  inferInstanceAs (Decidable (_ ∧ _))

/-- Nothing behind the terminator would be read as a part of it. -/
def Terminator.ClearOf (terminator : Terminator) (bytes : Bytes) : Prop :=
  terminator = .carriage → bytes.head? ≠ some 0x0a

instance (terminator : Terminator) (bytes : Bytes) :
    Decidable (terminator.ClearOf bytes) :=
  inferInstanceAs (Decidable (_ → _))

/-- The octets of ended lines and of a last line that has no terminator. -/
def join (ended : List Ended) (last : Option Bytes) : Bytes :=
  ended.flatMap Ended.octets ++ last.getD []

/--
Lines without terminators inside, such that no carriage return that ends a line
is followed by a line feed; a last line that has no terminator is not empty.
-/
def Joinable : (ended : List Ended) → (last : Option Bytes) → Prop
  | [], last => ∀ line ∈ last, line ≠ [] ∧ Unbroken line
  | entry :: ended, last =>
      Unbroken entry.line ∧ entry.terminator.ClearOf (join ended last) ∧
        Joinable ended last

/-- Whether lines can be joined is decided line by line. -/
def decideJoinable : (ended : List Ended) → (last : Option Bytes) →
    Decidable (Joinable ended last)
  | [], last =>
      inferInstanceAs (Decidable (∀ line ∈ last, line ≠ [] ∧ Unbroken line))
  | entry :: ended, last =>
      have := decideJoinable ended last
      inferInstanceAs (Decidable (Unbroken entry.line ∧
        entry.terminator.ClearOf (join ended last) ∧ Joinable ended last))

instance (ended : List Ended) (last : Option Bytes) :
    Decidable (Joinable ended last) :=
  decideJoinable ended last

/-- A text as the lines it is written in. -/
@[ext]
structure Written where
  ended : List Ended
  last : Option Bytes
  joinable : Joinable ended last

/-- The octets of a written text. -/
def Written.octets (written : Written) : Bytes :=
  join written.ended written.last

/-- The lines of a written text. -/
def Written.lines (written : Written) : List Bytes :=
  written.ended.map Ended.line ++ written.last.toList

theorem join_cons (entry : Ended) (ended : List Ended) (last : Option Bytes) :
    join (entry :: ended) last = entry.octets ++ join ended last := by
  rw [join, List.flatMap_cons, List.append_assoc, join]

theorem unbroken_nil : Unbroken [] := by
  decide

theorem unbroken_cons_iff {octet : UInt8} {line : Bytes} :
    Unbroken (octet :: line) ↔ octet ≠ 0x0a ∧ octet ≠ 0x0d ∧ Unbroken line := by
  simp only [Unbroken, List.mem_cons, not_or, eq_comm (b := octet), ne_eq]
  rw [and_and_and_comm, and_assoc]

theorem Unbroken.not_terminates
    {octet : UInt8}
    {line : Bytes}
    (unbroken : Unbroken (octet :: line)) :
    ¬(octet = 0x0a ∨ octet = 0x0d) := by
  rcases unbroken_cons_iff.mp unbroken with ⟨noFeed, noCarriage, -⟩
  exact not_or.mpr ⟨noFeed, noCarriage⟩

theorem Terminator.clearOf_of_ne
    {terminator : Terminator}
    (pair : terminator ≠ .carriage)
    (bytes : Bytes) :
    terminator.ClearOf bytes :=
  fun carriage => absurd carriage pair

/-! ## Cutting -/

theorem cut_plain
    {octet : UInt8}
    (noFeed : octet ≠ 0x0a)
    (noCarriage : octet ≠ 0x0d)
    (bytes current : Bytes)
    (finished : List Bytes) :
    cut (octet :: bytes) current finished =
      cut bytes (octet :: current) finished := by
  rw [cut]
  · exact noFeed
  · exact fun _ carriage _ => noCarriage carriage
  · exact noCarriage

theorem cut_unbroken
    {line : Bytes}
    (unbroken : Unbroken line)
    (bytes current : Bytes)
    (finished : List Bytes) :
    cut (line ++ bytes) current finished =
      cut bytes (line.reverse ++ current) finished := by
  induction line generalizing current with
  | nil => rfl
  | cons octet line ih =>
      rcases unbroken_cons_iff.mp unbroken with ⟨noFeed, noCarriage, rest⟩
      rw [List.cons_append, cut_plain noFeed noCarriage, ih rest,
        List.reverse_cons, List.append_assoc, List.singleton_append]

theorem cut_terminator
    {terminator : Terminator}
    {bytes : Bytes}
    (clear : terminator.ClearOf bytes)
    (current : Bytes)
    (finished : List Bytes) :
    cut (terminator.octets ++ bytes) current finished =
      cut bytes [] (current.reverse :: finished) := by
  cases terminator with
  | feed => rw [Terminator.octets, List.singleton_append, cut]
  | carriageFeed =>
      rw [Terminator.octets, List.cons_append, List.singleton_append, cut]
  | carriage =>
      rw [Terminator.octets, List.singleton_append, cut]
      rintro rest rfl
      exact clear rfl rfl

theorem cut_ended
    {entry : Ended}
    {bytes : Bytes}
    (unbroken : Unbroken entry.line)
    (clear : entry.terminator.ClearOf bytes)
    (finished : List Bytes) :
    cut (entry.octets ++ bytes) [] finished =
      cut bytes [] (entry.line :: finished) := by
  rw [Ended.octets, List.append_assoc, cut_unbroken unbroken,
    cut_terminator clear, List.append_nil, List.reverse_reverse]

theorem cut_last
    {line : Bytes}
    (filled : line ≠ [])
    (unbroken : Unbroken line)
    (finished : List Bytes) :
    cut line [] finished = line :: finished := by
  have read := cut_unbroken unbroken [] [] finished
  rw [List.append_nil, List.append_nil] at read
  rw [read, cut, List.reverse_reverse]
  exact fun empty => filled (List.reverse_eq_nil_iff.mp empty)

theorem cut_join
    {ended : List Ended}
    {last : Option Bytes}
    (joinable : Joinable ended last)
    (finished : List Bytes) :
    cut (join ended last) [] finished =
      (ended.map Ended.line ++ last.toList).reverse ++ finished := by
  induction ended generalizing finished with
  | nil =>
      cases last with
      | none => rfl
      | some line =>
          rcases joinable line rfl with ⟨filled, unbroken⟩
          exact cut_last filled unbroken finished
  | cons entry ended ih =>
      rcases joinable with ⟨unbroken, clear, rest⟩
      rw [join_cons, cut_ended unbroken clear, ih rest, List.map_cons,
        List.cons_append, List.reverse_cons, List.append_assoc,
        List.singleton_append]

/-- Cutting a written text gives its lines. -/
theorem split_octets (written : Written) :
    split written.octets = written.lines := by
  rw [split, Written.octets, cut_join written.joinable, List.append_nil,
    List.reverse_reverse, Written.lines]

/-! ## One way to write a text -/

/-- The line at the beginning of a text, and its terminator if it has one. -/
theorem exists_first_line (bytes : Bytes) :
    ∃ line rest, bytes = line ++ rest ∧ Unbroken line ∧
      (rest = [] ∨ ∃ (terminator : Terminator) (behind : Bytes),
        rest = terminator.octets ++ behind ∧ terminator.ClearOf behind) := by
  induction bytes with
  | nil => exact ⟨[], [], rfl, unbroken_nil, Or.inl rfl⟩
  | cons octet bytes ih =>
      by_cases feed : octet = 0x0a
      · subst feed
        exact ⟨[], _, rfl, unbroken_nil,
          Or.inr ⟨.feed, bytes, rfl, Terminator.clearOf_of_ne (by decide) _⟩⟩
      · by_cases carriage : octet = 0x0d
        · subst carriage
          by_cases feedBehind : bytes.head? = some 0x0a
          · rcases List.head?_eq_some_iff.mp feedBehind with ⟨behind, rfl⟩
            exact ⟨[], _, rfl, unbroken_nil,
              Or.inr ⟨.carriageFeed, behind, rfl,
                Terminator.clearOf_of_ne (by decide) _⟩⟩
          · exact ⟨[], _, rfl, unbroken_nil,
              Or.inr ⟨.carriage, bytes, rfl, fun _ => feedBehind⟩⟩
        · rcases ih with ⟨line, rest, rfl, unbroken, ending⟩
          exact ⟨octet :: line, rest, rfl,
            unbroken_cons_iff.mpr ⟨feed, carriage, unbroken⟩, ending⟩

theorem Terminator.length_octets_pos (terminator : Terminator) :
    0 < terminator.octets.length := by
  cases terminator <;> decide

/-- A text is written in some way. -/
theorem exists_join_eq (bytes : Bytes) :
    ∃ ended last, Joinable ended last ∧ join ended last = bytes := by
  induction length : bytes.length using Nat.strongRecOn generalizing bytes with
  | ind size ih =>
      -- Taking the first line off with its terminator leaves a shorter text.
      rcases exists_first_line bytes with ⟨line, rest, rfl, unbroken, ending⟩
      rcases ending with rfl | ⟨terminator, behind, rfl, clear⟩
      · by_cases filled : line = []
        · subst filled
          refine ⟨[], none, ?_, rfl⟩
          rintro _ ⟨⟩
        · refine ⟨[], some line, ?_, (List.append_nil line).symm⟩
          rintro _ ⟨⟩
          exact ⟨filled, unbroken⟩
      · have shorter : behind.length < size := by
          have positive := terminator.length_octets_pos
          rw [List.length_append, List.length_append] at length
          omega
        rcases ih _ shorter behind rfl with ⟨ended, last, joinable, joined⟩
        refine ⟨⟨line, terminator⟩ :: ended, last, ⟨unbroken, ?_, joinable⟩, ?_⟩
        · rw [joined]
          exact clear
        · rw [join_cons, joined, Ended.octets, List.append_assoc]

/-- A line ends where the first octet of a terminator stands. -/
theorem eq_of_append_of_unbroken
    {line other rest otherRest : Bytes}
    (unbroken : Unbroken line)
    (otherUnbroken : Unbroken other)
    (halts : ∀ octet ∈ rest.head?, octet = 0x0a ∨ octet = 0x0d)
    (otherHalts : ∀ octet ∈ otherRest.head?, octet = 0x0a ∨ octet = 0x0d)
    (same : line ++ rest = other ++ otherRest) :
    line = other ∧ rest = otherRest := by
  induction line generalizing other with
  | nil =>
      cases other with
      | nil => exact ⟨rfl, same⟩
      | cons octet other =>
          rw [List.nil_append] at same
          subst same
          exact absurd (halts octet rfl) otherUnbroken.not_terminates
  | cons octet line ih =>
      cases other with
      | nil =>
          rw [List.nil_append] at same
          subst same
          exact absurd (otherHalts octet rfl) unbroken.not_terminates
      | cons first other =>
          rcases List.cons.inj same with ⟨rfl, tails⟩
          rcases unbroken_cons_iff.mp unbroken with ⟨-, -, lineUnbroken⟩
          rcases unbroken_cons_iff.mp otherUnbroken with ⟨-, -, tailUnbroken⟩
          rcases ih lineUnbroken tailUnbroken tails with ⟨rfl, rests⟩
          exact ⟨rfl, rests⟩

theorem Terminator.halts (terminator : Terminator) (bytes : Bytes) :
    ∀ octet ∈ (terminator.octets ++ bytes).head?,
      octet = 0x0a ∨ octet = 0x0d := by
  rintro octet begins
  cases terminator with
  | feed => exact Or.inl (Option.some.inj begins).symm
  | carriage | carriageFeed => exact Or.inr (Option.some.inj begins).symm

theorem Terminator.eq_of_append
    {terminator other : Terminator}
    {bytes behind : Bytes}
    (clear : terminator.ClearOf bytes)
    (otherClear : other.ClearOf behind)
    (same : terminator.octets ++ bytes = other.octets ++ behind) :
    terminator = other ∧ bytes = behind := by
  cases terminator <;> cases other <;>
    simp only [octets, List.cons_append, List.nil_append, List.cons.injEq]
      at same
  case feed.feed | carriage.carriage => exact ⟨rfl, same.2⟩
  case carriageFeed.carriageFeed => exact ⟨rfl, same.2.2⟩
  -- A carriage return alone would be followed by the line feed of the pair.
  case carriage.carriageFeed =>
      rw [same.2] at clear
      exact absurd rfl (clear rfl)
  case carriageFeed.carriage =>
      rw [← same.2] at otherClear
      exact absurd rfl (otherClear rfl)
  all_goals exact absurd same.1 (by decide)

theorem Terminator.not_unbroken
    (terminator : Terminator)
    (front behind : Bytes) :
    ¬Unbroken (front ++ (terminator.octets ++ behind)) := by
  rintro ⟨noFeed, noCarriage⟩
  cases terminator with
  | feed => exact noFeed (by simp [octets])
  | carriage | carriageFeed => exact noCarriage (by simp [octets])

theorem Joinable.unbroken_join_nil
    {last : Option Bytes}
    (joinable : Joinable [] last) :
    Unbroken (join [] last) := by
  cases last with
  | none => exact unbroken_nil
  | some line => exact (joinable line rfl).2

theorem join_cons_ne_join_nil
    (entry : Ended)
    (ended : List Ended)
    (last : Option Bytes)
    {otherLast : Option Bytes}
    (joinable : Joinable [] otherLast) :
    join (entry :: ended) last ≠ join [] otherLast := by
  intro same
  have unbroken := joinable.unbroken_join_nil
  rw [← same, join_cons, Ended.octets, List.append_assoc] at unbroken
  exact entry.terminator.not_unbroken _ _ unbroken

theorem last_eq_of_join_nil_eq
    {last otherLast : Option Bytes}
    (joinable : Joinable [] last)
    (otherJoinable : Joinable [] otherLast)
    (same : join [] last = join [] otherLast) :
    last = otherLast := by
  cases last with
  | none =>
      cases otherLast with
      | none => rfl
      | some other => exact absurd same.symm (otherJoinable other rfl).1
  | some line =>
      cases otherLast with
      | none => exact absurd same (joinable line rfl).1
      | some other => exact congrArg some same

/-- A text is written in at most one way. -/
theorem eq_of_join_eq
    {ended others : List Ended}
    {last otherLast : Option Bytes}
    (joinable : Joinable ended last)
    (otherJoinable : Joinable others otherLast)
    (same : join ended last = join others otherLast) :
    ended = others ∧ last = otherLast := by
  induction ended generalizing others with
  | nil =>
      cases others with
      | nil => exact ⟨rfl, last_eq_of_join_nil_eq joinable otherJoinable same⟩
      | cons other others =>
          exact absurd same.symm (join_cons_ne_join_nil _ _ _ joinable)
  | cons entry ended ih =>
      cases others with
      | nil => exact absurd same (join_cons_ne_join_nil _ _ _ otherJoinable)
      | cons other others =>
          rcases joinable with ⟨unbroken, clear, joinable⟩
          rcases otherJoinable with ⟨otherUnbroken, otherClear, otherJoinable⟩
          rw [join_cons, join_cons, Ended.octets, Ended.octets,
            List.append_assoc, List.append_assoc] at same
          rcases eq_of_append_of_unbroken unbroken otherUnbroken
            (entry.terminator.halts _)
            (other.terminator.halts _) same with ⟨lines, rests⟩
          rcases Terminator.eq_of_append clear otherClear rests with
            ⟨terminators, tails⟩
          rcases ih joinable otherJoinable tails with ⟨rfl, lasts⟩
          rw [Ended.ext lines terminators]
          exact ⟨rfl, lasts⟩

theorem existsUnique_written (bytes : Bytes) :
    ∃! written : Written, written.octets = bytes := by
  rcases exists_join_eq bytes with ⟨ended, last, joinable, joined⟩
  refine ⟨⟨ended, last, joinable⟩, joined, ?_⟩
  intro other same
  rcases eq_of_join_eq other.joinable joinable (same.trans joined.symm) with
    ⟨entries, lasts⟩
  exact Written.ext entries lasts

theorem Joinable.unbroken_of_mem
    {ended : List Ended}
    {last : Option Bytes}
    (joinable : Joinable ended last)
    {line : Bytes}
    (member : line ∈ ended.map Ended.line ++ last.toList) :
    Unbroken line := by
  induction ended with
  | nil => exact (joinable line (Option.mem_toList.mp member)).2
  | cons entry ended ih =>
      rcases joinable with ⟨unbroken, -, rest⟩
      rcases List.mem_cons.mp member with rfl | later
      · exact unbroken
      · exact ih rest later

theorem unbroken_of_mem_split
    {source line : Bytes}
    (member : line ∈ split source) :
    Unbroken line := by
  rcases existsUnique_written source with ⟨written, rfl, -⟩
  rw [split_octets] at member
  exact written.joinable.unbroken_of_mem member

/-- Unbroken lines are those of some text. -/
theorem exists_split_eq
    {lines : List Bytes}
    (unbroken : ∀ line ∈ lines, Unbroken line) :
    ∃ source, split source = lines := by
  have pair : Terminator.feed ≠ .carriage := by decide
  have joinable : Joinable (lines.map fun line => ⟨line, .feed⟩) none := by
    induction lines with
    | nil =>
        rintro _ ⟨⟩
    | cons line lines ih =>
        rcases List.forall_mem_cons.mp unbroken with ⟨here, rest⟩
        exact ⟨here, Terminator.clearOf_of_ne pair _, ih rest⟩
  refine ⟨Written.octets ⟨_, none, joinable⟩, ?_⟩
  rw [split_octets, Written.lines, List.map_map, Option.toList_none,
    List.append_nil]
  exact List.map_id lines

/-! ## Other terminators for the same lines -/

/-- The text with another terminator for every line feed. -/
def Terminator.replaceFeeds (terminator : Terminator) (source : Bytes) :
    Bytes :=
  source.flatMap fun octet =>
    if octet = 0x0a then terminator.octets else [octet]

theorem Terminator.replaceFeeds_feed
    (terminator : Terminator)
    (source : Bytes) :
    terminator.replaceFeeds (0x0a :: source) =
      terminator.octets ++ terminator.replaceFeeds source := by
  rw [replaceFeeds, List.flatMap_cons, if_pos rfl, replaceFeeds]

theorem Terminator.replaceFeeds_plain
    (terminator : Terminator)
    {octet : UInt8}
    (noFeed : octet ≠ 0x0a)
    (source : Bytes) :
    terminator.replaceFeeds (octet :: source) =
      octet :: terminator.replaceFeeds source := by
  rw [replaceFeeds, List.flatMap_cons, if_neg noFeed, List.singleton_append,
    replaceFeeds]

/-- Nothing is taken for a part of the terminators that have been put in. -/
theorem Terminator.clearOf_replaceFeeds
    (terminator : Terminator)
    (source : Bytes) :
    terminator.ClearOf (terminator.replaceFeeds source) := by
  rintro rfl
  cases source with
  | nil => exact Option.some_ne_none _ |>.symm
  | cons octet source =>
      by_cases feed : octet = 0x0a
      · subst feed
        rw [replaceFeeds_feed]
        exact fun same => absurd (Option.some.inj same) (by decide)
      · rw [replaceFeeds_plain _ feed]
        exact fun same => feed (Option.some.inj same)

theorem cut_replaceFeeds
    {source : Bytes}
    (free : 0x0d ∉ source)
    (terminator : Terminator)
    (current : Bytes)
    (finished : List Bytes) :
    cut (terminator.replaceFeeds source) current finished =
      cut source current finished := by
  induction source generalizing current finished with
  | nil => rfl
  | cons octet source ih =>
      rw [List.mem_cons, not_or] at free
      by_cases feed : octet = 0x0a
      · subst feed
        rw [Terminator.replaceFeeds_feed,
          cut_terminator (terminator.clearOf_replaceFeeds source), ih free.2,
          cut]
      · rw [Terminator.replaceFeeds_plain _ feed,
          cut_plain feed (Ne.symm free.1), cut_plain feed (Ne.symm free.1),
          ih free.2]

theorem split_replaceFeeds
    {source : Bytes}
    (free : 0x0d ∉ source)
    (terminator : Terminator) :
    split (terminator.replaceFeeds source) = split source := by
  rw [split, cut_replaceFeeds free, split]

/--
Cutting gives back the lines of every written text, every octet string is
written in exactly one way, and a class file that holds no carriage return is
read alike with any other terminator in the place of its line feeds.
-/
theorem split_inverts_join :
    (∀ written : Written, split written.octets = written.lines) ∧
    (∀ bytes : Bytes, ∃! written : Written, written.octets = bytes) ∧
    ∀ (source : Bytes) (terminator : Terminator) (settings : Settings)
      (path : String)
      (label : Nat), 0x0d ∉ source →
      ClassFile.read settings path label (terminator.replaceFeeds source) =
        ClassFile.read settings path label source := by
  refine ⟨split_octets, existsUnique_written, ?_⟩
  intro source terminator settings path label free
  rw [ClassFile.read, Line.readAll, split_replaceFeeds free, ClassFile.read,
    Line.readAll]

/-- All terminators, an empty line, and a last line without one. -/
def mixedLines : Written where
  ended :=
    [⟨Bytes.ofString "a", .carriageFeed⟩, ⟨Bytes.ofString "b", .carriage⟩,
      ⟨Bytes.ofString "c", .feed⟩, ⟨[], .feed⟩]
  last := some (Bytes.ofString "d")
  joinable := by decide +kernel

/--
A pair of octets as terminator leaves the number of the line that is too long.
-/
theorem split_inverts_join_of_mixedLines :
    mixedLines.octets = Bytes.ofString "a\r\nb\rc\n\nd" ∧
    split (Bytes.ofString "a\r\nb\rc\n\nd") =
      ["a", "b", "c", "", "d"].map Bytes.ofString ∧
    (∃! written : Written, written.octets = Bytes.ofString "a\r\nb\rc\n\nd") ∧
    0x0d ∉ Bytes.ofString "\n.class LA;\n" ∧
    (ClassFile.read { Settings.standard with maxLineLength := 9 } "x" 0
      (Terminator.carriageFeed.replaceFeeds
        (Bytes.ofString "\n.class LA;\n"))).outcome =
      .error (.lineTooLong "x" 2 9) := by
  have octets : mixedLines.octets = Bytes.ofString "a\r\nb\rc\n\nd" := by
    decide +kernel
  have lines :
      mixedLines.lines = ["a", "b", "c", "", "d"].map Bytes.ofString := by
    decide +kernel
  have free : 0x0d ∉ Bytes.ofString "\n.class LA;\n" := by decide +kernel
  refine ⟨octets, ?_, split_inverts_join.2.1 _, free, ?_⟩
  · rw [← octets, split_inverts_join.1, lines]
  · have failed : Line.readAll { Settings.standard with maxLineLength := 9 } "x"
        (Bytes.ofString "\n.class LA;\n") = .error (.lineTooLong "x" 2 9) := by
      rfl
    rw [split_inverts_join.2.2 _ _ _ _ _ free, ClassFile.read, failed]

end SmaliFlow.Lines
