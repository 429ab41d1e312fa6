import SmaliFlow.ClassFile.Outline
import SmaliFlow.Proofs.Regions

/-!
# How the lines of a file are divided

A file is a sequence of methods and of other lines.  A method is a run of lines:
its header, lines that neither open nor close a method, and the line that closes
it.  Outside of methods every line is on its own, also one that closes a method
which nobody has opened.

The main statement says that a file has an outline exactly if it is such a
sequence; the methods of the outline are then the runs without the directives
that give line numbers.
-/

namespace SmaliFlow

theorem Line.isLineDirective_of_opensMethod
    {line : Line}
    (opens : line.opensMethod = true) :
    line.isLineDirective = false := by
  rw [opensMethod, Bool.and_eq_true] at opens
  have apart := Bytes.startsWith_eq_false_of_apart opens.2 ".line" (by decide)
  rw [isLineDirective, apart, Bool.and_false]

theorem Line.isLineDirective_of_closesMethod
    {line : Line}
    (closes : line.closesMethod = true) :
    line.isLineDirective = false := by
  rw [closesMethod, Bool.and_eq_true] at closes
  have apart := Bytes.startsWith_eq_false_of_apart closes.2 ".line" (by decide)
  rw [isLineDirective, apart, Bool.and_false]

theorem Line.opensMethod_of_closesMethod
    {line : Line}
    (closes : line.closesMethod = true) :
    line.opensMethod = false := by
  rw [closesMethod, Bool.and_eq_true] at closes
  have apart :=
    Bytes.startsWith_eq_false_of_apart closes.2 ".method" (by decide)
  rw [opensMethod, apart, Bool.and_false]

theorem Line.closesMethod_of_isLineDirective
    {line : Line}
    (directive : line.isLineDirective = true) :
    line.closesMethod = false := by
  cases closes : line.closesMethod with
  | false => rfl
  | true =>
      rw [isLineDirective_of_closesMethod closes] at directive
      cases directive

namespace Outline

/-! ## Lines with their indices -/

/-- Lines with their indices, the first of which is given. -/
def indexed (index : Nat) (lines : List Line) : List IndexedLine :=
  (lines.zipIdx index).map Prod.swap

/--
What remains of consecutive lines without the directives that give line numbers.
-/
def kept (segment : List IndexedLine) : List IndexedLine :=
  segment.filter fun entry => !entry.2.isLineDirective

theorem indexed_cons (index : Nat) (line : Line) (lines : List Line) :
    indexed index (line :: lines) =
      (index, line) :: indexed (index + 1) lines := by
  rw [indexed, List.zipIdx_cons, List.map_cons]
  rfl

theorem kept_cons
    (entry : IndexedLine)
    (segment : List IndexedLine)
    (own : entry.2.isLineDirective = false) :
    kept (entry :: segment) = entry :: kept segment := by
  rw [kept, List.filter_cons_of_pos (by simp [own])]
  rfl

theorem kept_cons_of_isLineDirective
    (entry : IndexedLine)
    (segment : List IndexedLine)
    (directive : entry.2.isLineDirective = true) :
    kept (entry :: segment) = kept segment := by
  rw [kept, List.filter_cons_of_neg (by simp [directive])]
  rfl

theorem kept_append (front back : List IndexedLine) :
    kept (front ++ back) = kept front ++ kept back :=
  List.filter_append front back

theorem eq_cons_of_indexed
    {index : Nat}
    {lines : List Line}
    {entry : IndexedLine}
    {entries : List IndexedLine}
    (same : entry :: entries = indexed index lines) :
    ∃ line rest, lines = line :: rest ∧ entry = (index, line) ∧
      entries = indexed (index + 1) rest := by
  cases lines with
  | nil => cases same
  | cons line rest =>
      rw [indexed_cons] at same
      cases same
      exact ⟨line, rest, rfl, rfl, rfl⟩

theorem getElem?_indexed (index : Nat) (lines : List Line) (position : Nat) :
    (indexed index lines)[position]? =
      lines[position]?.map fun line => (index + position, line) := by
  rw [indexed, List.getElem?_map, List.getElem?_zipIdx, Option.map_map]
  rfl

theorem getElem?_of_mem_indexed
    {lines : List Line}
    {entry : IndexedLine}
    (member : entry ∈ indexed 0 lines) :
    lines[entry.1]? = some entry.2 := by
  rcases List.mem_iff_getElem?.mp member with ⟨position, found⟩
  rw [getElem?_indexed, Option.map_eq_some_iff] at found
  rcases found with ⟨line, found, rfl⟩
  rw [Nat.zero_add]
  exact found

theorem map_fst_indexed (index : Nat) (lines : List Line) :
    (indexed index lines).map Prod.fst = List.range' index lines.length := by
  rw [indexed, List.map_map]
  exact List.zipIdx_map_snd index lines

theorem map_snd_indexed (index : Nat) (lines : List Line) :
    (indexed index lines).map Prod.snd = lines := by
  rw [indexed, List.map_map]
  exact List.zipIdx_map_fst index lines

theorem indexed_append (index : Nat) (front back : List Line) :
    indexed index (front ++ back) =
      indexed index front ++ indexed (index + front.length) back := by
  rw [indexed, List.zipIdx_append, List.map_append]
  rfl

theorem exists_append_of_indexed
    {index : Nat}
    {lines : List Line}
    {front back : List IndexedLine}
    (same : indexed index lines = front ++ back) :
    ∃ linesFront linesBack, lines = linesFront ++ linesBack ∧
      front = indexed index linesFront ∧ front.length = linesFront.length ∧
      back = indexed (index + front.length) linesBack := by
  induction front generalizing index lines with
  | nil => exact ⟨[], lines, rfl, rfl, rfl, same.symm⟩
  | cons entry front ih =>
      rcases eq_cons_of_indexed same.symm with ⟨line, rest, rfl, rfl, sameRest⟩
      rcases ih sameRest.symm with
        ⟨linesFront, linesBack, rfl, equal, length, backEqual⟩
      refine ⟨line :: linesFront, linesBack, rfl, ?_, ?_, ?_⟩
      · rw [indexed_cons, equal]
      · rw [List.length_cons, length, List.length_cons]
      · rw [backEqual, List.length_cons, Nat.add_right_comm, Nat.add_assoc]

/-! ## The grammar of a file -/

/--
Lines that complete a method: the last one closes it, and no earlier one does.
-/
inductive Completes : (tail : List IndexedLine) → Prop where
  | close {closer : IndexedLine} (closes : closer.2.closesMethod = true) :
      Completes [closer]
  | step
      {entry : IndexedLine}
      {tail : List IndexedLine}
      (opens : entry.2.opensMethod = false)
      (closes : entry.2.closesMethod = false)
      (rest : Completes tail) :
      Completes (entry :: tail)

/-- A method with all its lines: a header and the lines that complete it. -/
inductive IsRun : (run : List IndexedLine) → Prop where
  | intro
      {header : IndexedLine}
      {tail : List IndexedLine}
      (opens : header.2.opensMethod = true)
      (completes : Completes tail) :
      IsRun (header :: tail)

/-- The entries are a sequence of methods and of other lines. -/
inductive Divided :
    (entries : List IndexedLine) → (runs : List (List IndexedLine)) →
      (others : List IndexedLine) → Prop where
    | nil : Divided [] [] []
    | other
        {entry : IndexedLine}
        {entries others : List IndexedLine}
        {runs : List (List IndexedLine)}
        (opens : entry.2.opensMethod = false)
        (rest : Divided entries runs others) :
        Divided (entry :: entries) runs (entry :: others)
    | method
        {run entries others : List IndexedLine}
        {runs : List (List IndexedLine)}
        (isRun : IsRun run)
        (rest : Divided entries runs others) :
        Divided (run ++ entries) (run :: runs) others

namespace Completes

variable {tail : List IndexedLine}

theorem opensMethod_of_mem
    (completes : Completes tail)
    {entry : IndexedLine}
    (member : entry ∈ tail) :
    entry.2.opensMethod = false := by
  induction completes with
  | close closes =>
      cases List.mem_singleton.mp member
      exact Line.opensMethod_of_closesMethod closes
  | step opens _ _ ih =>
      rcases List.mem_cons.mp member with rfl | later
      · exact opens
      · exact ih later

/-- The lines end with the one that closes the method, which is no directive. -/
theorem exists_closer (completes : Completes tail) :
    ∃ inner closer, tail = inner ++ [closer] ∧ closer.2.closesMethod = true ∧
      ∀ entry ∈ inner, entry.2.closesMethod = false := by
  induction completes with
  | close closes => exact ⟨[], _, rfl, closes, by simp⟩
  | step _ silent _ ih =>
      rcases ih with ⟨inner, closer, rfl, closes, unclosed⟩
      exact ⟨_ :: inner, closer, rfl, closes,
        List.forall_mem_cons.mpr ⟨silent, unclosed⟩⟩

end Completes

/-- What completes a method ends with the first line that closes it. -/
theorem Completes.eq_of_append
    {tail other back otherBack : List IndexedLine}
    (completes : Completes tail)
    (otherCompletes : Completes other)
    (same : tail ++ back = other ++ otherBack) :
    tail = other ∧ back = otherBack := by
  induction completes generalizing other with
  | close closes =>
      cases otherCompletes with
      | close _ =>
          rw [List.singleton_append, List.singleton_append, List.cons.injEq]
            at same
          exact ⟨congrArg (fun entry => [entry]) same.1, same.2⟩
      | step _ unclosed _ =>
          rw [List.singleton_append, List.cons_append, List.cons.injEq] at same
          rw [← same.1, closes] at unclosed
          cases unclosed
  | step _ unclosed _ ih =>
      cases otherCompletes with
      | close closes =>
          rw [List.singleton_append, List.cons_append, List.cons.injEq] at same
          rw [← same.1, unclosed] at closes
          cases closes
      | step _ _ rest =>
          rw [List.cons_append, List.cons_append, List.cons.injEq] at same
          rcases ih rest same.2 with ⟨rfl, backs⟩
          exact ⟨congrArg (fun entry => entry :: _) same.1, backs⟩

/--
A method has a first line, a last line, and lines that neither open nor close a
method.
-/
theorem IsRun.exists_ends {run : List IndexedLine} (isRun : IsRun run) :
    ∃ header inner closer, run = header :: (inner ++ [closer]) ∧
      header.2.opensMethod = true ∧ closer.2.closesMethod = true ∧
      ∀ entry ∈ inner,
        entry.2.opensMethod = false ∧ entry.2.closesMethod = false := by
  rcases isRun with @⟨header, tail, opens, completes⟩
  rcases completes.exists_closer with ⟨inner, closer, rfl, closes, unclosed⟩
  refine ⟨header, inner, closer, rfl, opens, closes,
    fun entry member => ⟨?_, ?_⟩⟩
  · exact completes.opensMethod_of_mem (List.mem_append_left _ member)
  · exact unclosed entry member

namespace Divided

variable {entries others : List IndexedLine} {runs : List (List IndexedLine)}

/-- The methods stand in the file one behind the other. -/
theorem flatten_sublist (divided : Divided entries runs others) :
    runs.flatten.Sublist entries := by
  induction divided with
  | nil => exact .slnil
  | other _ _ ih => exact ih.cons _
  | method _ _ ih => exact ih.append_left _

/-- Every line is one of a method or one of the others. -/
theorem perm (divided : Divided entries runs others) :
    entries.Perm (runs.flatten ++ others) := by
  induction divided with
  | nil => exact .nil
  | other _ _ ih => exact (ih.cons _).trans List.perm_middle.symm
  | method _ _ ih =>
      rw [List.flatten_cons, List.append_assoc]
      exact ih.append_left _

/-- The lines that open a method are the first lines of the methods. -/
theorem filter_opensMethod (divided : Divided entries runs others) :
    (entries.filter fun entry => entry.2.opensMethod).map some =
      runs.map List.head? := by
  induction divided with
  | nil => rfl
  | other opens _ ih => rw [List.filter_cons_of_neg (by simp [opens]), ih]
  | method isRun _ ih =>
      rcases isRun with ⟨opens, completes⟩
      have silent := List.filter_eq_nil_iff.mpr fun entry member => by
        simpa using completes.opensMethod_of_mem member
      rw [List.filter_append, List.filter_cons_of_pos (by simp [opens]), silent,
        List.map_append, ih]
      rfl

/-- In front of a method and behind it the file is divided in the same way. -/
theorem exists_of_append
    {front back : List (List IndexedLine)}
    {run : List IndexedLine}
    (divided : Divided entries runs others)
    (split : runs = front ++ run :: back) :
    IsRun run ∧ ∃ before after othersBefore othersAfter,
      entries = before ++ (run ++ after) ∧
      others = othersBefore ++ othersAfter ∧
      Divided before front othersBefore ∧ Divided after back othersAfter := by
  induction divided generalizing front with
  | nil => simp at split
  | @other entry entries others runs opens _ ih =>
      rcases ih split with
        ⟨isRun, before, after, othersBefore, othersAfter, rfl, rfl,
          dividedBefore, dividedAfter⟩
      exact ⟨isRun, entry :: before, after, entry :: othersBefore, othersAfter,
        rfl, rfl, .other opens dividedBefore, dividedAfter⟩
  | @method first entries others runs isFirst rest ih =>
      cases front with
      | nil =>
          cases split
          exact ⟨isFirst, [], entries, [], others, rfl, rfl, .nil, rest⟩
      | cons head front =>
          cases split
          rcases ih rfl with
            ⟨isRun, before, after, othersBefore, othersAfter, rfl, rfl,
              dividedBefore, dividedAfter⟩
          refine ⟨isRun, first ++ before, after, othersBefore, othersAfter, ?_,
            rfl, .method isFirst dividedBefore, dividedAfter⟩
          rw [List.append_assoc]

/-- The first line is one of the others, or it opens the first method. -/
theorem cons_cases
    {entry : IndexedLine}
    (divided : Divided (entry :: entries) runs others) :
    (entry.2.opensMethod = false ∧ ∃ later, others = entry :: later ∧
        Divided entries runs later) ∨
      entry.2.opensMethod = true ∧ ∃ tail back later, entries = tail ++ back ∧
        Completes tail ∧ runs = (entry :: tail) :: later ∧
        Divided back later others := by
  generalize same : entry :: entries = whole at divided
  cases divided with
  | nil => cases same
  | other silent rest =>
      cases same
      exact Or.inl ⟨silent, _, rfl, rest⟩
  | method isRun rest =>
      rcases isRun with ⟨opens, completes⟩
      rw [List.cons_append, List.cons.injEq] at same
      rcases same with ⟨rfl, same⟩
      exact Or.inr ⟨opens, _, _, _, same, completes, rfl, rest⟩

/--
Lines that open no method are others wherever they begin outside of methods.
-/
theorem exists_of_silent
    {front back : List IndexedLine}
    (silent : ∀ entry ∈ front, entry.2.opensMethod = false)
    (divided : Divided (front ++ back) runs others) :
    ∃ later, others = front ++ later ∧ Divided back runs later := by
  induction front generalizing others with
  | nil => exact ⟨others, rfl, divided⟩
  | cons entry front ih =>
      rcases List.forall_mem_cons.mp silent with ⟨here, rest⟩
      rcases divided.cons_cases with ⟨-, later, rfl, behind⟩ | ⟨opens, -⟩
      · rcases ih rest behind with ⟨last, rfl, dividedBack⟩
        exact ⟨last, rfl, dividedBack⟩
      · rw [here] at opens
        cases opens

theorem silent_append
    {front back : List IndexedLine}
    (silent : ∀ entry ∈ front, entry.2.opensMethod = false)
    (divided : Divided back runs others) :
    Divided (front ++ back) runs (front ++ others) := by
  induction front with
  | nil => exact divided
  | cons entry front ih =>
      rcases List.forall_mem_cons.mp silent with ⟨here, rest⟩
      exact .other here (ih rest)

/-- A file that begins with divided lines is divided in the same way there. -/
theorem exists_of_divided_front
    {front back frontOthers : List IndexedLine}
    {frontRuns : List (List IndexedLine)}
    (dividedFront : Divided front frontRuns frontOthers)
    (divided : Divided (front ++ back) runs others) :
    ∃ backRuns backOthers, runs = frontRuns ++ backRuns ∧
      others = frontOthers ++ backOthers ∧
        Divided back backRuns backOthers := by
  induction dividedFront generalizing runs others with
  | nil => exact ⟨runs, others, rfl, rfl, divided⟩
  | other silent _ ih =>
      rcases divided.cons_cases with ⟨-, later, rfl, rest⟩ | ⟨opens, -⟩
      · rcases ih rest with ⟨backRuns, backOthers, rfl, rfl, dividedBack⟩
        exact ⟨backRuns, backOthers, rfl, rfl, dividedBack⟩
      · rw [silent] at opens
        cases opens
  | method isRun _ ih =>
      rcases isRun with ⟨opens, completes⟩
      rw [List.cons_append, List.cons_append] at divided
      rcases divided.cons_cases with ⟨silent, -⟩ |
        ⟨-, tail, rest, later, same, otherCompletes, rfl, dividedRest⟩
      · rw [opens] at silent
        cases silent
      · rw [List.append_assoc] at same
        rcases completes.eq_of_append otherCompletes same with ⟨rfl, rfl⟩
        rcases ih dividedRest with ⟨backRuns, backOthers, rfl, rfl, dividedBack⟩
        exact ⟨backRuns, backOthers, rfl, rfl, dividedBack⟩

/--
In front of a line that no method holds, the lines are divided by themselves.
-/
theorem exists_front
    (divided : Divided entries runs others)
    {front back : List IndexedLine}
    {entry : IndexedLine}
    (split : entries = front ++ entry :: back)
    (free : ∀ run ∈ runs, entry ∉ run) :
    ∃ frontRuns frontOthers, Divided front frontRuns frontOthers := by
  induction divided generalizing front with
  | nil => simp at split
  | other silent _ ih =>
      cases front with
      | nil => exact ⟨[], [], .nil⟩
      | cons first front =>
          rw [List.cons_append, List.cons.injEq] at split
          rcases ih split.2 free with ⟨frontRuns, frontOthers, dividedFront⟩
          rw [← split.1]
          exact ⟨frontRuns, _, .other silent dividedFront⟩
  | @method run rest others runs isRun _ ih =>
      rcases List.forall_mem_cons.mp free with ⟨here, later⟩
      have found :
          ∃ inner, front = run ++ inner ∧ rest = inner ++ entry :: back := by
        rcases List.append_eq_append_iff.mp split with
          ⟨inner, behind, equal⟩ | ⟨inner, inside, equal⟩
        · exact ⟨inner, behind, equal⟩
        · cases inner with
          | nil =>
              rw [List.append_nil] at inside
              exact ⟨[], by rw [inside, List.append_nil], equal.symm⟩
          | cons first inner =>
              cases equal
              exact absurd (by simp [inside]) here
      rcases found with ⟨inner, rfl, equal⟩
      rcases ih equal later with ⟨frontRuns, frontOthers, dividedInner⟩
      exact ⟨run :: frontRuns, frontOthers, .method isRun dividedInner⟩

end Divided

/-! ## The outline of a file -/

/-- What dividing gives when a method is open: first the method is completed. -/
def DividedFrom
    (current : Option OpenMethod)
    (entries : List IndexedLine)
    (methods : List (List IndexedLine))
    (others : List IndexedLine) : Prop :=
  match current with
  | none => ∃ runs, Divided entries runs others ∧ methods = runs.map kept
  | some opened => ∃ tail rest runs, entries = tail ++ rest ∧ Completes tail ∧
      Divided rest runs others ∧
      methods = (opened.lines.reverse ++ kept tail) :: runs.map kept

theorem dividedFrom_of_divide
    {lines : List Line}
    {index : Nat}
    {current : Option OpenMethod}
    {methods : List (List IndexedLine)}
    {others : List IndexedLine}
    {outline : Outline}
    (divided : divide lines index current methods others = .ok outline) :
    ∃ laterMethods laterOthers,
      DividedFrom current (indexed index lines) laterMethods laterOthers ∧
      outline.methods = methods.reverse ++ laterMethods ∧
      outline.others = others.reverse ++ laterOthers := by
  fun_induction divide lines index current methods others with
  | case1 index methods others =>
      cases divided
      exact ⟨[], [], ⟨[], .nil, rfl⟩, (List.append_nil _).symm,
        (List.append_nil _).symm⟩
  | case2 => cases divided
  | case3 line lines index methods others opens ih =>
      rcases ih divided with
        ⟨_, laterOthers, ⟨tail, rest, runs, split, completes, later, rfl⟩,
        methodsEq, othersEq⟩
      refine ⟨_, laterOthers, ⟨((index, line) :: tail) :: runs, ?_, rfl⟩, ?_,
        othersEq⟩
      · rw [indexed_cons, split]
        exact .method (.intro opens completes) later
      · rw [methodsEq, List.map_cons,
          kept_cons (index,
            line) tail (Line.isLineDirective_of_opensMethod opens)]
        rfl
  | case4 line lines index methods others silent ih =>
      rcases ih divided with
        ⟨_, laterOthers, ⟨runs, later, rfl⟩, methodsEq, othersEq⟩
      refine ⟨_, (index, line) :: laterOthers, ⟨runs, ?_, rfl⟩, methodsEq, ?_⟩
      · rw [indexed_cons]
        exact .other (by simpa using silent) later
      · rw [othersEq, List.reverse_cons, List.append_assoc,
          List.singleton_append]
  | case5 => cases divided
  | case6 line lines index opened methods others silent directive ih =>
      rcases ih divided with
        ⟨_, laterOthers, ⟨tail, rest, runs, split, completes, later, rfl⟩,
        methodsEq, othersEq⟩
      refine ⟨_, laterOthers,
        ⟨(index, line) :: tail, rest, runs, ?_, ?_, later, rfl⟩, ?_, othersEq⟩
      · rw [indexed_cons, split, List.cons_append]
      · exact .step (by simpa using silent)
          (Line.closesMethod_of_isLineDirective directive)
          completes
      · rw [methodsEq, kept_cons_of_isLineDirective _ _ directive]
  | case7 line lines index opened methods others _ own closes ih =>
      rcases ih divided with
        ⟨_, laterOthers, ⟨runs, later, rfl⟩, methodsEq, othersEq⟩
      refine ⟨_, laterOthers,
        ⟨[(index, line)], _, runs, ?_, .close closes, later, rfl⟩, ?_, othersEq⟩
      · rw [indexed_cons, List.singleton_append]
      · rw [methodsEq, kept_cons _ _ (by simpa using own), List.reverse_cons,
          List.append_assoc, List.singleton_append, List.reverse_cons]
        rfl
  | case8 line lines index opened methods others silent own unclosed ih =>
      rcases ih divided with
        ⟨_, laterOthers, ⟨tail, rest, runs, split, completes, later, rfl⟩,
        methodsEq, othersEq⟩
      refine ⟨_, laterOthers,
        ⟨(index, line) :: tail, rest, runs, ?_, ?_, later, rfl⟩, ?_, othersEq⟩
      · rw [indexed_cons, split, List.cons_append]
      · exact .step (by simpa using silent) (by simpa using unclosed) completes
      · rw [methodsEq, kept_cons _ _ (by simpa using own), List.reverse_cons,
          List.append_assoc, List.singleton_append]

/-- Dividing goes through the lines that complete an open method. -/
theorem divide_of_completes
    {tail : List IndexedLine}
    (completes : Completes tail)
    {entries : List IndexedLine}
    {lines : List Line}
    {index : Nat}
    (same : tail ++ entries = indexed index lines)
    (opened : OpenMethod)
    (methods : List (List IndexedLine))
    (others : List IndexedLine) :
    ∃ rest, entries = indexed (index + tail.length) rest ∧
      divide lines index (some opened) methods others =
        divide rest (index + tail.length) none
          ((opened.lines.reverse ++ kept tail) :: methods) others := by
  induction completes generalizing lines index opened with
  | close closes =>
      rcases eq_cons_of_indexed same with ⟨line, rest, rfl, rfl, sameRest⟩
      have own := Line.isLineDirective_of_closesMethod closes
      refine ⟨rest, sameRest, ?_⟩
      rw [divide, if_neg (by simp [Line.opensMethod_of_closesMethod closes]),
        if_neg (by simp [own]), if_pos closes, kept_cons _ _ own,
        List.reverse_cons]
      rfl
  | @step entry tail opens closes _ ih =>
      rcases eq_cons_of_indexed same with ⟨line, rest, rfl, rfl, sameRest⟩
      have longer :
          index + ((index, line) :: tail).length = index + 1 + tail.length := by
        rw [List.length_cons, Nat.add_right_comm, Nat.add_assoc]
      rw [divide, if_neg (by simp [opens]), longer]
      cases directive : line.isLineDirective with
      | true =>
          rcases ih sameRest opened with ⟨back, sameBack, divided⟩
          refine ⟨back, sameBack, ?_⟩
          rw [if_pos rfl, divided, kept_cons_of_isLineDirective _ _ directive]
      | false =>
          rcases ih sameRest { opened with
            lines := (index, line) :: opened.lines } with
            ⟨back, sameBack, divided⟩
          refine ⟨back, sameBack, ?_⟩
          rw [if_neg (by simp), if_neg (by simp [closes]), divided,
            kept_cons _ _ directive, List.reverse_cons, List.append_assoc,
            List.singleton_append]

theorem divide_of_divided
    {entries laterOthers : List IndexedLine}
    {runs : List (List IndexedLine)}
    (divided : Divided entries runs laterOthers)
    {lines : List Line}
    {index : Nat}
    (same : entries = indexed index lines)
    (methods : List (List IndexedLine))
    (others : List IndexedLine) :
    divide lines index none methods others =
      .ok { methods := methods.reverse ++ runs.map kept
            others := others.reverse ++ laterOthers } := by
  induction divided generalizing lines index methods others with
  | nil =>
      cases lines with
      | nil => simp [divide]
      | cons => cases same
  | other opens _ ih =>
      rcases eq_cons_of_indexed same with ⟨line, rest, rfl, rfl, sameRest⟩
      rw [divide, if_neg (by simp [opens]), ih sameRest, List.reverse_cons,
        List.append_assoc, List.singleton_append]
  | method isRun _ ih =>
      rcases isRun with ⟨opens, completes⟩
      rcases eq_cons_of_indexed same with ⟨line, rest, rfl, rfl, sameRest⟩
      rcases divide_of_completes completes sameRest
        { start := line.number, lines := [(index, line)] } methods others with
        ⟨back, sameBack, dividedBack⟩
      rw [divide, if_pos opens, dividedBack, ih sameBack, List.map_cons,
        kept_cons _ _ (Line.isLineDirective_of_opensMethod opens),
        List.reverse_cons, List.append_assoc, List.singleton_append]
      rfl

/--
A file has an outline exactly if it is a sequence of methods and of other lines.
-/
theorem ofLines_eq_ok_iff (lines : Array Line) (outline : Outline) :
    ofLines lines = .ok outline ↔
      ∃ runs, Divided (indexed 0 lines.toList) runs outline.others ∧
        outline.methods = runs.map kept := by
  constructor
  · intro outlined
    rcases dividedFrom_of_divide outlined with
      ⟨_, _, ⟨runs, divided, rfl⟩, methodsEq, othersEq⟩
    rw [List.reverse_nil, List.nil_append] at methodsEq othersEq
    rw [othersEq]
    exact ⟨runs, divided, methodsEq⟩
  · rintro ⟨runs, divided, methodsEq⟩
    rw [ofLines, divide_of_divided divided rfl [] [], ← methodsEq]
    rfl

end Outline

end SmaliFlow
