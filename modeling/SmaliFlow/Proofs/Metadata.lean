import SmaliFlow.Proofs.Reading
import SmaliFlow.Proofs.Search

/-!
# Metadata brackets

A metadata bracket holds value lines and further brackets.  The grammar of this
module says which lines belong together; it knows string literals, and a word
inside of one opens nothing.  The region scan counts brackets instead, and it
takes every line that holds the nesting word for the beginning of one, string
literal or not.

The main statement compares the two.  The scan never leaves a bracket early, and
it leaves it at its last line exactly if no value line hides the nesting word in
a string literal.  Each line that does is one bracket that the scan never sees
closed.
-/

namespace SmaliFlow.Metadata

/-! ## Words and string literals -/

/--
Whether a word begins somewhere in a text outside every string literal; `quoted`
says whether the text begins inside of one.  A backslash takes the next octet of
a literal with it.
-/
def occursBare (word : Bytes) : (quoted : Bool) → (text : Bytes) → Bool
  | _, [] => false
  | false, octet :: text =>
      word.isPrefixOf (octet :: text) || occursBare word (octet == 0x22) text
  | true, 0x5c :: _ :: text => occursBare word true text
  | true, octet :: text => occursBare word (octet != 0x22) text

/-- The word that opens a bracket inside of another one. -/
def nestingWord : Bytes :=
  Bytes.ofString ".subannotation"

theorem occursBare_append
    {word front back : Bytes}
    (unquoted : ∀ octet ∈ front, octet ≠ 0x22)
    (occurs : occursBare word false back = true) :
    occursBare word false (front ++ back) = true := by
  induction front with
  | nil => exact occurs
  | cons octet front ih =>
      have plain : (octet == 0x22) = false :=
        beq_eq_false_iff_ne.mpr (unquoted octet List.mem_cons_self)
      have rest :=
        ih fun other member =>
          unquoted other (List.mem_cons_of_mem octet member)
      rw [List.cons_append, occursBare, plain, rest, Bool.or_true]

theorem occursBare_of_prefix
    {word text : Bytes}
    (nonempty : word ≠ [])
    (begins : word <+: text) :
    occursBare word false text = true := by
  cases text with
  | nil => exact (nonempty (List.prefix_nil.mp begins)).elim
  | cons octet text =>
      rw [occursBare, List.isPrefixOf_iff_prefix.mpr begins, Bool.true_or]

/-! ## The grammar of brackets -/

/--
Whether a line is a value: no bracket begins with it, none ends, and none is
named in it.
-/
def isValue (text : Bytes) : Bool :=
  !(text.startsWith ".annotation" || text.startsWith ".subannotation" ||
      text.startsWith ".end annotation" ||
        text.startsWith ".end subannotation") &&
    !occursBare nestingWord false text

/--
A line that opens a nested bracket, by itself or as the value of a named
element.
-/
inductive OpensNested : (text : Bytes) → Prop where
  | alone {text : Bytes} (starts : text.startsWith ".subannotation" = true) :
      OpensNested text
  | named
      (name rest : Bytes)
      (nonempty : name ≠ [])
      (visible : ∀ octet ∈ name, Octet.isVisible octet = true)
      (unquoted : ∀ octet ∈ name, octet ≠ 0x22) :
      OpensNested (name ++ Bytes.ofString " = .subannotation" ++ rest)

/-- The lines inside of a bracket. -/
inductive Elements : (texts : List Bytes) → Prop where
  | nil : Elements []
  | value
      {text : Bytes}
      {rest : List Bytes}
      (value : isValue text = true)
      (others : Elements rest) :
      Elements (text :: rest)
  | nested
      {opener closer : Bytes}
      {inner rest : List Bytes}
      (opens : OpensNested opener)
      (elements : Elements inner)
      (closes : closer.startsWith ".end subannotation" = true)
      (others : Elements rest) :
      Elements (opener :: (inner ++ closer :: rest))

/-- The lines of a whole bracket. -/
inductive Balanced : (texts : List Bytes) → Prop where
  | intro
      {opener closer : Bytes}
      {inner : List Bytes}
      (opens : opener.startsWith ".annotation" = true)
      (elements : Elements inner)
      (closes : closer.startsWith ".end annotation" = true) :
      Balanced (opener :: (inner ++ [closer]))

/-- Whether a value line hides the nesting word in a string literal. -/
def hides (text : Bytes) : Bool :=
  isValue text && Search.contains text nestingWord

theorem nestingWord_ne_nil : nestingWord ≠ [] := by
  decide

theorem isValue_of_closes
    {text : Bytes}
    (closes : Region.closesMetadata text = true) :
    isValue text = false := by
  rw [Region.closesMetadata, Bool.or_eq_true] at closes
  rcases closes with whole | nested
  · simp [isValue, whole]
  · simp [isValue, nested]

theorem closesMetadata_of_isValue {text : Bytes} (value : isValue text = true) :
    Region.closesMetadata text = false := by
  cases closes : Region.closesMetadata text with
  | false => rfl
  | true =>
      rw [isValue_of_closes closes] at value
      cases value

/--
Between a visible name and an equals sign stands one space, and nothing else
begins so.
-/
theorem not_prefix_of_named
    {name front back rest : Bytes}
    {octet : UInt8}
    (visible : ∀ octet ∈ name, Octet.isVisible octet = true)
    (frontVisible : ∀ octet ∈ front, Octet.isVisible octet = true)
    (different : octet ≠ 0x3d) :
    ¬front ++ 0x20 :: octet :: back <+: name ++ 0x20 :: 0x3d :: rest := by
  rintro ⟨more, equal⟩
  rw [List.append_assoc, List.cons_append, List.cons_append] at equal
  have blank : ¬Octet.isVisible 0x20 = true := by decide
  have same : front = name := by
    have words := congrArg (List.takeWhile Octet.isVisible) equal
    rwa [List.takeWhile_append_of_pos frontVisible,
      List.takeWhile_append_of_pos visible, List.takeWhile_cons_of_neg blank,
      List.takeWhile_cons_of_neg blank, List.append_nil, List.append_nil]
        at words
  subst same
  rw [List.append_cancel_left_eq, List.cons.injEq, List.cons.injEq] at equal
  exact different equal.2.1

namespace OpensNested

theorem isValue_eq_false {text : Bytes} (opens : OpensNested text) :
    isValue text = false := by
  cases opens with
  | alone starts => simp [isValue, starts]
  | named name rest nonempty visible unquoted =>
      have bare : occursBare nestingWord false
          (name ++ Bytes.ofString " = .subannotation" ++ rest) = true := by
        have split :
            Bytes.ofString " = .subannotation" =
              Bytes.ofString " = " ++ nestingWord := by
          decide
        rw [split, List.append_assoc, List.append_assoc]
        apply occursBare_append unquoted
        apply occursBare_append (by decide +kernel)
        exact occursBare_of_prefix nestingWord_ne_nil
          (List.prefix_append nestingWord rest)
      rw [isValue, bare, Bool.not_true, Bool.and_false]

/-- A name is not taken for the beginning of a closing line. -/
theorem closesMetadata_eq_false {text : Bytes} (opens : OpensNested text) :
    Region.closesMetadata text = false := by
  cases opens with
  | alone starts =>
      rw [Region.closesMetadata,
        Bytes.startsWith_eq_false_of_apart starts ".end annotation" (by decide),
        Bytes.startsWith_eq_false_of_apart starts ".end subannotation"
          (by decide)]
      rfl
  | named name rest nonempty visible unquoted =>
      have split : Bytes.ofString " = .subannotation" =
          0x20 :: 0x3d :: Bytes.ofString " .subannotation" := by
        decide
      have whole : Bytes.ofString ".end annotation" =
          Bytes.ofString ".end" ++ 0x20 :: 0x61 ::
            Bytes.ofString "nnotation" := by
        decide
      have nested : Bytes.ofString ".end subannotation" =
          Bytes.ofString ".end" ++ 0x20 :: 0x73 ::
            Bytes.ofString "ubannotation" := by
        decide
      rw [Bool.eq_false_iff, ne_eq, Region.closesMetadata, Bool.or_eq_true,
        Bytes.startsWith, Bytes.startsWith, List.isPrefixOf_iff_prefix,
        List.isPrefixOf_iff_prefix, whole, nested, split, List.append_assoc,
        List.cons_append, List.cons_append]
      rintro (closes | closes)
      · exact not_prefix_of_named visible (by decide +kernel) (by decide) closes
      · exact not_prefix_of_named visible (by decide +kernel) (by decide) closes

theorem nestsMetadata {text : Bytes} (opens : OpensNested text) :
    Region.nestsMetadata text = true := by
  rw [Region.nestsMetadata, Bool.or_eq_true]
  right
  change Search.contains text nestingWord = true
  rw [Search.contains_iff_infix]
  cases opens with
  | alone starts => exact (List.isPrefixOf_iff_prefix.mp starts).isInfix
  | named name rest nonempty visible unquoted =>
      have split :
          Bytes.ofString " = .subannotation" =
            Bytes.ofString " = " ++ nestingWord := by
        decide
      rw [split]
      exact ⟨name ++ Bytes.ofString " = ", rest, by simp⟩

end OpensNested

/-! ## The scan inside of a bracket -/

theorem next_of_value
    {text : Bytes}
    (value : isValue text = true)
    (depth : Nat) :
    Region.next (.metadata (depth + 1)) text =
      .metadata (depth + 1 + if hides text then 1 else 0) := by
  have stays := closesMetadata_of_isValue value
  have plain : text.startsWith ".annotation" = false := by
    cases starts : text.startsWith ".annotation" with
    | false => rfl
    | true => simp [isValue, starts] at value
  have nests : Region.nestsMetadata text = hides text := by
    rw [Region.nestsMetadata, plain, Bool.false_or, hides, value, Bool.true_and]
    rfl
  rw [Region.next, stays, nests]
  cases hides text <;> rfl

theorem next_of_opensNested
    {text : Bytes}
    (opens : OpensNested text)
    (depth : Nat) :
    Region.next (.metadata (depth + 1)) text = .metadata (depth + 2) := by
  rw [Region.next, opens.closesMetadata_eq_false, opens.nestsMetadata]
  rfl

theorem next_of_closesMetadata
    {text : Bytes}
    (closes : Region.closesMetadata text = true)
    (depth : Nat) :
    Region.next (.metadata (depth + 1)) text = Region.ofDepth depth := by
  rw [Region.next, closes, if_pos rfl, Nat.add_sub_cancel]

theorem ofDepth_succ (depth : Nat) :
    Region.ofDepth (depth + 1) = .metadata (depth + 1) :=
  rfl

theorem hides_of_isValue_eq_false
    {text : Bytes}
    (other : isValue text = false) :
    hides text = false := by
  rw [hides, other, Bool.false_and]

theorem closesMetadata_of_nested
    {text : Bytes}
    (closes : text.startsWith ".end subannotation" = true) :
    Region.closesMetadata text = true := by
  rw [Region.closesMetadata, closes, Bool.or_true]

/--
The scan comes back to its depth, plus one for every line that hides the nesting
word.
-/
theorem Elements.after_eq
    {texts : List Bytes}
    (elements : Elements texts)
    (depth : Nat) :
    Region.after (.metadata (depth + 1)) texts =
      .metadata (depth + 1 + texts.countP hides) := by
  induction elements generalizing depth with
  | nil => rfl
  | @value text rest value others ih =>
      rw [Region.after_cons, next_of_value value, Nat.add_right_comm, ih,
        List.countP_cons]
      congr 1
      omega
  | @nested opener closer inner rest opens elements closes others innerIh ih =>
      have closesBoth := closesMetadata_of_nested closes
      have openerPlain := hides_of_isValue_eq_false opens.isValue_eq_false
      have closerPlain :=
        hides_of_isValue_eq_false (isValue_of_closes closesBoth)
      have counted : (opener :: (inner ++ closer :: rest)).countP hides =
          inner.countP hides + rest.countP hides := by
        simp [List.countP_append, openerPlain, closerPlain]
      rw [Region.after_cons, next_of_opensNested opens, Region.after_append,
        innerIh (depth + 1), Region.after_cons, Nat.add_right_comm,
        next_of_closesMetadata closesBoth, Nat.add_right_comm, ofDepth_succ, ih,
        counted]
      congr 1
      omega

/-- The scan does not come below its depth on the way. -/
theorem Elements.exists_depth
    {texts : List Bytes}
    (elements : Elements texts)
    (depth : Nat)
    {front back : List Bytes}
    (split : texts = front ++ back) :
    ∃ more, Region.after (.metadata (depth + 1)) front =
      .metadata (depth + 1 + more) := by
  induction elements generalizing depth front back with
  | nil =>
      rw [(List.append_eq_nil_iff.mp split.symm).1]
      exact ⟨0, rfl⟩
  | @value text rest value others ih =>
      cases front with
      | nil => exact ⟨0, rfl⟩
      | cons first front =>
          cases split
          rcases ih (depth + if hides text then 1 else 0) rfl with ⟨more, equal⟩
          rw [Region.after_cons, next_of_value value, Nat.add_right_comm, equal]
          exact ⟨(if hides text then 1 else 0) + more,
            congrArg Region.metadata (by omega)⟩
  | @nested opener closer inner rest opens elements closes others innerIh ih =>
      have closesBoth := closesMetadata_of_nested closes
      cases front with
      | nil => exact ⟨0, rfl⟩
      | cons first front =>
          rw [List.cons_append, List.cons.injEq] at split
          rcases split with ⟨rfl, split⟩
          rw [Region.after_cons, next_of_opensNested opens]
          -- The beginning ends inside the nested bracket, before its closing
          -- line, or behind it.
          rcases List.append_eq_append_iff.mp split with
            ⟨later, rfl, behind⟩ | ⟨later, inside, -⟩
          · rw [Region.after_append, elements.after_eq (depth + 1)]
            cases later with
            | nil =>
                exact ⟨1 + inner.countP hides,
                  congrArg Region.metadata (by omega)⟩
            | cons last later =>
                cases behind
                rcases ih (depth + inner.countP hides) rfl with ⟨more, equal⟩
                rw [Region.after_cons, Nat.add_right_comm,
                  next_of_closesMetadata closesBoth, Nat.add_right_comm,
                  ofDepth_succ, equal]
                exact ⟨inner.countP hides + more,
                  congrArg Region.metadata (by omega)⟩
          · rcases innerIh (depth + 1) inside with ⟨more, equal⟩
            rw [equal]
            exact ⟨1 + more, congrArg Region.metadata (by omega)⟩

/-! ## Whole brackets -/

theorem next_body_of_opens
    {text : Bytes}
    (opens : text.startsWith ".annotation" = true) :
    Region.next .body text = .metadata 1 := by
  rw [Region.next, Region.opened, opens, Bool.true_or, if_pos rfl]

/--
Behind a bracket the scan is as deep as there are lines that hide the nesting
word.
-/
theorem Balanced.after_eq {texts : List Bytes} (balanced : Balanced texts) :
    Region.after .body texts = Region.ofDepth (texts.countP hides) := by
  rcases balanced with @⟨opener, closer, inner, opens, elements, closes⟩
  have closesBoth : Region.closesMetadata closer = true := by
    rw [Region.closesMetadata, closes, Bool.true_or]
  have openerPlain : hides opener = false := by
    simp [hides, isValue, opens]
  have closerPlain := hides_of_isValue_eq_false (isValue_of_closes closesBoth)
  have counted :
      (opener :: (inner ++ [closer])).countP hides = inner.countP hides := by
    simp [List.countP_append, openerPlain, closerPlain]
  rw [Region.after_cons, next_body_of_opens opens, Region.after_append,
    elements.after_eq 0, counted, Nat.zero_add, Nat.add_comm]
  exact next_of_closesMetadata closesBoth _

/--
Between the first and the last line of a bracket the scan is inside of it.
-/
theorem Balanced.exists_depth
    {texts : List Bytes}
    (balanced : Balanced texts)
    {front back : List Bytes}
    (split : texts = front ++ back)
    (begun : front ≠ [])
    (unfinished : back ≠ []) :
    ∃ depth, Region.after .body front = .metadata (depth + 1) := by
  rcases balanced with @⟨opener, closer, inner, opens, elements, closes⟩
  cases front with
  | nil => exact (begun rfl).elim
  | cons first front =>
      rw [List.cons_append, List.cons.injEq] at split
      rcases split with ⟨rfl, split⟩
      rw [Region.after_cons, next_body_of_opens opens]
      rcases List.append_eq_append_iff.mp split with
        ⟨later, rfl, behind⟩ | ⟨later, inside, -⟩
      · cases later with
        | nil =>
            rw [List.append_nil, elements.after_eq 0]
            exact ⟨inner.countP hides, congrArg Region.metadata (by omega)⟩
        | cons last later =>
            rw [List.cons_append, List.cons.injEq] at behind
            exact (unfinished (List.append_eq_nil_iff.mp behind.2.symm).2).elim
      · rcases elements.exists_depth 0 inside with ⟨more, equal⟩
        rw [equal]
        exact ⟨more, congrArg Region.metadata (by omega)⟩

theorem countP_hides_eq_zero_iff (texts : List Bytes) :
    texts.countP hides = 0 ↔
      ∀ text ∈ texts, isValue text = true → ¬nestingWord <:+: text := by
  simp only [List.countP_eq_zero, hides, Bool.and_eq_true,
    Search.contains_iff_infix, not_and]

theorem ofDepth_eq_body_iff (depth : Nat) :
    Region.ofDepth depth = .body ↔ depth = 0 := by
  cases depth with
  | zero => exact ⟨fun _ => rfl, fun _ => rfl⟩
  | succ depth =>
      rw [ofDepth_succ]
      exact ⟨nofun, nofun⟩

/-- A line behind the first one of a bracket is decided to be metadata. -/
theorem Balanced.reading_of_mem_tail
    {within after : List Line}
    (balanced : Balanced (within.map Line.text))
    (regional : Line.Regional .body (within ++ after))
    {line : Line}
    (member : line ∈ within.tail) :
    line.reading = .given .metadata := by
  cases within with
  | nil => cases member
  | cons first rest =>
      rcases List.append_of_mem member with ⟨front, back, split⟩
      rw [List.tail_cons] at split
      subst split
      have parts : (first :: (front ++ line :: back)).map Line.text =
          (first :: front).map Line.text ++ (line :: back).map Line.text := by
        rw [← List.map_append, List.cons_append]
      rcases balanced.exists_depth parts (by simp) (by simp) with
        ⟨depth, inside⟩
      have regroup : first :: (front ++ line :: back) ++ after =
          (first :: front) ++ (line :: (back ++ after)) := by
        simp
      rw [regroup] at regional
      have here := regional.back
      rw [inside] at here
      exact here.1

/--
A bracket that begins outside every region decides all its lines behind the
first to be metadata and is not left before its last line.  It is left there, so
that the next line is not swallowed, exactly if no value line of it hides the
nesting word in a string literal.
-/
theorem balanced_left_iff
    {settings : Settings}
    {path : String}
    {source : Bytes}
    {lines : Array Line}
    (read : Line.readAll settings path source = .ok lines)
    {before within after : List Line}
    (split : lines.toList = before ++ (within ++ after))
    (balanced : Balanced (within.map Line.text))
    (outside : Region.after .body (before.map Line.text) = .body) :
    (∀ line ∈ within.head?, line.isGiven = false) ∧
    (∀ line ∈ within.tail, line.reading = .given .metadata) ∧
    (∀ front back, within = front ++ back → front ≠ [] → back ≠ [] →
      Region.after .body ((before ++ front).map Line.text) ≠ .body) ∧
    ((Region.after .body ((before ++ within).map Line.text) = .body ∧
        ∀ line ∈ after.head?, line.isGiven = false) ↔
      ∀ line ∈ within,
      isValue line.text = true → ¬nestingWord <:+: line.text) := by
  have regional := Line.regional_readAll read
  rw [split] at regional
  have here := regional.back
  rw [outside] at here
  have own {line : Line} {rest : List Line}
      (body : Line.Regional .body (line :: rest)) :
      line.isGiven = false := by
    rw [Line.isGiven, body.1]
    rfl
  refine ⟨?_, fun line => balanced.reading_of_mem_tail here, ?_, ?_⟩
  · intro line first
    rcases List.head?_eq_some_iff.mp first with ⟨rest, rfl⟩
    exact own here
  · rintro front back rfl begun unfinished
    rw [List.map_append] at balanced
    rcases balanced.exists_depth rfl (by simpa using begun)
        (by simpa using unfinished) with
      ⟨depth, inside⟩
    rw [List.map_append, Region.after_append, outside, inside]
    intro body
    cases body
  · rw [List.map_append, Region.after_append, outside, balanced.after_eq,
      ofDepth_eq_body_iff, countP_hides_eq_zero_iff, List.forall_mem_map]
    constructor
    · rintro ⟨clean, -⟩
      exact clean
    · intro clean
      refine ⟨clean, ?_⟩
      intro line first
      rcases List.head?_eq_some_iff.mp first with ⟨rest, rfl⟩
      have behind := here.back
      have none :=
        (countP_hides_eq_zero_iff _).mpr (List.forall_mem_map.mpr clean)
      rw [balanced.after_eq, none] at behind
      exact own behind

/-- Lines with the given texts, up to which the regions decide them or not. -/
theorem exists_lines_of_view
    {source : Bytes}
    {before within after : List (Bytes × Bool)}
    (viewed : (Line.readAll Settings.standard "" source).toOption.map
      (fun lines => lines.toList.map fun line => (line.text, line.isGiven)) =
        some (before ++ (within ++ after))) :
    ∃ lines front middle back,
      Line.readAll Settings.standard "" source = .ok lines ∧
      lines.toList = front ++ (middle ++ back) ∧
      (front.map fun line => (line.text, line.isGiven)) = before ∧
      (middle.map fun line => (line.text, line.isGiven)) = within ∧
      (back.map fun line => (line.text, line.isGiven)) = after := by
  rcases exists_ok_of_view viewed with ⟨lines, read, equal⟩
  rcases List.map_eq_append_iff.mp equal with
    ⟨front, rest, split, frontEqual, restEqual⟩
  rcases List.map_eq_append_iff.mp restEqual with
    ⟨middle, back, rfl, middleEqual, backEqual⟩
  exact ⟨lines, front, middle, back, read, split, frontEqual, middleEqual,
    backEqual⟩

theorem map_text_of_view
    {lines : List Line}
    {view : List (Bytes × Bool)}
    (viewed : (lines.map fun line => (line.text, line.isGiven)) = view) :
    lines.map Line.text = view.map Prod.fst := by
  rw [← viewed, List.map_map]
  rfl

/--
A class with a bracket inside of another one, as the value of a named element.
-/
def nestedValue : Bytes :=
  Bytes.ofString <|
    ".class public LA;\n.annotation build LX;\nvalue = .subannotation LY;\n" ++
      "name = \"a \\\" b\"\n.end subannotation\n.end annotation\n.field private f:I\n"

theorem balanced_nestedValue :
    Balanced
      ([".annotation build LX;", "value = .subannotation LY;",
        "name = \"a \\\" b\"",
        ".end subannotation", ".end annotation"].map Bytes.ofString) := by
  have opener : Bytes.ofString "value = .subannotation LY;" =
      Bytes.ofString "value" ++ Bytes.ofString " = .subannotation" ++
        Bytes.ofString " LY;" := by
    decide
  have opens : OpensNested (Bytes.ofString "value = .subannotation LY;") := by
    rw [opener]
    exact .named _ _ (by decide) (by decide +kernel) (by decide +kernel)
  have inner : Elements [Bytes.ofString "name = \"a \\\" b\""] :=
    .value (by decide) .nil
  have closes :
      (Bytes.ofString ".end subannotation").startsWith ".end subannotation" =
        true := by
    decide
  exact .intro (by decide) (.nested opens inner closes .nil) (by decide)

/-- The field behind this bracket is not swallowed. -/
theorem balanced_left_of_nestedValue :
    ∃ lines before within after,
      Line.readAll Settings.standard "" nestedValue = .ok lines ∧
      lines.toList = before ++ (within ++ after) ∧
      Balanced (within.map Line.text) ∧
      within.length = 5 ∧ Region.after .body (before.map Line.text) = .body ∧
      Region.after .body ((before ++ within).map Line.text) = .body ∧
      ∃ line, after = [line] ∧ line.isGiven = false := by
  have view : (Line.readAll Settings.standard "" nestedValue).toOption.map
      (fun lines => lines.toList.map fun line => (line.text, line.isGiven)) =
        some ([(Bytes.ofString ".class public LA;", false)] ++
          ([(Bytes.ofString ".annotation build LX;", false),
            (Bytes.ofString "value = .subannotation LY;", true),
            (Bytes.ofString "name = \"a \\\" b\"", true),
            (Bytes.ofString ".end subannotation", true),
            (Bytes.ofString ".end annotation", true)] ++
          [(Bytes.ofString ".field private f:I", false)])) := by
    decide +kernel
  rcases exists_lines_of_view view with
    ⟨lines, before, within, after, read, split, beforeView, withinView,
      afterView⟩
  have texts := map_text_of_view withinView
  have balanced : Balanced (within.map Line.text) := by
    rw [texts]
    exact balanced_nestedValue
  have outside : Region.after .body (before.map Line.text) = .body := by
    rw [map_text_of_view beforeView]
    decide +kernel
  have length : within.length = 5 := by
    have same := congrArg List.length withinView
    rwa [List.length_map] at same
  have clean : ∀ line ∈ within,
      isValue line.text = true → ¬nestingWord <:+: line.text := by
    have none : (within.map Line.text).countP hides = 0 := by
      rw [texts]
      decide +kernel
    exact List.forall_mem_map.mp ((countP_hides_eq_zero_iff _).mp none)
  have left := (balanced_left_iff read split balanced outside).2.2.2.mpr clean
  rcases List.map_eq_singleton_iff.mp afterView with ⟨line, rfl, -⟩
  exact ⟨lines, before, within, [line], read, split, balanced, length, outside,
    left.1, line, rfl, left.2 line rfl⟩

/--
A class with a value line that holds the nesting word in a string literal.
-/
def hiddenWord : Bytes :=
  Bytes.ofString <|
    ".class public LA;\n.annotation build LX;\nvalue = \".subannotation\"\n" ++
      ".end annotation\n.method public a()V\nreturn-void\n.end method\n"

/-- The method behind this bracket is swallowed. -/
theorem method_swallowed_behind_hiddenWord :
    ∃ lines before within after,
      Line.readAll Settings.standard "" hiddenWord = .ok lines ∧
      lines.toList = before ++ (within ++ after) ∧
      Balanced (within.map Line.text) ∧
      Region.after .body (before.map Line.text) = .body ∧
      Region.after .body ((before ++ within).map Line.text) ≠ .body ∧
      ∃ line ∈ after,
        line.text.startsWith ".method" = true ∧ line.isGiven = true := by
  have view : (Line.readAll Settings.standard "" hiddenWord).toOption.map
      (fun lines => lines.toList.map fun line => (line.text, line.isGiven)) =
        some ([(Bytes.ofString ".class public LA;", false)] ++
          ([(Bytes.ofString ".annotation build LX;", false),
            (Bytes.ofString "value = \".subannotation\"", true),
            (Bytes.ofString ".end annotation", true)] ++
          [(Bytes.ofString ".method public a()V", true),
            (Bytes.ofString "return-void", true),
            (Bytes.ofString ".end method", true)])) := by
    decide +kernel
  rcases exists_lines_of_view view with
    ⟨lines, before, within, after, read, split, beforeView, withinView,
      afterView⟩
  have balanced : Balanced (within.map Line.text) := by
    rw [map_text_of_view withinView]
    have inner : Elements [Bytes.ofString "value = \".subannotation\""] :=
      .value (by decide) .nil
    exact .intro (by decide) inner (by decide)
  rcases List.map_eq_cons_iff.mp afterView with ⟨line, rest, rfl, header, -⟩
  rw [Prod.mk.injEq] at header
  refine ⟨lines, before, within, line :: rest, read, split, balanced, ?_, ?_,
    line, List.mem_cons_self, ?_, header.2⟩
  · rw [map_text_of_view beforeView]
    decide +kernel
  · rw [List.map_append, map_text_of_view beforeView,
      map_text_of_view withinView]
    decide +kernel
  · rw [header.1]
    decide

end SmaliFlow.Metadata
