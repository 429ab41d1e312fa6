import SmaliFlow.Proofs.Reachability

/-!
# A method remembers only its last build

A method that has been declared may be built and numbered any number of times,
from the lines of any classes.  Building keeps what was declared and overwrites
all the rest; numbering reads nothing that an earlier numbering wrote.  After
any sequence of these steps the method is therefore the one that the last build
alone gives, numbered if some numbering has followed that build.

Lines are classified on the way, and others may have classified some of them
before.  A listing does not tell whether a line had been classified when it was
read, so this makes no difference either.
-/

namespace SmaliFlow

/-! ## Lines that have been classified -/

namespace Flow.Listing

theorem rowOf_classify
    (state : Option TableForm)
    (position id : Nat)
    (line : Line) :
    rowOf state position id line.classify = rowOf state position id line := by
  cases reading :
    line.reading <;> simp [rowOf, Line.classify, Line.instruction, reading]

theorem rowsFrom_classify
    (entries : List (Nat × Line))
    (state : Option TableForm)
    (position : Nat) :
    rowsFrom (entries.map fun entry => (entry.1, entry.2.classify))
      state position =
      rowsFrom entries state position := by
  induction entries generalizing state position with
  | nil => rfl
  | cons entry entries ih =>
      have text : entry.2.classify.text = entry.2.text :=
        congrArg Row.text (rowOf_classify none 0 0 entry.2)
      rw [List.map_cons, rowsFrom, rowsFrom, rowOf_classify, text, ih]

private theorem mapM_classify (lines : Array Line) (ids : List Nat) :
    (ids.mapM fun id => (lines.map Line.classify)[id]?.map fun line =>
      (id, line)) =
      (ids.mapM fun id => lines[id]?.map fun line => (id, line)).map
        (List.map fun entry => (entry.1, entry.2.classify)) := by
  induction ids with
  | nil => rfl
  | cons id ids ih =>
      rw [List.mapM_cons, List.mapM_cons, ih, Array.getElem?_map]
      cases lines[id]? with
      | none => rfl
      | some line =>
          cases ids.mapM fun id => lines[id]?.map fun line => (id, line) <;> rfl

/-- A listing does not tell which of its lines had been classified. -/
theorem ofIds?_congr
    {lines others : Array Line}
    (alike : others.map Line.classify = lines.map Line.classify)
    (ids : List Nat) :
    ofIds? others ids = ofIds? lines ids := by
  have forget (lines : Array Line) :
      ofIds? (lines.map Line.classify) ids = ofIds? lines ids := by
    rw [ofIds?, mapM_classify, Option.map_map, ofIds?]
    congr 1
    funext entries
    rw [Function.comp_apply, ofLines_eq, rowsFrom_classify, ofLines_eq]
  rw [← forget others, alike, forget lines]

/-- Lines whose indices are in range have a listing. -/
theorem exists_ofIds?
    {lines : Array Line}
    {ids : List Nat}
    (inside : ∀ id ∈ ids, id < lines.size) :
    ∃ listing, ofIds? lines ids = some listing := by
  have lookup : ∃ entries : List (Nat × Line), entries.map Prod.fst = ids ∧
      ∀ entry ∈ entries, lines[entry.1]? = some entry.2 := by
    induction ids with
    | nil => exact ⟨[], rfl, by simp⟩
    | cons id ids ih =>
        rcases ih fun other member =>
            inside other (List.mem_cons_of_mem id member) with
          ⟨entries, rfl, found⟩
        have first := Array.getElem?_eq_getElem (inside id List.mem_cons_self)
        exact ⟨(id, _) :: entries, rfl, List.forall_mem_cons.mpr ⟨first, found⟩⟩
  rcases lookup with ⟨entries, named, found⟩
  exact ⟨_, ofIds?_eq_some_iff.mpr ⟨entries, named, found, rfl⟩⟩

theorem ofIds?_eq_none_iff (lines : Array Line) (ids : List Nat) :
    ofIds? lines ids = none ↔ ∃ id ∈ ids, lines.size ≤ id := by
  constructor
  · intro missing
    by_contra inside
    push Not at inside
    rcases exists_ofIds? inside with ⟨listing, listed⟩
    simp [missing] at listed
  · rintro ⟨id, member, outside⟩
    rw [Option.eq_none_iff_forall_ne_some]
    intro listing listed
    rcases ofIds?_eq_some_iff.mp listed with ⟨entries, rfl, found, -⟩
    rcases List.mem_map.mp member with ⟨entry, entryMember, rfl⟩
    have line := found entry entryMember
    rw [Array.getElem?_eq_none outside] at line
    cases line

end Flow.Listing

/-! ## What a step keeps and what it overwrites -/

namespace Method

open SmaliFlow.Flow

@[simp]
theorem clear_build (method : Method) (listing : Listing) :
    (method.build listing).clear = method.clear := by
  unfold build
  cases Graph.build listing <;> rfl

@[simp]
theorem clear_discover (method : Method) :
    method.discover.clear = method.clear :=
  rfl

theorem lines_clear (method : Method) : method.clear.lines = method.lines :=
  rfl

theorem build?_clear (method : Method) (lines : Array Line) :
    method.clear.build? lines = method.build? lines :=
  rfl

/-- Numbering a second time changes nothing. -/
theorem discover_discover (method : Method) :
    method.discover.discover = method.discover := by
  have table : method.discover.successorTable = method.successorTable := by
    apply Array.ext'
    rw [successorTable, successorTable, List.toList_toArray,
      List.toList_toArray]
    apply List.ext_getElem?
    intro index
    rw [List.getElem?_map, List.getElem?_map, getElem?_blocks_discover,
      Option.map_map]
    rfl
  have numbers : method.discover.discovery = method.discovery := by
    rw [discovery_eq, table, discovery_eq]
  have blocks : method.discover.discover.blocks = method.discover.blocks := by
    apply List.ext_getElem?
    intro index
    rw [getElem?_blocks_discover, numbers, getElem?_blocks_discover,
      Option.map_map]
    rfl
  have unlinked : method.discover.discover.hasUnlinkedBlocks =
      method.discover.hasUnlinkedBlocks := by
    change decide (method.discover.discovery.2 <
      method.discover.blocks.length) =
      decide (method.discovery.2 < method.blocks.length)
    rw [numbers, length_blocks_discover]
  calc
    method.discover.discover =
        { method.discover with
          blocks := method.discover.discover.blocks
          hasUnlinkedBlocks := method.discover.discover.hasUnlinkedBlocks } :=
            rfl
    _ = method.discover := by rw [blocks, unlinked]

/-- Without blocks there is nothing to number. -/
theorem discover_of_blocks_eq_nil
    {method : Method}
    (empty : method.blocks = [])
    (linked : method.hasUnlinkedBlocks = false) :
    method.discover = method := by
  have blocks : method.discover.blocks = method.blocks := by
    rw [empty, ← List.length_eq_zero_iff, length_blocks_discover, empty]
    rfl
  have unlinked :
      method.discover.hasUnlinkedBlocks = method.hasUnlinkedBlocks := by
    change decide (method.discovery.2 < method.blocks.length) = _
    rw [empty, linked, List.length_nil]
    rfl
  calc
    method.discover =
        { method with
          blocks := method.discover.blocks
          hasUnlinkedBlocks := method.discover.hasUnlinkedBlocks } := rfl
    _ = method := by rw [blocks, unlinked]

/-! ## Sequences of steps -/

/-- What may happen to a method that has been declared. -/
inductive Step where
  /-- Its control flow is built from the lines of a class. -/
  | build (lines : Array Line)
  /-- Its blocks are numbered. -/
  | number

/-- The lines that a step reads. -/
def Step.lines? : Step → Option (Array Line)
  | .build lines => some lines
  | .number => none

/-- The method after a step; what the step reads has to be in range. -/
def perform? (method : Method) : Step → Option Method
  | .build lines => method.build? lines
  | .number => some method.discover

/-- The method after several steps. -/
def run? (method : Method) (steps : List Step) : Option Method :=
  steps.foldlM perform? method

/--
What building the control flow answers: nothing, or why it cannot be built.
-/
def buildAnswer? (method : Method) (lines : Array Line) :
    Option (Except MethodFault Unit) :=
  (Listing.ofIds? lines method.lines).map fun listing =>
    match Graph.build listing with
    | .ok _ => .ok ()
    | .error fault => .error { fault, signature := method.header.signature }

/-- A step keeps what was declared. -/
theorem clear_of_perform?
    {before after : Method}
    {step : Step}
    (performed : before.perform? step = some after) :
    after.clear = before.clear := by
  cases step with
  | build lines =>
      rcases Option.map_eq_some_iff.mp performed with ⟨listing, -, rfl⟩
      exact clear_build before listing
  | number =>
      cases performed
      exact clear_discover before

theorem clear_of_run?
    {before after : Method}
    {steps : List Step}
    (ran : before.run? steps = some after) :
    after.clear = before.clear := by
  induction steps generalizing before with
  | nil =>
      cases ran
      rfl
  | cons step steps ih =>
      rcases Option.bind_eq_some_iff.mp ran with ⟨next, performed, rest⟩
      rw [ih rest, clear_of_perform? performed]

theorem exists_perform?
    {method : Method}
    {step : Step}
    (inside : ∀ lines ∈ step.lines?, ∀ id ∈ method.lines, id < lines.size) :
    ∃ after, method.perform? step = some after := by
  cases step with
  | build lines =>
      rcases Listing.exists_ofIds? (inside lines rfl) with ⟨listing, listed⟩
      exact ⟨method.build listing, by
        rw [perform?, build?, listed, Option.map_some]⟩
  | number => exact ⟨method.discover, rfl⟩

/-- Steps whose lines are in range can all be performed. -/
theorem exists_run?
    (method : Method)
    {steps : List Step}
    (inside : ∀ step ∈ steps, ∀ lines ∈ step.lines?, ∀ id ∈ method.lines,
      id < lines.size) :
    ∃ after, method.run? steps = some after := by
  induction steps generalizing method with
  | nil => exact ⟨method, rfl⟩
  | cons step steps ih =>
      rcases exists_perform? (inside step List.mem_cons_self) with
        ⟨next, performed⟩
      have kept : next.lines = method.lines := by
        rw [← lines_clear next, clear_of_perform? performed, lines_clear]
      have later : ∀ step ∈ steps, ∀ lines ∈ step.lines?, ∀ id ∈ next.lines,
          id < lines.size := by
        intro other member
        rw [kept]
        exact inside other (List.mem_cons_of_mem step member)
      rcases ih next later with ⟨after, ran⟩
      exact ⟨after, Option.bind_eq_some_iff.mpr ⟨next, performed, ran⟩⟩

theorem run?_append (method : Method) (front back : List Step) :
    method.run? (front ++ back) = (method.run? front).bind fun next =>
      next.run? back :=
  List.foldlM_append

/-- Of several numberings in a row one is enough. -/
theorem run?_numbers
    (method : Method)
    {steps : List Step}
    (numbers : ∀ step ∈ steps, step = .number) :
    method.run? steps = method.run? (steps.take 1) := by
  cases steps with
  | nil => rfl
  | cons step steps =>
      cases numbers step List.mem_cons_self
      have rest : ∀ step ∈ steps, step = .number := fun other member =>
        numbers other (List.mem_cons_of_mem _ member)
      have again (steps : List Step)
          (numbers : ∀ step ∈ steps, step = .number) :
          method.discover.run? steps = some method.discover := by
        induction steps with
        | nil => rfl
        | cons step steps ih =>
            cases numbers step List.mem_cons_self
            have later :=
              ih fun other member =>
                numbers other (List.mem_cons_of_mem _ member)
            rw [run?, List.foldlM_cons, perform?, discover_discover]
            exact later
      exact again steps rest

/-- Whatever came before, a build begins from what was declared. -/
theorem build?_of_run?
    {fresh method : Method}
    {steps : List Step}
    (ran : fresh.run? steps = some method)
    (lines : Array Line) :
    method.build? lines = fresh.build? lines := by
  rw [← build?_clear method, clear_of_run? ran, build?_clear]

/-! ## The last build -/

/-- What a method looks like right after a build that has given an answer. -/
structure Answered (method : Method) (answer : Except MethodFault Unit) :
    Prop where
  failed : ∀ fault, answer = .error fault →
    method.blocks = [] ∧ method.ranges = [] ∧ method.hasUnlinkedBlocks = false ∧
      method.fault = some fault
  succeeded : answer = .ok () → method.fault = none

theorem Answered.discover
    {method : Method}
    {answer : Except MethodFault Unit}
    (answered : method.Answered answer) :
    method.discover.Answered answer where
  failed := by
    intro fault equal
    rcases answered.failed fault equal with ⟨blocks, ranges, unlinked, kept⟩
    rw [discover_of_blocks_eq_nil blocks unlinked]
    exact ⟨blocks, ranges, unlinked, kept⟩
  succeeded := answered.succeeded

theorem Answered.run?
    {before after : Method}
    {answer : Except MethodFault Unit}
    {steps : List Step}
    (answered : before.Answered answer)
    (numbers : ∀ step ∈ steps, step = .number)
    (ran : before.run? steps = some after) :
    after.Answered answer := by
  induction steps generalizing before with
  | nil =>
      cases ran
      exact answered
  | cons step steps ih =>
      cases numbers step List.mem_cons_self
      exact ih answered.discover
        (fun other member => numbers other (List.mem_cons_of_mem _ member)) ran

theorem discovery_of_build
    {method : Method}
    {listing : Listing}
    {block : Block}
    (member : block ∈ (method.build listing).blocks) :
    block.discovery = none := by
  unfold build at member
  cases built : Graph.build listing with
  | error fault =>
      rw [built] at member
      cases member
  | ok graph =>
      rw [built] at member
      rcases Graph.nonempty_assembly built with ⟨assembly⟩
      change block ∈ graph.blocks at member
      rw [assembly.blocks, Layout.blocks, List.mem_map] at member
      rcases member with ⟨group, -, rfl⟩
      rfl

/--
A build leaves unnumbered blocks and no fault, or no blocks and the fault it
answers.
-/
theorem exists_answer_of_build?
    {before after : Method}
    {lines : Array Line}
    (built : before.build? lines = some after) :
    (∃ answer, before.buildAnswer? lines = some answer ∧
      after.Answered answer) ∧
      ∀ block ∈ after.blocks, block.discovery = none := by
  rcases Option.map_eq_some_iff.mp built with ⟨listing, listed, rfl⟩
  refine ⟨?_, fun block member => discovery_of_build member⟩
  rw [buildAnswer?, listed, Option.map_some]
  refine ⟨_, rfl, ?_, ?_⟩
  · intro fault equal
    unfold build
    cases outcome : Graph.build listing with
    | error cause =>
        rw [outcome] at equal
        cases equal
        exact ⟨rfl, rfl, rfl, rfl⟩
    | ok graph =>
        rw [outcome] at equal
        cases equal
  · intro equal
    unfold build
    cases outcome : Graph.build listing with
    | error cause =>
        rw [outcome] at equal
        cases equal
    | ok graph => rfl

/--
After any sequence of builds and numberings, a method keeps what was declared
and is otherwise the one that the last build alone gives, followed by one
numbering if there was any.  Which lines had been classified makes no
difference.
-/
theorem run?_eq_run?_last_build
    (label : Nat)
    {first : Array Line}
    {ids : List Nat}
    {steps : List Step}
    (inFirst : ∀ id ∈ ids, id < first.size)
    (inside : ∀ step ∈ steps, ∀ lines ∈ step.lines?, ∀ id ∈ ids,
      id < lines.size) :
    ∃ fresh method,
      (∀ others, others.map Line.classify = first.map Line.classify →
        declare? label others ids = some fresh) ∧
      fresh.run? steps = some method ∧ method.clear = fresh ∧
      ((∀ step ∈ steps, step = .number) → method = fresh) ∧
      ∀ before lines after, steps = before ++ .build lines :: after →
        (∀ step ∈ after, step = .number) →
        (∀ others, others.map Line.classify = lines.map Line.classify →
          fresh.run? (.build others :: after.take 1) = some method) ∧
        (∃ prior answer, fresh.run? before = some prior ∧
          prior.buildAnswer? lines = some answer ∧ method.Answered answer) ∧
        (after = [] → ∀ block ∈ method.blocks, block.discovery = none) := by
  rcases Listing.exists_ofIds? inFirst with ⟨listing, listed⟩
  have lines : (declare label listing).lines = ids :=
    Listing.ids_of_ofIds? listed
  rcases exists_run? (declare label listing) (by rwa [lines]) with ⟨method, ran⟩
  refine ⟨declare label listing, method, ?_, ran, clear_of_run? ran, ?_, ?_⟩
  · intro others alike
    rw [declare?, Listing.ofIds?_congr alike, listed, Option.map_some]
  · intro numbers
    rw [run?_numbers _ numbers] at ran
    cases steps with
    | nil => exact (Option.some.inj ran).symm
    | cons step steps =>
        cases numbers step List.mem_cons_self
        have nothing :
            (declare label listing).discover = declare label listing :=
          discover_of_blocks_eq_nil rfl rfl
        rw [← nothing]
        exact (Option.some.inj ran).symm
  · rintro before lines after rfl numbers
    rw [run?_append] at ran
    rcases Option.bind_eq_some_iff.mp ran with ⟨prior, ranBefore, rest⟩
    rcases Option.bind_eq_some_iff.mp rest with ⟨built, performed, numbered⟩
    rcases exists_answer_of_build? performed with
      ⟨⟨answer, answers, answered⟩, unnumbered⟩
    refine ⟨?_, ⟨prior, answer, ranBefore, answers,
      answered.run? numbers numbered⟩, ?_⟩
    · intro others alike
      have same : (declare label listing).perform? (.build others) =
          some built := by
        rw [perform?, build?, Listing.ofIds?_congr alike]
        exact (build?_of_run? ranBefore lines).symm.trans performed
      apply Option.bind_eq_some_iff.mpr
      refine ⟨built, same, ?_⟩
      exact (run?_numbers built numbers).symm.trans numbered
    · rintro rfl
      cases numbered
      exact unnumbered

/-- A small method that jumps to a label which no line defines. -/
def brokenJump : Array Line :=
  Line.ofTexts ["goto :goto_1", ":goto_0", "nop", ":goto_2", "return-void"]

/--
Neither the blocks of an earlier build nor the fault of another are remembered.
-/
theorem run?_forgets_brokenJump :
    ∃ fresh method : Method,
      declare? 7 skippedBlock (List.range 5) = some fresh ∧
      fresh.run? [.build skippedBlock, .number, .build brokenJump,
        .build (skippedBlock.map Line.classify), .number, .number] =
          some method ∧
      fresh.run? [.build skippedBlock, .number] = some method ∧
      method.fault = none ∧
        method.blocks.map Block.discovery = [some 0, none, some 1] := by
  have view : ((declare? 7 skippedBlock (List.range 5)).bind fun fresh =>
      (fresh.run? [.build skippedBlock, .number]).map fun method =>
        (method.fault, method.blocks.map Block.discovery)) =
      some (none, [some 0, none, some 1]) := by
    decide +kernel
  have inside : ∀ id ∈ List.range 5, id < skippedBlock.size := by decide +kernel
  have classified : (skippedBlock.map Line.classify).map Line.classify =
      skippedBlock.map Line.classify := by
    decide +kernel
  have inSteps : ∀ step ∈ [Step.build skippedBlock, .number, .build brokenJump,
      .build (skippedBlock.map Line.classify), .number, .number],
      ∀ lines ∈ step.lines?, ∀ id ∈ List.range 5, id < lines.size := by
    intro step member lines reads
    simp only [List.mem_cons, List.not_mem_nil, or_false] at member
    rcases member with rfl | rfl | rfl | rfl | rfl | rfl <;> cases reads
    · exact inside
    · decide +kernel
    · decide +kernel
  rcases run?_eq_run?_last_build 7 inside inSteps with
    ⟨fresh, method, declared, ran, -, -, last⟩
  have alone :=
    (last [.build skippedBlock, .number, .build brokenJump] _ _ rfl (by simp)).1
      skippedBlock classified.symm
  rw [declared skippedBlock rfl, Option.bind_some] at view
  rcases Option.map_eq_some_iff.mp view with ⟨found, ranAlone, equal⟩
  have same : some found = some method := ranAlone.symm.trans alone
  cases same
  rw [Prod.mk.injEq] at equal
  exact ⟨fresh, method, declared skippedBlock rfl, ran, ranAlone, equal⟩

end Method

end SmaliFlow
