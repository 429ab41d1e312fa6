import SmaliFlow.Proofs.Drawing

/-!
# Methods never leave their lines

A method is declared, and then its control flow is built and its blocks are
numbered, any number of times and from any lines.  Here each of these steps is
taken with every look-up checked: of a line by its index, of a row by its
position, of a block by its number.

The search for reachable blocks stays inside the method because the successors
of its blocks are blocks of the method, and every block on its stack has been a
successor or is the entry.  Together with what is known of drafts it follows
that a step is stuck exactly if it reads lines and some index of the method is
out of range in them.  In all other cases it comes to the same as the step
without checks, whether the control flow can be built or not.
-/

namespace SmaliFlow

/-! ## Numbering blocks -/

namespace Flow.Discovery

theorem Numbering.fresh_iff
    {numbering : Numbering}
    {block : Nat}
    {number : Option Nat}
    (found : numbering.numbers[block]? = some number) :
    numbering.Fresh block ↔ number.isNone = true := by
  rw [Fresh, found, Option.some.injEq, Option.isNone_iff_eq_none]

namespace Search

/-- One turn of the search, with its blocks looked up. -/
def turnChecked (successors : Array (List Nat)) (search : Search) :
    Checked (Option Search) :=
  match search.stack with
  | [] => return none
  | frame :: stack => do
      let targets ← .ofOption successors[frame.block]?
      match targets[frame.child]? with
      | none => return some { search with stack }
      | some target => do
          let number ← .ofOption search.numbering.numbers[target]?
          let path := { frame with child := frame.child + 1 } :: stack
          if number.isNone then
            return some
              { stack := { block := target, child := 0 } :: path
                numbering := search.numbering.give target }
          else
            return some { search with stack := path }

/-- A turn that is not stuck is the turn of the search. -/
theorem turn_of_turnChecked
    {successors : Array (List Nat)}
    {search : Search}
    {outcome : Option Search}
    (turned : search.turnChecked successors = .value outcome) :
    search.turn successors = outcome := by
  rcases search with ⟨path, numbering⟩
  cases path with
  | nil =>
      cases turned
      rfl
  | cons frame stack =>
      simp only [turnChecked] at turned
      simp only [turn, targets]
      cases found : successors[frame.block]? with
      | none => simp [found] at turned
      | some list =>
          rw [found, Checked.ofOption_some, Checked.value_bind] at turned
          rw [Option.getD_some]
          cases next : list[frame.child]? with
          | none =>
              rw [next] at turned
              cases turned
              rfl
          | some target =>
              rw [next] at turned
              dsimp only at turned ⊢
              cases found : numbering.numbers[target]? with
              | none => simp [found] at turned
              | some number =>
                  rw [found, Checked.ofOption_some, Checked.value_bind]
                    at turned
                  rw [if_congr (Numbering.fresh_iff found) rfl rfl]
                  cases number with
                  | none =>
                      cases turned
                      rfl
                  | some known =>
                      cases turned
                      rfl

/-- Take turns until the stack is empty. -/
def follow (successors : Array (List Nat)) (search : Search) :
    Checked Numbering :=
  match _ : search.turnChecked successors with
  | .stuck => .stuck
  | .fault cause => .fault cause
  | .value none => .value search.numbering
  | .value (some after) => after.follow successors
termination_by search.work successors
decreasing_by
  rename_i turned
  have spec := work_outcome_of_turns successors (turn_of_turnChecked turned)
  omega

/-- All blocks that the search looks up exist. -/
structure Inside (successors : Array (List Nat)) (search : Search) : Prop where
  size : search.numbering.numbers.size = successors.size
  stack : ∀ frame ∈ search.stack, frame.block < successors.size

theorem inside_start (successors : Array (List Nat)) :
    (start successors.size).Inside successors := by
  unfold start
  split
  · next nonempty =>
      refine ⟨by simp [Numbering.give, Numbering.empty], ?_⟩
      intro frame member
      rw [List.mem_singleton.mp member]
      exact nonempty
  · exact ⟨by simp [Numbering.empty], by simp⟩

/--
If all successors exist, a turn is not stuck and looks up existing blocks again.
-/
theorem Inside.exists_turnChecked
    {successors : Array (List Nat)}
    (closed : ∀ list ∈ successors, ∀ target ∈ list, target < successors.size)
    {search : Search}
    (inside : search.Inside successors) :
    ∃ outcome, search.turnChecked successors = .value outcome ∧
      ∀ after ∈ outcome, Inside successors after := by
  rcases search with ⟨path, numbering⟩
  cases path with
  | nil => exact ⟨none, rfl, by simp⟩
  | cons frame stack =>
      rcases List.forall_mem_cons.mp inside.stack with ⟨top, rest⟩
      have found := Array.getElem?_eq_getElem top
      simp only [turnChecked, found, Checked.ofOption_some, Checked.value_bind]
      cases next : successors[frame.block][frame.child]? with
      | none =>
          refine ⟨_, rfl, ?_⟩
          rintro after isAfter
          cases isAfter
          exact ⟨inside.size, rest⟩
      | some target =>
          have targetInside : target < successors.size :=
            closed _ (Array.getElem_mem top) target (List.mem_of_getElem? next)
          have number :=
            Array.getElem?_eq_getElem (inside.size.symm ▸ targetInside)
          have path : ∀ other ∈
              { frame with child := frame.child + 1 } :: stack,
              other.block < successors.size :=
            List.forall_mem_cons.mpr ⟨top, rest⟩
          dsimp only
          rw [number, Checked.ofOption_some, Checked.value_bind]
          split
          · refine ⟨_, rfl, ?_⟩
            intro after isAfter
            cases isAfter
            refine ⟨?_, List.forall_mem_cons.mpr ⟨targetInside, path⟩⟩
            rw [Numbering.give, Array.size_setIfInBounds]
            exact inside.size
          · refine ⟨_, rfl, ?_⟩
            intro after isAfter
            cases isAfter
            exact ⟨inside.size, path⟩

/--
If all successors exist, the search comes to its end with the numbers it leads
to.
-/
theorem Inside.follow_eq
    {successors : Array (List Nat)}
    (closed : ∀ list ∈ successors, ∀ target ∈ list, target < successors.size)
    {search : Search}
    (inside : search.Inside successors) :
    search.follow successors = .value (search.outcome successors) := by
  rcases inside.exists_turnChecked closed with ⟨next, turned, kept⟩
  have turn := turn_of_turnChecked turned
  rw [follow]
  -- A turn comes to a value, because all blocks on the stack and their
  -- successors exist.
  split
  · next stuck => simp [stuck] at turned
  · next fault => simp [fault] at turned
  · next ended =>
      rw [ended] at turned
      cases turned
      rw [turn_eq_none_iff] at turn
      rw [outcome, pending, turn, List.flatMap_nil, Numbering.complete_nil]
  · next after goesOn =>
      rw [goesOn] at turned
      cases turned
      have spec := work_outcome_of_turns successors turn
      rw [(kept after rfl).follow_eq closed, spec.2]
termination_by search.work successors

end Search

end Flow.Discovery

/-! ## Steps of a method -/

namespace Method

open SmaliFlow.Flow

/-- Declare the method with the given lines of a class. -/
def declareChecked (label : Nat) (lines : Array Line) (ids : List Nat) :
    Checked Method := do
  let entries ← ids.mapM fun id => do
    let line ← .ofOption lines[id]?
    return (id, line)
  return declare label (Listing.ofLines entries)

/--
Build the control flow from the lines of a class; a fault of the method is kept.
-/
def buildChecked (method : Method) (lines : Array Line) : Checked Method :=
  match Draft.rebuild lines method.lines with
  | .stuck => .stuck
  | .fault fault =>
      .value { method.clear with
        fault := some { fault, signature := method.header.signature } }
  | .value graph =>
      .value { method.clear with
        blocks := graph.blocks, ranges := graph.ranges }

/-- Number the blocks that the entry reaches. -/
def numberChecked (method : Method) : Checked Method := do
  let numbering ← (Discovery.Search.start method.blocks.length).follow
    method.successorTable
  return { method with
    blocks := method.blocks.zipWith (fun block number =>
      { block with discovery := number })
      numbering.numbers.toList
    hasUnlinkedBlocks := numbering.next < method.blocks.length }

/-- The method after a step. -/
def performChecked (method : Method) : Step → Checked Method
  | .build lines => method.buildChecked lines
  | .number => method.numberChecked

/-- The method after several steps. -/
def runChecked (method : Method) (steps : List Step) : Checked Method :=
  steps.foldlM performChecked method

/-! ## Agreement with the steps without checks -/

private theorem mapM_entries_eq (lines : Array Line) (ids : List Nat) :
    (ids.mapM fun id => do
      let line ← Checked.ofOption lines[id]?
      return (id, line)) =
      Checked.ofOption (ids.mapM fun id => lines[id]?.map fun line =>
        (id, line)) := by
  induction ids with
  | nil => rfl
  | cons id ids ih =>
      rw [List.mapM_cons, List.mapM_cons, ih]
      cases lines[id]? with
      | none => rfl
      | some line =>
          cases ids.mapM fun id => lines[id]?.map fun line => (id, line) <;> rfl

theorem declareChecked_eq (label : Nat) (lines : Array Line) (ids : List Nat) :
    declareChecked label lines ids = .ofOption (declare? label lines ids) := by
  rw [declareChecked, mapM_entries_eq, declare?, Listing.ofIds?]
  cases ids.mapM fun id => lines[id]?.map fun line => (id, line) <;> rfl

theorem declare?_eq_none_iff
    (label : Nat)
    (lines : Array Line)
    (ids : List Nat) :
    declare? label lines ids = none ↔ ∃ id ∈ ids, lines.size ≤ id := by
  rw [declare?, Option.map_eq_none_iff, Listing.ofIds?_eq_none_iff]

theorem buildChecked_eq (method : Method) (lines : Array Line) :
    method.buildChecked lines = .ofOption (method.build? lines) := by
  rw [buildChecked, build?]
  cases listed : Listing.ofIds? lines method.lines with
  | none =>
      rw [Listing.ofIds?_eq_none_iff, ← Draft.rebuild_eq_stuck_iff] at listed
      rw [listed]
      rfl
  | some listing =>
      rw [Draft.rebuild_of_ofIds? listed, Option.map_some, build]
      cases Graph.build listing <;> rfl

theorem Linked.successorTable {method : Method} (linked : method.Linked) :
    ∀ successors ∈ method.successorTable, ∀ target ∈ successors,
      target < method.successorTable.size := by
  intro successors listed target member
  rw [Method.successorTable, List.mem_toArray, List.mem_map] at listed
  rcases listed with ⟨block, blockMember, rfl⟩
  rw [size_successorTable]
  exact linked block blockMember target member

theorem Linked.numberChecked_eq {method : Method} (linked : method.Linked) :
    method.numberChecked = .value method.discover := by
  have numbered :
      (Discovery.Search.start method.blocks.length).follow
        method.successorTable =
        .value ((Discovery.Numbering.empty method.successorTable.size).complete
          method.successorTable [0]) := by
    rw [← size_successorTable, ← Discovery.Search.outcome_start]
    exact (Discovery.Search.inside_start method.successorTable).follow_eq
      linked.successorTable
  rw [numberChecked, numbered]
  rfl

/-- A step of an attained method comes to what it comes to without checks. -/
theorem Attained.performChecked_eq
    {method : Method}
    (attained : method.Attained)
    (step : Step) :
    method.performChecked step = .ofOption (method.perform? step) := by
  cases step with
  | build lines => exact method.buildChecked_eq lines
  | number => exact attained.linked.numberChecked_eq

theorem Attained.perform?
    {before after : Method}
    (attained : before.Attained)
    {step : Step}
    (performed : before.perform? step = some after) :
    after.Attained := by
  cases step with
  | build lines => exact .built attained performed
  | number =>
      cases performed
      exact .numbered attained

/-- Steps of an attained method come to what they come to without checks. -/
theorem Attained.runChecked_eq
    {method : Method}
    (attained : method.Attained)
    (steps : List Step) :
    method.runChecked steps = .ofOption (method.run? steps) := by
  induction steps generalizing method with
  | nil => rfl
  | cons step steps ih =>
      rw [runChecked, List.foldlM_cons, attained.performChecked_eq, run?,
        List.foldlM_cons]
      cases performed : method.perform? step with
      | none => rfl
      | some next => exact ih (attained.perform? performed)

theorem Attained.run?
    {before after : Method}
    (attained : before.Attained)
    {steps : List Step}
    (ran : before.run? steps = some after) :
    after.Attained := by
  induction steps generalizing before with
  | nil =>
      cases ran
      exact attained
  | cons step steps ih =>
      rcases Option.bind_eq_some_iff.mp ran with ⟨next, performed, rest⟩
      exact ih (attained.perform? performed) rest

/-! ## What is out of range -/

theorem perform?_eq_none_iff (method : Method) (step : Step) :
    method.perform? step = none ↔
      ∃ lines ∈ step.lines?, ∃ id ∈ method.lines, lines.size ≤ id := by
  cases step with
  | build lines =>
      rw [perform?, build?, Option.map_eq_none_iff, Listing.ofIds?_eq_none_iff]
      simp [Step.lines?]
  | number => simp [perform?, Step.lines?]

/-- Whatever happens to a method, its lines are those it was declared with. -/
theorem lines_of_run?
    {label : Nat}
    {lines : Array Line}
    {ids : List Nat}
    {fresh method : Method}
    {steps : List Step}
    (declared : declare? label lines ids = some fresh)
    (ran : fresh.run? steps = some method) :
    method.lines = ids := by
  rcases Option.map_eq_some_iff.mp declared with ⟨listing, listed, rfl⟩
  rw [← lines_clear method, clear_of_run? ran, lines_clear]
  exact Listing.ids_of_ofIds? listed

/--
Declaring a method is stuck exactly if an index of the method is out of range in
the class.  After any steps, so is building its control flow, and numbering its
blocks is never stuck.  A step that is not stuck has used every position within
its range and has handed over no interval that ends before it begins, and its
result is the one without checks.
-/
theorem stuck_exactly_out_of_range
    (label : Nat)
    (lines : Array Line)
    (ids : List Nat) :
    declareChecked label lines ids = .ofOption (declare? label lines ids) ∧
    (declareChecked label lines ids = .stuck ↔ ∃ id ∈ ids, lines.size ≤ id) ∧
    ∀ fresh, declareChecked label lines ids = .value fresh →
      ∀ steps, fresh.runChecked steps = .ofOption (fresh.run? steps) ∧
        ∀ method, fresh.runChecked steps = .value method →
          ∀ step, method.performChecked step =
            .ofOption (method.perform? step) ∧
            (method.performChecked step = .stuck ↔
              ∃ others ∈ step.lines?, ∃ id ∈ ids, others.size ≤ id) := by
  refine ⟨declareChecked_eq label lines ids, ?_, ?_⟩
  · rw [declareChecked_eq, Checked.ofOption_eq_stuck_iff, declare?_eq_none_iff]
  · intro fresh declared steps
    rw [declareChecked_eq, Checked.ofOption_eq_value_iff] at declared
    have attained : fresh.Attained := .declared declared
    refine ⟨attained.runChecked_eq steps, ?_⟩
    intro method ran step
    rw [attained.runChecked_eq, Checked.ofOption_eq_value_iff] at ran
    have agrees := (attained.run? ran).performChecked_eq step
    refine ⟨agrees, ?_⟩
    rw [agrees, Checked.ofOption_eq_stuck_iff, perform?_eq_none_iff,
      lines_of_run? declared ran]

/-- Lines with a table, a guarded range and a handler. -/
def tangledLines : Array Line :=
  Line.ofTexts [":a", "packed-switch v0, :t", "return-void", ":b",
    ".catchall {:a .. :b} :t", ":t", ".packed-switch 0x0", ":a", ":b",
    ".end packed-switch"]

/-- Indices of these lines, out of order and some of them twice. -/
def tangledIds : List Nat :=
  [0, 1, 9, 2, 3, 4, 4, 5, 6, 7, 8, 9, 2, 0]

/--
The method can be built, and cannot be built from the same lines in reverse;
only from a class with too few lines it is stuck.
-/
theorem stuck_exactly_out_of_range_of_tangledLines :
    ∃ fresh built failed : Method,
      declareChecked 0 tangledLines tangledIds = .value fresh ∧
      fresh.runChecked [.build tangledLines, .number] = .value built ∧
      built.blocks.map Block.successors = [[0, 1], []] ∧
      built.performChecked (.build tangledLines.reverse) = .value failed ∧
      failed.fault.isSome = true ∧
      failed.performChecked .number = .value failed.discover ∧
      failed.performChecked (.build (tangledLines.take 9)) = .stuck := by
  have view : ((declare? 0 tangledLines tangledIds).bind fun fresh =>
      (fresh.run? [.build tangledLines, .number]).bind fun built =>
        (built.perform? (.build tangledLines.reverse)).map fun failed =>
          (built.blocks.map Block.successors, failed.fault.isSome)) =
      some ([[0, 1], []], true) := by
    decide +kernel
  rcases Option.bind_eq_some_iff.mp view with ⟨fresh, declared, rest⟩
  rcases Option.bind_eq_some_iff.mp rest with ⟨built, ran, performed⟩
  rcases Option.map_eq_some_iff.mp performed with ⟨failed, fails, equal⟩
  rw [Prod.mk.injEq] at equal
  rcases stuck_exactly_out_of_range 0 tangledLines tangledIds with
    ⟨declares, -, later⟩
  rw [declared, Checked.ofOption_some] at declares
  have runs := (later fresh declares [.build tangledLines, .number]).1
  rw [ran, Checked.ofOption_some] at runs
  have performs :=
    ((later fresh declares _).2 built runs (.build tangledLines.reverse)).1
  rw [fails, Checked.ofOption_some] at performs
  have runsOn := (later fresh declares
    ([.build tangledLines, .number] ++ [.build tangledLines.reverse])).1
  rw [run?_append, ran, Option.bind_some, run?, List.foldlM_cons, fails]
    at runsOn
  have last := (later fresh declares _).2 failed runsOn
  have outside : ∃ others ∈ (Step.build (tangledLines.take 9)).lines?,
      ∃ id ∈ tangledIds, others.size ≤ id :=
    ⟨_, rfl, 9, by decide +kernel⟩
  exact ⟨fresh, built, failed, declares, runs, equal.1, performs, equal.2,
    (last .number).1, (last _).2.mpr outside⟩

end Method

end SmaliFlow
