import SmaliFlow.Proofs.DepthFirst

/-!
# Numbered blocks are the reachable ones

A block is reachable if control may pass to it from the first block, over any
number of blocks in between.  Numbering a method gives a number to the reachable
blocks and to no others, records whether some block is left over, and changes
nothing else.

This is said of every method that can be attained: one that has been declared,
and then built and numbered any number of times, from any lines.  In such a
method the successors of a block are blocks of the method, so the search never
leaves them.
-/

namespace SmaliFlow.Method

open SmaliFlow.Flow

/-! ## Reachable blocks -/

/-- Control may pass from the block with one index to that with another. -/
def Passes (method : Method) (source target : Nat) : Prop :=
  ∃ block, method.blocks[source]? = some block ∧ target ∈ block.successors

/--
Control may pass from the first block to that with the given index, in any
number of steps.
-/
def Reaches (method : Method) (index : Nat) : Prop :=
  Relation.ReflTransGen method.Passes 0 index

theorem passes_iff (method : Method) (source target : Nat) :
    method.Passes source target ↔
      target ∈ Discovery.targets method.successorTable source := by
  simp only [Passes, Discovery.targets, successorTable, List.getElem?_toArray,
    List.getElem?_map]
  cases method.blocks[source]? <;> simp

theorem reaches_iff
    (method : Method)
    {index : Nat}
    (inside : index < method.blocks.length) :
    method.Reaches index ↔
      Relation.ReflTransGen (Discovery.Follows method.successorTable) 0
        index := by
  constructor
  · intro reached
    induction reached with
    | refl => exact .refl
    | tail _ passes ih =>
        have sourceInside := passes
        rcases sourceInside with ⟨block, found, -⟩
        have earlier := ih (List.getElem?_eq_some_iff.mp found).1
        exact earlier.tail ⟨(method.passes_iff _ _).mp passes, by
          simpa using inside⟩
  · intro reached
    refine Relation.ReflTransGen.mono ?_ _ _ reached
    intro source target follows
    exact (method.passes_iff source target).mpr follows.1

/-! ## Numbered blocks -/

@[simp]
theorem length_blocks_discover (method : Method) :
    method.discover.blocks.length = method.blocks.length := by
  have length := congrArg List.length (map_discovery_discover method)
  rw [List.length_map, Array.length_toList, discovery_eq, Discovery.size_number,
    size_successorTable] at length
  exact length

theorem passes_discover (method : Method) :
    method.discover.Passes = method.Passes := by
  funext source target
  simp only [Passes, getElem?_blocks_discover, Option.map_eq_some_iff]
  apply propext
  constructor
  · rintro ⟨-, ⟨block, found, rfl⟩, successor⟩
    exact ⟨block, found, successor⟩
  · rintro ⟨block, found, successor⟩
    exact ⟨_, ⟨block, found, rfl⟩, successor⟩

theorem reaches_discover (method : Method) (index : Nat) :
    method.discover.Reaches index ↔ method.Reaches index := by
  rw [Reaches, passes_discover]
  rfl

theorem found_iff_reaches
    (method : Method)
    {index : Nat}
    (inside : index < method.blocks.length) :
    Discovery.Found method.discovery.1 index ↔ method.Reaches index := by
  rw [method.reaches_iff inside]
  constructor
  · exact Discovery.reachable_of_found method.successorTable
  · intro reached
    apply Discovery.found_of_reachable method.successorTable _ reached
    rw [size_successorTable]
    omega

/-- Exactly the reachable blocks have a number. -/
theorem isSome_discovery_iff
    (method : Method)
    {index : Nat}
    {block : Block}
    (found : method.discover.blocks[index]? = some block) :
    block.discovery.isSome = true ↔ method.discover.Reaches index := by
  have inside := (List.getElem?_eq_some_iff.mp found).1
  rw [length_blocks_discover] at inside
  rw [reaches_discover, ← method.found_iff_reaches inside,
    Option.isSome_iff_exists]
  rw [getElem?_blocks_discover, Option.map_eq_some_iff] at found
  rcases found with ⟨original, -, rfl⟩
  simp only [Discovery.Found, Option.join_eq_some_iff]

/-- The numbers of the blocks are those below their count, each of them once. -/
theorem filterMap_discovery_perm (method : Method) :
    (method.discover.blocks.filterMap Block.discovery).Perm
      (List.range method.reachedCount) := by
  have consecutive := Discovery.consecutive_number method.successorTable
  rw [Discovery.Consecutive] at consecutive
  have numbers := method.map_discovery_discover
  rw [discovery_eq] at numbers
  rw [← numbers, List.filterMap_map] at consecutive
  exact consecutive

theorem discovery_first
    (method : Method)
    {block : Block}
    (found : method.discover.blocks[0]? = some block) :
    block.discovery = some 0 := by
  have inside := (List.getElem?_eq_some_iff.mp found).1
  rw [length_blocks_discover, ← size_successorTable] at inside
  have numbered := Discovery.getElem?_number_zero method.successorTable inside
  rw [getElem?_blocks_discover, Option.map_eq_some_iff] at found
  rcases found with ⟨original, -, rfl⟩
  simp only [discovery_eq, numbered, Option.join_some]

/-- A block is left over exactly if it cannot be reached. -/
theorem hasUnlinkedBlocks_iff (method : Method) :
    method.discover.hasUnlinkedBlocks = true ↔
      ∃ index < method.discover.blocks.length,
        ¬method.discover.Reaches index := by
  have short : method.discover.hasUnlinkedBlocks = true ↔
      method.discovery.2 < method.successorTable.size := by
    rw [size_successorTable]
    exact decide_eq_true_iff
  rw [short, discovery_eq, Discovery.number_lt_size_iff, size_successorTable,
    length_blocks_discover]
  constructor
  · rintro ⟨index, inside, unnumbered⟩
    refine ⟨index, inside, ?_⟩
    rw [reaches_discover, ← method.found_iff_reaches inside]
    exact unnumbered
  · rintro ⟨index, inside, unreached⟩
    refine ⟨index, inside, ?_⟩
    rw [reaches_discover, ← method.found_iff_reaches inside] at unreached
    exact unreached

/-- The method without what numbering records. -/
def unnumbered (method : Method) : Method :=
  { method with
    blocks := method.blocks.map fun block => { block with discovery := none }
    hasUnlinkedBlocks := false }

theorem unnumbered_discover (method : Method) :
    method.discover.unnumbered = method.unnumbered := by
  have blocks :
      (method.discover.blocks.map fun block =>
        { block with discovery := none }) =
        method.blocks.map fun block => { block with discovery := none } := by
    apply List.ext_getElem?
    intro index
    rw [List.getElem?_map, List.getElem?_map, getElem?_blocks_discover,
      Option.map_map]
    rfl
  rw [unnumbered, blocks]
  rfl

/-! ## Attained methods -/

/--
The method has been declared, and then built and numbered any number of times.
-/
inductive Attained : (method : Method) → Prop where
  | declared
      {label : Nat}
      {lines : Array Line}
      {ids : List Nat}
      {method : Method}
      (declared : Method.declare? label lines ids = some method) :
      Attained method
  | built
      {before after : Method}
      {lines : Array Line}
      (earlier : Attained before)
      (built : before.build? lines = some after) :
      Attained after
  | numbered {before : Method} (earlier : Attained before) :
      Attained before.discover

/-- The successors of every block are blocks of the method. -/
def Linked (method : Method) : Prop :=
  ∀ block ∈ method.blocks, ∀ target ∈ block.successors,
    target < method.blocks.length

theorem linked_of_declare?
    {label : Nat}
    {lines : Array Line}
    {ids : List Nat}
    {method : Method}
    (declared : Method.declare? label lines ids = some method) :
    method.Linked := by
  rcases Option.map_eq_some_iff.mp declared with ⟨listing, -, rfl⟩
  intro block member
  cases member

theorem linked_of_build?
    {before after : Method}
    {lines : Array Line}
    (built : before.build? lines = some after) :
    after.Linked := by
  rcases Option.map_eq_some_iff.mp built with ⟨listing, listed, rfl⟩
  have positioned := Listing.positioned_of_ofIds? listed
  unfold build
  cases outcome : Graph.build listing with
  | error fault =>
      intro block member
      cases member
  | ok graph =>
      intro block member target successor
      rcases List.mem_iff_getElem?.mp member with ⟨index, found⟩
      rcases Graph.exists_passage_of_mem_successors positioned outcome
          found successor with
        ⟨next, nextFound, -⟩
      exact (List.getElem?_eq_some_iff.mp nextFound).1

theorem Linked.discover {method : Method} (linked : method.Linked) :
    method.discover.Linked := by
  intro block member target successor
  rcases List.mem_iff_getElem?.mp member with ⟨index, found⟩
  rw [getElem?_blocks_discover, Option.map_eq_some_iff] at found
  rcases found with ⟨original, originalFound, rfl⟩
  rw [length_blocks_discover]
  exact linked original (List.mem_of_getElem? originalFound) target successor

theorem Attained.linked {method : Method} (attained : method.Attained) :
    method.Linked := by
  induction attained with
  | declared declared => exact linked_of_declare? declared
  | built _ built _ => exact linked_of_build? built
  | numbered _ ih => exact ih.discover

/--
Numbering an attained method comes to an end without leaving its blocks.  Then
exactly the reachable blocks have a number, the numbers are consecutive from
that of the first block on, unreachable blocks are recorded, and all else is as
before.
-/
theorem discover_numbers_reachable
    {method : Method}
    (attained : method.Attained) :
    method.Linked ∧
    (∃ last, Relation.ReflTransGen
        (Discovery.Search.Turns method.successorTable)
        (.start method.blocks.length) last ∧
      last.turn method.successorTable = none ∧
      last.numbering.numbers.toList =
        method.discover.blocks.map Block.discovery ∧
      last.numbering.next = method.reachedCount) ∧
    (∀ (index : Nat) (block : Block),
      method.discover.blocks[index]? = some block →
      (block.discovery.isSome = true ↔ method.discover.Reaches index)) ∧
    (method.discover.blocks.filterMap Block.discovery).Perm
      (List.range method.reachedCount) ∧
    (∀ block : Block,
      method.discover.blocks[0]? = some block → block.discovery = some 0) ∧
    (method.discover.hasUnlinkedBlocks = true ↔
      ∃ index < method.discover.blocks.length, ¬method.discover.Reaches index) ∧
    method.discover.unnumbered = method.unnumbered := by
  refine ⟨attained.linked, ?_, ?_, method.filterMap_discovery_perm, ?_,
    method.hasUnlinkedBlocks_iff, method.unnumbered_discover⟩
  · rcases method.exists_search_end with ⟨last, run, ended, numbers⟩
    refine ⟨last, run, ended, ?_, ?_⟩
    · rw [numbers, map_discovery_discover]
      rfl
    · rw [numbers]
      rfl
  · intro index block found
    exact method.isSome_discovery_iff found
  · intro block found
    exact method.discovery_first found

/-- A small method whose second block nothing leads to. -/
def skippedBlock : Array Line :=
  Line.ofTexts ["goto :goto_1", ":goto_0", "nop", ":goto_1", "return-void"]

/--
The block behind the goto has no number, and is recorded as not reachable.
-/
theorem discover_skips_middle_block :
    ∃ method : Method, method.Attained ∧
      method.discover.blocks.map Block.discovery = [some 0, none, some 1] ∧
      ¬method.discover.Reaches 1 ∧
        method.discover.hasUnlinkedBlocks = true := by
  have run :
      ((declare? 0 skippedBlock (List.range 5)).bind fun method =>
        (method.build? skippedBlock).map fun method =>
          method.discover.blocks.map Block.discovery) =
        some [some 0, none, some 1] := by
    decide +kernel
  rcases Option.bind_eq_some_iff.mp run with ⟨before, declared, rest⟩
  rcases Option.map_eq_some_iff.mp rest with ⟨method, built, numbers⟩
  have attained : method.Attained := .built (.declared declared) built
  rcases discover_numbers_reachable attained with
    ⟨-, -, numbered, -, -, unlinked, -⟩
  have second :
      (method.discover.blocks.map Block.discovery)[1]? = some none := by
    rw [numbers]
    rfl
  rw [List.getElem?_map, Option.map_eq_some_iff] at second
  rcases second with ⟨block, found, unnumbered⟩
  have unreached : ¬method.discover.Reaches 1 := by
    rw [← numbered 1 block found, unnumbered]
    exact Bool.false_ne_true
  have inside := (List.getElem?_eq_some_iff.mp found).1
  exact ⟨method, attained, numbers, unreached,
    unlinked.mpr ⟨1, inside, unreached⟩⟩

end SmaliFlow.Method
