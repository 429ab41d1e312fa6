import Mathlib.Data.List.Nodup
import SmaliFlow.Proofs.Rebuild

/-!
# Successors and predecessors

An edge is recorded at both of its blocks: its target becomes a successor of its
source, and its source a predecessor of its target, unless they are that
already.  The lists of a method are what recording all its edges one after the
other gives.

Recording an edge between two blocks keeps the lists consistent.  A block stands
among the successors of another exactly if that one stands among its
predecessors, no list names a block twice, and all blocks that are named exist.
So the lists of every method that has been built are consistent, and numbering
its blocks does not change them.
-/

namespace SmaliFlow

namespace Flow

/-- The successors and the predecessors of each block. -/
@[ext]
structure Wiring where
  successors : Array (List Nat)
  predecessors : Array (List Nat)

namespace Wiring

/-- Put a value behind others, unless it is one of them. -/
def addNew {α : Type} [BEq α] (values : List α) (value : α) : List α :=
  if values.contains value then values else values ++ [value]

/-- No edges between the given number of blocks. -/
def empty (count : Nat) : Wiring where
  successors := Array.replicate count []
  predecessors := Array.replicate count []

/-- Record an edge at both its blocks. -/
def link (wiring : Wiring) (edge : Edge) : Wiring where
  successors := wiring.successors.modify edge.source (addNew · edge.target)
  predecessors := wiring.predecessors.modify edge.target (addNew · edge.source)

/-- The lists of blocks. -/
def ofBlocks (blocks : List Block) : Wiring where
  successors := (blocks.map Block.successors).toArray
  predecessors := (blocks.map Block.predecessors).toArray

/--
The lists of `count` blocks are those of a directed graph without parallel
edges.
-/
structure Consistent (wiring : Wiring) (count : Nat) : Prop where
  sizes : wiring.successors.size = count ∧ wiring.predecessors.size = count
  dual : ∀ {source target : Nat} {targets sources : List Nat},
    wiring.successors[source]? = some targets →
      wiring.predecessors[target]? = some sources →
      (target ∈ targets ↔ source ∈ sources)
  simple : ∀ numbers,
    numbers ∈ wiring.successors ∨ numbers ∈ wiring.predecessors →
    numbers.Nodup ∧ ∀ number ∈ numbers, number < count

/-! ## Recording one edge -/

theorem mem_addNew_iff (numbers : List Nat) (number other : Nat) :
    other ∈ addNew numbers number ↔ other ∈ numbers ∨ other = number := by
  unfold addNew
  split
  · rename_i known
    rw [List.contains_iff_mem] at known
    constructor
    · exact Or.inl
    · rintro (member | rfl)
      · exact member
      · exact known
  · rw [List.mem_append, List.mem_singleton]

theorem nodup_addNew
    {α : Type}
    [BEq α]
    [LawfulBEq α]
    {values : List α}
    (nodup : values.Nodup)
    (value : α) :
    (addNew values value).Nodup := by
  unfold addNew
  split
  · exact nodup
  · rename_i new
    rw [List.contains_iff_mem] at new
    exact List.Nodup.append nodup (List.nodup_singleton value)
      (List.disjoint_singleton.mpr new)

/-- Adding a value to what is left of others without repetition. -/
theorem eraseDups_concat
    {α : Type}
    [BEq α]
    [LawfulBEq α]
    (values : List α)
    (value : α) :
    (values ++ [value]).eraseDups = addNew values.eraseDups value := by
  have known : values.eraseDups.contains value = values.contains value := by
    rw [Bool.eq_iff_iff, List.contains_iff_mem, List.contains_iff_mem,
      List.mem_eraseDups]
  rw [List.eraseDups_append, addNew, known, List.removeAll, List.filter_cons,
    List.filter_nil, List.elem_eq_contains]
  cases values.contains value with
  | true => simp
  | false => simp [List.eraseDups_cons]

theorem nodup_eraseDups {α : Type} [BEq α] [LawfulBEq α] (values : List α) :
    values.eraseDups.Nodup := by
  induction values using List.reverseRecOn with
  | nil => exact List.nodup_nil
  | append_singleton values value ih =>
      rw [eraseDups_concat]
      exact nodup_addNew ih value

theorem consistent_empty (count : Nat) : (empty count).Consistent count where
  sizes := ⟨Array.size_replicate, Array.size_replicate⟩
  dual := by
    intro source target targets sources found otherFound
    simp only [empty, Array.getElem?_replicate, Option.ite_none_right_eq_some,
      Option.some.injEq] at found otherFound
    rw [← found.2, ← otherFound.2]
    simp
  simple := by
    intro numbers member
    simp only [empty, Array.mem_replicate, or_self] at member
    simp [member.2]

theorem mem_modify
    {table : Array (List Nat)}
    {index : Nat}
    {change : List Nat → List Nat}
    {numbers : List Nat}
    (member : numbers ∈ table.modify index change) :
    ∃ before ∈ table, numbers = before ∨ numbers = change before := by
  rcases Array.mem_iff_getElem?.mp member with ⟨place, found⟩
  rw [Array.getElem?_modify] at found
  split at found
  · rcases Option.map_eq_some_iff.mp found with ⟨before, beforeFound, rfl⟩
    exact ⟨before, Array.mem_of_getElem? beforeFound, Or.inr rfl⟩
  · exact ⟨numbers, Array.mem_of_getElem? found, Or.inl rfl⟩

/-- What is named at a place after a number has been added at some place. -/
theorem mem_of_getElem?_modify
    {table : Array (List Nat)}
    {index place number : Nat}
    {after : List Nat}
    (found : (table.modify index (addNew · number))[place]? = some after) :
    ∃ before, table[place]? = some before ∧
      ∀ other, other ∈ after ↔
        other ∈ before ∨ (index = place ∧ other = number) := by
  rw [Array.getElem?_modify] at found
  split at found
  · rename_i same
    rcases Option.map_eq_some_iff.mp found with ⟨before, beforeFound, rfl⟩
    refine ⟨before, beforeFound, fun other => ?_⟩
    rw [mem_addNew_iff, and_iff_right same]
  · rename_i different
    exact ⟨after, found, fun other => by simp [different]⟩

/-- Recording an edge between existing blocks keeps the lists consistent. -/
theorem Consistent.link
    {wiring : Wiring}
    {count : Nat}
    (consistent : wiring.Consistent count)
    {edge : Edge}
    (source : edge.source < count)
    (target : edge.target < count) :
    (wiring.link edge).Consistent count where
  sizes := by
    rw [Wiring.link, Array.size_modify, Array.size_modify]
    exact consistent.sizes
  dual := by
    intro first second targets sources found otherFound
    rcases mem_of_getElem?_modify found with ⟨before, beforeFound, members⟩
    rcases mem_of_getElem?_modify otherFound with
      ⟨otherBefore, otherBeforeFound, otherMembers⟩
    rw [members, otherMembers, consistent.dual beforeFound otherBeforeFound,
      and_comm, eq_comm, @eq_comm _ edge.source]
  simple := by
    have kept {numbers : List Nat} {number : Nat} (inside : number < count)
        (simple : numbers.Nodup ∧ ∀ number ∈ numbers, number < count) :
        (addNew numbers number).Nodup ∧ ∀ other ∈ addNew numbers number,
          other < count := by
      refine ⟨nodup_addNew simple.1 number, fun other member => ?_⟩
      rcases (mem_addNew_iff numbers number other).mp member with earlier | rfl
      · exact simple.2 other earlier
      · exact inside
    rintro numbers (member | member)
    all_goals simp only [Wiring.link] at member
    · rcases mem_modify member with ⟨before, beforeMember, rfl | rfl⟩
      · exact consistent.simple numbers (Or.inl beforeMember)
      · exact kept target (consistent.simple before (Or.inl beforeMember))
    · rcases mem_modify member with ⟨before, beforeMember, rfl | rfl⟩
      · exact consistent.simple numbers (Or.inr beforeMember)
      · exact kept source (consistent.simple before (Or.inr beforeMember))

/--
Recording any number of edges between existing blocks keeps the lists
consistent.
-/
theorem Consistent.foldl_link
    {wiring : Wiring}
    {count : Nat}
    (consistent : wiring.Consistent count)
    {edges : List Edge}
    (inside : ∀ edge ∈ edges, edge.source < count ∧ edge.target < count) :
    (edges.foldl Wiring.link wiring).Consistent count := by
  induction edges generalizing wiring with
  | nil => exact consistent
  | cons edge edges ih =>
      rcases List.forall_mem_cons.mp inside with ⟨⟨source, target⟩, rest⟩
      exact ih (consistent.link source target) rest

/-! ## Recording all edges -/

theorem successors_concat (count : Nat) (edges : List Edge) (edge : Edge) :
    Edge.successors count (edges ++ [edge]) =
      (Edge.successors count edges).modify edge.source
        (addNew · edge.target) := by
  have size (edges : List Edge) :
      (Edge.successors count edges).size = count := by
    rw [Edge.successors, Array.size_map, Edge.size_targetTable]
  apply Array.ext_getElem?
  intro index
  rw [Array.getElem?_modify]
  by_cases inside : index < count
  · rw [Edge.getElem?_successors count _ index inside,
      Edge.getElem?_successors count _ index inside, List.filter_append,
      List.map_append, List.filter_cons, List.filter_nil]
    by_cases same : edge.source = index
    · simp [same, eraseDups_concat]
    · simp [same]
  · rw [Array.getElem?_eq_none (by rw [size]; omega),
      Array.getElem?_eq_none (by rw [size]; omega)]
    simp

/--
The tables of edges are what recording the edges one after the other gives.
-/
theorem foldl_link_empty (count : Nat) (edges : List Edge) :
    edges.foldl link (empty count) =
      { successors := Edge.successors count edges
        predecessors := Edge.predecessors count edges } := by
  induction edges using List.reverseRecOn with
  | nil =>
      have distinctNil : distinct [] = [] := rfl
      simp [empty, Edge.predecessors, Edge.successors, Edge.targetTable,
        distinctNil]
  | append_singleton edges edge ih =>
      rw [List.foldl_append, ih, List.foldl_cons, List.foldl_nil, link,
        successors_concat, Edge.predecessors, Edge.predecessors,
        List.map_append, List.map_singleton, successors_concat]
      rfl

end Wiring

/-! ## The lists of a graph -/

theorem Group.Covers.lt_length
    {groups : List Group}
    {index position : Nat}
    (covers : Group.Covers groups index position) :
    index < groups.length := by
  rcases covers with ⟨group, found, -⟩
  exact (List.getElem?_eq_some_iff.mp found).1

theorem Group.Meets.lt_length
    {groups : List Group}
    {index first last : Nat}
    (meets : Group.Meets groups index first last) :
    index < groups.length := by
  rcases meets with ⟨group, found, -⟩
  exact (List.getElem?_eq_some_iff.mp found).1

namespace Graph.Assembly

variable {listing : Listing} {graph : Graph}

/-- All edges of a graph lie between its blocks. -/
theorem edges_inside
    (assembly : Assembly listing graph)
    (positioned : listing.Positioned)
    {edge : Edge}
    (member : edge ∈ assembly.edges) :
    edge.source < graph.blocks.length ∧ edge.target < graph.blocks.length := by
  rw [assembly.length_blocks]
  rw [edges, List.mem_append, List.mem_append] at member
  rcases member with (linked | guarded) | adjacent
  · rcases (assembly.mem_linkEdges_iff positioned edge).mp linked with
      ⟨source, target, cuts, -, sourceCovers, targetCovers⟩
    exact ⟨sourceCovers.lt_length, targetCovers.lt_length⟩
  · rcases (assembly.mem_protectionEdges_iff positioned edge).mp guarded with
      ⟨guard, last, -, -, meets, covers⟩
    exact ⟨meets.lt_length, covers.lt_length⟩
  · rcases (Edge.mem_adjacent_iff (assembly.separated positioned) edge).mp
        adjacent with
      ⟨next, inside, -⟩
    omega

/--
The lists of a graph are those of its edges, recorded one after the other.
-/
theorem ofBlocks_eq (assembly : Assembly listing graph) :
    Wiring.ofBlocks graph.blocks =
      assembly.edges.foldl Wiring.link (Wiring.empty graph.blocks.length) := by
  have listed {table : Array (List Nat)}
      (size : table.size = assembly.layout.groups.length) :
      (assembly.layout.groups.zipIdx.map fun group =>
        table[group.2]?.getD []).toArray = table := by
    apply Array.ext_getElem?
    intro index
    rw [List.getElem?_toArray, List.getElem?_map, List.getElem?_zipIdx]
    by_cases inside : index < assembly.layout.groups.length
    · have read := Array.getElem?_eq_getElem (size.symm ▸ inside)
      rw [List.getElem?_eq_getElem inside, Option.map_some, Option.map_some,
        Nat.zero_add, read]
      rfl
    · rw [List.getElem?_eq_none (by omega), Array.getElem?_eq_none (by omega)]
      rfl
  have size (edges : List Edge) :
      (Edge.successors assembly.layout.groups.length edges).size =
        assembly.layout.groups.length := by
    rw [Edge.successors, Array.size_map, Edge.size_targetTable]
  rw [Wiring.foldl_link_empty, assembly.length_blocks, Wiring.ofBlocks,
    assembly.blocks, Layout.blocks, List.map_map, List.map_map]
  exact Wiring.ext (listed (size _)) (listed (size _))

end Graph.Assembly

theorem Graph.consistent_ofBlocks
    {listing : Listing}
    {graph : Graph}
    (positioned : listing.Positioned)
    (built : Graph.build listing = .ok graph) :
    (Wiring.ofBlocks graph.blocks).Consistent graph.blocks.length := by
  rcases nonempty_assembly built with ⟨assembly⟩
  rw [assembly.ofBlocks_eq]
  exact (Wiring.consistent_empty _).foldl_link fun edge =>
    assembly.edges_inside positioned

end Flow

/-! ## The lists of a method -/

namespace Method

open SmaliFlow.Flow

/-- Numbering does not change the lists of the blocks. -/
theorem ofBlocks_discover (method : Method) :
    Wiring.ofBlocks method.discover.blocks = Wiring.ofBlocks method.blocks := by
  have kept (view : Block → List Nat)
      (blind : ∀ (block : Block) (number : Option Nat),
        view { block with discovery := number } = view block) :
      (method.discover.blocks.map view).toArray =
        (method.blocks.map view).toArray := by
    congr 1
    apply List.ext_getElem?
    intro index
    rw [List.getElem?_map, List.getElem?_map, getElem?_blocks_discover,
      Option.map_map]
    congr 1
    funext block
    exact blind block _
  exact Wiring.ext (kept Block.successors fun _ _ => rfl)
    (kept Block.predecessors fun _ _ => rfl)

theorem ofBlocks_iterate_discover (method : Method) (count : Nat) :
    Wiring.ofBlocks (discover^[count] method).blocks =
      Wiring.ofBlocks method.blocks := by
  induction count generalizing method with
  | zero => rfl
  | succ count ih => rw [Function.iterate_succ_apply, ih, ofBlocks_discover]

/--
If control flow can be built from the lines of a method, the successors and
predecessors of its blocks are consistent: each list says the same as its
counterparts, names no block twice, and names existing blocks only.  So it is
with the method that has been built, however often its blocks are numbered.
-/
theorem edges_form_simple_digraph
    {lines : Array Line}
    {ids : List Nat}
    {graph : Graph}
    (found : Graph.ofIds? lines ids = some graph) :
    (Wiring.ofBlocks graph.blocks).Consistent graph.blocks.length ∧
    ∀ method : Method, method.lines = ids →
      ∃ built, method.build? lines = some built ∧ built.blocks = graph.blocks ∧
        ∀ count, (Wiring.ofBlocks (discover^[count] built).blocks).Consistent
          (discover^[count] built).blocks.length := by
  rcases Graph.ofIds?_eq_some_iff.mp found with ⟨listing, listed, outcome⟩
  have consistent :=
    Graph.consistent_ofBlocks (Listing.positioned_of_ofIds? listed) outcome
  refine ⟨consistent, ?_⟩
  rintro method rfl
  have blocks : (method.build listing).blocks = graph.blocks := by
    rw [build, outcome]
  refine ⟨method.build listing, by
    rw [build?, listed, Option.map_some], blocks, ?_⟩
  intro count
  have wiring := ofBlocks_iterate_discover (method.build listing) count
  have length :
      (discover^[count] (method.build listing)).blocks.length =
        graph.blocks.length := by
    have sizes := congrArg (fun wiring => wiring.successors.size) wiring
    simpa [Wiring.ofBlocks, blocks] using sizes
  rw [wiring, blocks, length]
  exact consistent

/--
A small method whose first block leads to itself, and in two ways to the second
one.
-/
def loopBlock : Array Line :=
  Line.ofTexts [":a", "if-eqz v0, :b", "if-nez v0, :a", "goto :b", ":b",
    "return-void"]

theorem edges_form_simple_digraph_of_loopBlock :
    ∃ graph, Graph.ofIds? loopBlock (List.range 6) = some graph ∧
      graph.blocks.map Block.successors = [[1, 0], []] ∧
      graph.blocks.map Block.predecessors = [[0], [0]] ∧
      (Wiring.ofBlocks graph.blocks).Consistent 2 := by
  have view : (Graph.ofIds? loopBlock (List.range 6)).map (fun graph =>
      (graph.blocks.map Block.successors,
        graph.blocks.map Block.predecessors)) =
      some ([[1, 0], []], [[0], [0]]) := by
    decide +kernel
  rcases Option.map_eq_some_iff.mp view with ⟨graph, found, lists⟩
  rw [Prod.mk.injEq] at lists
  have count : graph.blocks.length = 2 := by
    rw [← List.length_map, lists.1]
    rfl
  exact ⟨graph, found, lists.1, lists.2,
    count ▸ (edges_form_simple_digraph found).1⟩

end Method

end SmaliFlow
