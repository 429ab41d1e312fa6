import SmaliFlow.Proofs.Simulation

/-!
# Where blocks are cut

The instructions of a block all come from one piece, and two rows share a piece
if no cut lies between them.  So two instructions share a block exactly if
nothing cuts between them: no goto stands right before a row in between, and no
label in between is led to.

The cut behind a goto is made at the very next position.  A table that stands
there belongs to no block, and then the cut is lost: the goto may share its
block with instructions behind the table.  The main statement says that this is
the only way for an instruction to follow a goto in its block.
-/

namespace SmaliFlow.Flow

/-- Of ascending rows, one stands before another if its position is less. -/
theorem Ascending.pair_sublist_iff
    {rows : List Row}
    (ascending : Ascending rows)
    (first second : Row) :
    [first, second].Sublist rows ↔
      first ∈ rows ∧ second ∈ rows ∧ first.position < second.position := by
  constructor
  · intro pair
    exact ⟨pair.subset List.mem_cons_self,
      pair.subset (List.mem_cons_of_mem _ List.mem_cons_self),
      List.Pairwise.forall_sublist ascending pair⟩
  · rintro ⟨firstMember, secondMember, order⟩
    rcases List.append_of_mem firstMember with ⟨front, back, rfl⟩
    rcases List.pairwise_append.mp ascending with ⟨-, -, crossing⟩
    rcases List.mem_append.mp secondMember with earlier | later
    · have reversed := crossing second earlier first List.mem_cons_self
      omega
    · rcases List.mem_cons.mp later with rfl | behind
      · omega
      · have pair : [first, second].Sublist (first :: back) :=
          (List.singleton_sublist.mpr behind).cons_cons first
        exact pair.trans (List.sublist_append_right front _)

/-! ## The instructions of a group -/

namespace Group

theorem filter_eq_nil_of_silent
    {rows : Group}
    (silent : rows.any Row.isCode = false) :
    rows.filter Row.isCode = [] := by
  rw [List.filter_eq_nil_iff]
  exact List.any_eq_false.mp silent

theorem exists_piece_of_mem_foldl
    {pieces : List Group}
    {group : Group}
    (member : group ∈ (pieces.foldl join ([], [])).1) :
    ∃ piece ∈ pieces, group.filter Row.isCode = piece.filter Row.isCode := by
  induction pieces using List.reverseRecOn with
  | nil => cases member
  | append_singleton pieces piece ih =>
      have silent := (joined_pieces pieces).silent
      rw [List.foldl_append, List.foldl_cons, List.foldl_nil] at member
      rcases reached : pieces.foldl join ([], []) with ⟨groups, waiting⟩
      rw [reached] at member ih silent
      have finished (earlier : group ∈ groups) :
          ∃ other ∈ pieces ++ [piece],
            group.filter Row.isCode = other.filter Row.isCode := by
        rcases ih earlier with ⟨other, otherMember, same⟩
        exact ⟨other, List.mem_append_left _ otherMember, same⟩
      cases code : piece.any Row.isCode with
      | true =>
          rw [join_of_executed code] at member
          rcases List.mem_cons.mp member with rfl | earlier
          · refine ⟨piece, List.mem_append_right _ List.mem_cons_self, ?_⟩
            rw [List.filter_append, filter_eq_nil_of_silent silent,
              List.nil_append]
          · exact finished earlier
      | false =>
          rw [join_of_silent code] at member
          exact finished member

/-- The instructions of a group are those of one piece. -/
theorem exists_piece_of_mem_ofPieces
    {pieces : List Group}
    {group : Group}
    (member : group ∈ ofPieces pieces) :
    ∃ piece ∈ pieces, group.filter Row.isCode = piece.filter Row.isCode := by
  have silent := (joined_pieces pieces).silent
  have finished (other : Group)
      (formed : other ∈ (pieces.foldl join ([], [])).1) :=
    exists_piece_of_mem_foldl formed
  rw [ofPieces] at member
  rcases reached : pieces.foldl join ([], []) with ⟨groups, waiting⟩
  rw [reached] at member silent finished
  cases groups with
  | nil => cases member
  | cons last groups =>
      simp only [close, List.mem_reverse] at member
      rcases List.mem_cons.mp member with rfl | earlier
      · rw [List.filter_append, filter_eq_nil_of_silent silent, List.append_nil]
        exact finished last List.mem_cons_self
      · exact finished group (List.mem_cons_of_mem last earlier)

theorem exists_mem_ofPieces_of_executed
    {pieces : List Group}
    {piece : Group}
    (member : piece ∈ pieces)
    (executed : piece.any Row.isCode = true) :
    ∃ group ∈ ofPieces pieces, piece ⊆ group := by
  rcases List.append_of_mem member with ⟨before, after, rfl⟩
  exact exists_mem_ofPieces_of_silent before [] after piece (by simp) executed

/-- Two instructions share a group exactly if they share a piece. -/
theorem share_group_iff
    {pieces : List Group}
    {first second : Row}
    (firstCode : first.isCode = true)
    (secondCode : second.isCode = true) :
    (∃ group ∈ ofPieces pieces, first ∈ group ∧ second ∈ group) ↔
      ∃ piece ∈ pieces, first ∈ piece ∧ second ∈ piece := by
  constructor
  · rintro ⟨group, member, firstInside, secondInside⟩
    rcases exists_piece_of_mem_ofPieces member with ⟨piece, pieceMember, same⟩
    have inside {row : Row} (rowInside : row ∈ group)
        (code : row.isCode = true) :
        row ∈ piece := by
      have kept : row ∈ piece.filter Row.isCode := by
        rw [← same]
        exact List.mem_filter.mpr ⟨rowInside, code⟩
      exact (List.mem_filter.mp kept).1
    exact ⟨piece, pieceMember, inside firstInside firstCode,
      inside secondInside secondCode⟩
  · rintro ⟨piece, member, firstInside, secondInside⟩
    have executed : piece.any Row.isCode = true :=
      List.any_eq_true.mpr ⟨first, firstInside, firstCode⟩
    rcases exists_mem_ofPieces_of_executed member executed with
      ⟨group, groupMember, contains⟩
    exact ⟨group, groupMember, contains firstInside, contains secondInside⟩

end Group

/-! ## Rows that share a piece -/

namespace Listing

variable {listing : Listing}

/-- Every piece but the first begins with a leader. -/
theorem exists_leader_of_pieces_eq
    {leaders : List Nat}
    {before after : List Group}
    {piece next : Group}
    (split : listing.pieces leaders = before ++ piece :: next :: after) :
    ∃ leader rest, next = leader :: rest ∧ leader.position ∈ leaders := by
  have cuts := List.isChain_getLast_head_splitBy
    (fun _ row : Row => !leaders.contains row.position) listing.body
  rw [← pieces_eq, split] at cuts
  rcases (List.isChain_cons_cons.mp (List.isChain_append.mp cuts).2.1).1 with
    ⟨-, nonempty, leads⟩
  refine ⟨next.head nonempty, next.tail, (List.cons_head_tail nonempty).symm,
    ?_⟩
  simpa using leads

/--
Two rows share a piece exactly if no row behind the first, up to the second, is
a leader.
-/
theorem share_piece_iff
    (positioned : listing.Positioned)
    (leaders : List Nat)
    {first second : Row}
    (firstMember : first ∈ listing.body)
    (secondMember : second ∈ listing.body)
    (order : first.position < second.position) :
    (∃ piece ∈ listing.pieces leaders, first ∈ piece ∧ second ∈ piece) ↔
      ∀ row ∈ listing.body, first.position < row.position →
        row.position ≤ second.position → row.position ∉ leaders := by
  have flatten := listing.flatten_pieces leaders
  have ascending := positioned.ascending_body
  constructor
  · rintro ⟨piece, member, firstInside, secondInside⟩ row rowMember after
      before leads
    rcases List.append_of_mem rowMember with ⟨front, back, split⟩
    rcases pieces_eq_append split leads with
      ⟨earlier, later, pieces, laterFlatten⟩
    rw [pieces, List.flatten_append, laterFlatten, split] at flatten
    have earlierFlatten := List.append_cancel_right flatten
    rw [split] at ascending
    rcases List.pairwise_append.mp ascending with ⟨-, ascendingBack, crossing⟩
    rw [pieces] at member
    rcases List.mem_append.mp member with inFront | inBack
    · have secondFront : second ∈ front := by
        rw [← earlierFlatten]
        exact List.mem_flatten_of_mem inFront secondInside
      have reversed := crossing second secondFront row List.mem_cons_self
      omega
    · have firstBack : first ∈ row :: back := by
        rw [← laterFlatten]
        exact List.mem_flatten_of_mem inBack firstInside
      rcases List.mem_cons.mp firstBack with rfl | behind
      · omega
      · have reversed := Ascending.head_lt ascendingBack behind
        omega
  · intro uncut
    have firstInside := firstMember
    rw [← flatten] at firstInside ascending secondMember
    rcases List.mem_flatten.mp firstInside with ⟨piece, member, inside⟩
    rcases List.append_of_mem member with ⟨before, after, split⟩
    refine ⟨piece, member, inside, ?_⟩
    rw [split, List.flatten_append, List.flatten_cons, ← List.append_assoc]
      at ascending
    rw [split, List.flatten_append, List.flatten_cons] at secondMember
    rcases List.pairwise_append.mp ascending with
      ⟨ascendingFront, ascendingBack, crossing⟩
    rcases List.mem_append.mp secondMember with earlier | rest
    · have reversed :=
        (List.pairwise_append.mp ascendingFront).2.2 second earlier first inside
      omega
    · rcases List.mem_append.mp rest with here | later
      · exact here
      · -- The first row of the following piece would be a leader in between.
        cases after with
        | nil => cases later
        | cons next after =>
            rcases exists_leader_of_pieces_eq split with
              ⟨leader, others, rfl, leads⟩
            have leaderMember : leader ∈ listing.body := by
              rw [← flatten, split]
              simp
            have behind :=
              crossing first (List.mem_append_right _ inside) leader (by simp)
            have reaches : leader.position ≤ second.position := by
              rcases List.mem_cons.mp later with rfl | further
              · exact Nat.le_refl _
              · exact Nat.le_of_lt (Ascending.head_lt ascendingBack further)
            exact (uncut leader leaderMember behind reaches leads).elim

/-! ## Cuts -/

theorem Leads.target_mem
    {source target : Row}
    {cuts : Bool}
    (leads : listing.Leads source target cuts) :
    target ∈ listing := by
  cases leads with
  | branch _ branches =>
      cases branches with
      | jump _ jumps =>
          exact ((listing.mem_body_iff target).mp jumps.mem_body).1
      | fallThrough _ member => exact member
      | switch _ switches =>
          exact ((listing.mem_body_iff target).mp switches.mem_body).1
  | leave _ _ continues => exact continues.member
  | handle guards =>
      exact ((listing.mem_body_iff _).mp guards.handler_mem_body).1

/--
The rows are cut before this one: a goto stands right before it, or it is led
to.
-/
def Cut (listing : Listing) (row : Row) : Prop :=
  (∃ goto ∈ listing.body,
    goto.kind = .code .goto ∧ row.position = goto.position + 1) ∨
    ∃ source, listing.Leads source row true

theorem mem_leaders_iff
    (positioned : listing.Positioned)
    {layout : Layout}
    (laid : Layout.ofListing listing = .ok layout)
    {row : Row}
    (member : row ∈ listing) :
    row.position ∈ listing.leaders layout.links ↔ listing.Cut row := by
  simp only [leaders, Cut, List.mem_append, List.mem_map, List.mem_filter,
    beq_iff_eq]
  apply or_congr
  · constructor
    · rintro ⟨goto, ⟨gotoMember, kind⟩, next⟩
      exact ⟨goto, gotoMember, kind, next.symm⟩
    · rintro ⟨goto, gotoMember, kind, next⟩
      exact ⟨goto, ⟨gotoMember, kind⟩, next.symm⟩
  · constructor
    · rintro ⟨⟨source, target, cuts⟩, ⟨linked, cutting⟩, same⟩
      have leads := (Layout.mem_links_iff positioned laid _).mp linked
      simp only at leads cutting same
      rw [cutting, positioned.eq_of_position_eq leads.target_mem member same]
        at leads
      exact ⟨source, leads⟩
    · rintro ⟨source, leads⟩
      exact ⟨⟨source, row, true⟩,
        ⟨(Layout.mem_links_iff positioned laid _).mpr leads, rfl⟩, rfl⟩

theorem exists_firstCode
    (positioned : listing.Positioned)
    {start : Nat}
    {row : Row}
    (member : row ∈ listing.body)
    (code : row.isCode = true)
    (after : start ≤ row.position) :
    ∃ first, listing.FirstCode start first := by
  let accepts : Row → Bool :=
    fun other => other.isCode && decide (start ≤ other.position)
  have found : (listing.body.find? accepts).isSome = true := by
    rw [List.find?_isSome]
    exact ⟨row, member, by simp [accepts, code, after]⟩
  rcases Option.isSome_iff_exists.mp found with ⟨first, isFirst⟩
  rw [positioned.ascending_body.find?_eq_some_iff] at isFirst
  rcases isFirst with ⟨firstMember, accepted, least⟩
  simp only [accepts, Bool.and_eq_true, decide_eq_true_eq] at accepted least
  refine ⟨first, firstMember, accepted.1, accepted.2, ?_⟩
  intro other otherMember otherCode otherAfter
  exact least other otherMember ⟨otherCode, otherAfter⟩

/--
A goto runs over the table that stands right behind it: nothing cuts between the
goto and the next instruction, which follows the table.
-/
structure RunsOver (listing : Listing) (goto next : Row) : Prop where
  table : ∃ opener ∈ listing,
    opener.position = goto.position + 1 ∧ opener.inTable = true
  first : listing.FirstCode (goto.position + 1) next
  unled : ∀ label ∈ listing.body, goto.position < label.position →
    label.position ≤ next.position → ∀ source, ¬listing.Leads source label true

/--
Between a goto and the next instruction, only the row right behind the goto is
cut by one.
-/
theorem runsOver_iff
    (positioned : listing.Positioned)
    {goto next : Row}
    (member : goto ∈ listing.body)
    (kind : goto.kind = .code .goto)
    (first : listing.FirstCode (goto.position + 1) next) :
    listing.RunsOver goto next ↔
      ∀ row ∈ listing.body, goto.position < row.position →
        row.position ≤ next.position → ¬listing.Cut row := by
  have reach := first.after
  constructor
  · rintro ⟨⟨opener, openerMember, behind, inTable⟩, -, unled⟩ row rowMember
      after before cut
    rcases cut with ⟨other, otherMember, otherKind, adjacent⟩ | ⟨source, leads⟩
    · have notLater : ¬goto.position + 1 ≤ other.position := by
        intro later
        have := first.first other otherMember
          (Row.isCode_of_kind otherKind) later
        omega
      have same : row = opener := by
        apply positioned.eq_of_position_eq
          ((listing.mem_body_iff row).mp rowMember).1 openerMember
        omega
      rw [listing.mem_body_iff, same, inTable] at rowMember
      exact Bool.noConfusion rowMember.2
    · exact unled row rowMember after before source leads
  · intro uncut
    refine ⟨?_, first, ?_⟩
    · have inside : goto.position + 1 < listing.length := by
        have found :=
          positioned.getElem?_position
            ((listing.mem_body_iff next).mp first.member).1
        have bound := (List.getElem?_eq_some_iff.mp found).1
        omega
      have position := positioned _ _ (List.getElem?_eq_getElem inside)
      refine ⟨_, List.getElem_mem inside, position, ?_⟩
      by_contra outside
      refine uncut _ ((listing.mem_body_iff _).mpr
        ⟨List.getElem_mem inside, by simpa using outside⟩)
        (by omega) (by omega) (Or.inl ⟨goto, member, kind, position⟩)
    · intro label labelMember after before source leads
      exact uncut label labelMember after before (Or.inr ⟨source, leads⟩)

end Listing

/-! ## Instructions that share a block -/

theorem Group.hasFamily_iff (group : Group) (family : Family) :
    group.hasFamily family = true ↔ ∃ row ∈ group, row.kind = .code family := by
  simp [Group.hasFamily]

namespace Graph

variable {lines : Array Line} {ids : List Nat} {listing : Listing}
  {graph : Graph}

/--
Two instructions share a block exactly if nothing behind the first, up to the
second, is cut.
-/
theorem share_block_iff
    (positioned : listing.Positioned)
    (built : Graph.build listing = .ok graph)
    {first second : Row}
    (firstMember : first ∈ listing.body)
    (firstCode : first.isCode = true)
    (secondMember : second ∈ listing.body)
    (secondCode : second.isCode = true)
    (order : first.position < second.position) :
    (∃ block ∈ graph.blocks, first ∈ block.rows ∧ second ∈ block.rows) ↔
      ∀ row ∈ listing.body, first.position < row.position →
        row.position ≤ second.position → ¬listing.Cut row := by
  rcases nonempty_assembly built with ⟨assembly⟩
  have groups :
      (∃ block ∈ graph.blocks, first ∈ block.rows ∧ second ∈ block.rows) ↔
        ∃ group ∈ Group.ofPieces (listing.pieces
          (listing.leaders assembly.layout.links)),
          first ∈ group ∧ second ∈ group := by
    rw [← Layout.groupsOf, ← assembly.groups_eq, ← assembly.map_rows_blocks]
    simp only [List.mem_map, exists_exists_and_eq_and]
  rw [groups, Group.share_group_iff firstCode secondCode,
    Listing.share_piece_iff positioned _ firstMember secondMember order]
  refine forall₂_congr ?_
  intro row member
  rw [Listing.mem_leaders_iff positioned assembly.laid
    ((listing.mem_body_iff row).mp member).1]

theorem ascending_rows
    (positioned : listing.Positioned)
    (built : Graph.build listing = .ok graph)
    {block : Block}
    (member : block ∈ graph.blocks) :
    Ascending block.rows :=
  (separated_groups positioned built).ascending_of_mem
    (List.mem_map_of_mem member)

/--
An instruction follows a goto in its block exactly if the goto runs over a
table.
-/
theorem exists_code_behind_goto_iff
    (positioned : listing.Positioned)
    (built : Graph.build listing = .ok graph)
    {block : Block}
    (found : block ∈ graph.blocks)
    {goto : Row}
    (inside : goto ∈ block.rows)
    (kind : goto.kind = .code .goto) :
    (∃ later, [goto, later].Sublist block.rows ∧ later.isCode = true) ↔
      ∃ next, listing.RunsOver goto next := by
  have member := mem_body_of_mem_rows built found inside
  have code := Row.isCode_of_kind kind
  have ascending := ascending_rows positioned built found
  constructor
  · rintro ⟨later, pair, laterCode⟩
    rcases (ascending.pair_sublist_iff goto later).mp pair with
      ⟨-, laterInside, order⟩
    have laterMember := mem_body_of_mem_rows built found laterInside
    have uncut :=
      (share_block_iff positioned built member code laterMember
        laterCode order).mp
        ⟨block, found, inside, laterInside⟩
    rcases Listing.exists_firstCode positioned laterMember laterCode order with
      ⟨next, first⟩
    have reach := first.first later laterMember laterCode order
    refine ⟨next, (Listing.runsOver_iff positioned member kind first).mpr ?_⟩
    intro row rowMember after before
    exact uncut row rowMember after (before.trans reach)
  · rintro ⟨next, runs⟩
    have uncut :=
      (Listing.runsOver_iff positioned member kind runs.first).mp runs
    have order : goto.position < next.position := runs.first.after
    rcases (share_block_iff positioned built member code runs.first.member
      runs.first.code
      order).mpr uncut with ⟨other, otherFound, gotoInside, nextInside⟩
    rcases List.mem_iff_getElem?.mp found with ⟨index, foundAt⟩
    rcases List.mem_iff_getElem?.mp otherFound with ⟨place, otherAt⟩
    have same := index_unique positioned built foundAt otherAt inside gotoInside
    rw [← same, foundAt, Option.some.injEq] at otherAt
    rw [← otherAt] at nextInside
    exact ⟨next,
      (ascending.pair_sublist_iff goto next).mpr ⟨inside, nextInside, order⟩,
      runs.first.code⟩

/--
A goto ends its block unless it runs over a table, and a block with a goto goes
on to the next block only in that case.
-/
theorem goto_ends_block_iff
    (listed : Listing.ofIds? lines ids = some listing)
    (built : Graph.build listing = .ok graph)
    {index : Nat}
    {block : Block}
    (found : graph.blocks[index]? = some block) :
    (∀ goto ∈ block.rows, goto.kind = .code .goto →
      ((∃ later, [goto, later].Sublist block.rows ∧ later.isCode = true) ↔
        ∃ next, listing.RunsOver goto next)) ∧
    (block.marks.hasGoto = true → ∀ edge ∈ Edge.adjacent graph.groups,
      edge.source = index →
      ∃ goto ∈ block.rows, goto.kind = .code .goto ∧ ∃ next,
      listing.RunsOver goto next) := by
  have positioned := Listing.positioned_of_ofIds? listed
  have member := List.mem_of_getElem? found
  have separated := separated_groups positioned built
  refine ⟨fun goto inside kind =>
    exists_code_behind_goto_iff positioned built member inside kind, ?_⟩
  intro hasGoto edge edgeMember source
  rcases exists_marks_eq built member with ⟨isGuarded, isHandler, marks⟩
  rw [marks] at hasGoto
  rcases (Group.hasFamily_iff _ _).mp hasGoto with ⟨goto, inside, kind⟩
  rcases (Edge.mem_adjacent_iff separated edge).mp edgeMember with
    ⟨-, -, group, last, groupFound, isLast, goesOn⟩
  rw [source, getElem?_groups found, Option.some.injEq] at groupFound
  subst group
  refine ⟨goto, inside, kind,
    (exists_code_behind_goto_iff positioned built member inside kind).mp
      ⟨last, ?_, isLast.code⟩⟩
  -- The last instruction goes on, so it is not the goto but stands behind it.
  rw [(ascending_rows positioned built member).pair_sublist_iff]
  refine ⟨inside, isLast.member, ?_⟩
  have before := isLast.last goto inside (Row.isCode_of_kind kind)
  have different : goto.position ≠ last.position := by
    intro same
    have rows (row : Row) (rowInside : row ∈ block.rows) : row ∈ listing :=
      ((listing.mem_body_iff row).mp
        (mem_body_of_mem_rows built member rowInside)).1
    rw [positioned.eq_of_position_eq (rows goto inside)
      (rows last isLast.member) same] at kind
    exact goesOn.1 kind
  omega

/-- A small method with a labelled table behind a goto. -/
def gotoBeforeLabel : Array Line :=
  Line.ofTexts
    ["packed-switch v0, :pswitch_data_0", "goto :goto_0", ":pswitch_data_0",
      ".packed-switch 0x0", ":pswitch_0", ".end packed-switch", "nop",
      ":pswitch_0", "nop", ":goto_0", "return-void"]

/--
The label of the table is cut behind the goto, which therefore ends its block.
-/
theorem goto_ends_block_before_label :
    ∃ listing graph block,
      Listing.ofIds? gotoBeforeLabel (List.range 11) = some listing ∧
      Graph.build listing = .ok graph ∧ graph.blocks[0]? = some block ∧
      block.lines = [0, 1] ∧ block.marks.hasGoto = true ∧
      (∀ goto ∈ block.rows, goto.kind = .code .goto → ¬∃ next,
        listing.RunsOver goto next) ∧
      ∀ edge ∈ Edge.adjacent graph.groups, edge.source ≠ 0 := by
  have run :
      ((Graph.ofIds? gotoBeforeLabel (List.range 11)).bind fun graph =>
        graph.blocks[0]?.map fun block =>
          (block.lines, block.rows.map Row.kind, block.marks.hasGoto)) =
        some ([0, 1], [.code .switch, .code .goto], true) := by
    decide +kernel
  rcases Option.bind_eq_some_iff.mp run with ⟨graph, graphFound, rest⟩
  rcases Option.map_eq_some_iff.mp rest with ⟨block, found, shape⟩
  simp only [Prod.mk.injEq] at shape
  rcases shape with ⟨lines, kinds, hasGoto⟩
  rcases ofIds?_eq_some_iff.mp graphFound with ⟨listing, listed, built⟩
  rcases goto_ends_block_iff listed built found with ⟨ends, goes⟩
  have ascending := ascending_rows (Listing.positioned_of_ofIds? listed) built
    (List.mem_of_getElem? found)
  rcases List.map_eq_cons_iff.mp kinds with
    ⟨first, others, rows, firstKind, otherKinds⟩
  rcases List.map_eq_singleton_iff.mp otherKinds with ⟨second, rfl, secondKind⟩
  rw [rows] at ends goes ascending
  have stays : ∀ goto ∈ [first, second], goto.kind = .code .goto →
      ¬∃ next, listing.RunsOver goto next := by
    intro goto member kind runs
    rcases (ends goto member kind).mpr runs with ⟨later, pair, -⟩
    rcases (ascending.pair_sublist_iff goto later).mp pair with
      ⟨-, laterMember, order⟩
    have isSecond : goto = second := by
      rcases List.mem_cons.mp member with rfl | same
      · rw [firstKind] at kind
        cases kind
      · exact List.mem_singleton.mp same
    have before := ascending.head_lt (List.mem_singleton_self second)
    rw [isSecond] at order
    rcases List.mem_cons.mp laterMember with rfl | same
    · omega
    · rw [List.mem_singleton.mp same] at order
      omega
  refine ⟨listing, graph, block, listed, built, found, lines, hasGoto,
    rows ▸ stays, ?_⟩
  intro edge member source
  rcases goes hasGoto edge member source with ⟨goto, inside, kind, runs⟩
  exact stays goto inside kind runs

/-- A small method with a table right behind a goto. -/
def gotoBeforeTable : Array Line :=
  Line.ofTexts
    ["goto :b", ".packed-switch 0x0", ".end packed-switch", "nop", ":a",
      "if-eqz v0, :a", ":b", "return-void"]

/--
The goto shares its block with the instruction behind the table, and the block
goes on.
-/
theorem goto_followed_behind_table :
    ∃ listing graph block goto later,
      Listing.ofIds? gotoBeforeTable (List.range 8) = some listing ∧
      Graph.build listing = .ok graph ∧ graph.blocks[0]? = some block ∧
      [goto, later].Sublist block.rows ∧ goto.kind = .code .goto ∧
      later.isCode = true ∧
      block.marks.hasGoto = true ∧ ⟨0, 1⟩ ∈ Edge.adjacent graph.groups ∧
      block.successors = [2, 1] := by
  have run :
      ((Graph.ofIds? gotoBeforeTable (List.range 8)).bind fun graph =>
        graph.blocks[0]?.map fun block =>
          (block.rows.map fun row => (row.kind == .code .goto, row.isCode),
            block.marks.hasGoto, decide (⟨0, 1⟩ ∈ Edge.adjacent graph.groups),
            block.successors)) =
        some ([(true, true), (false, true)], true, true, [2, 1]) := by
    decide +kernel
  rcases Option.bind_eq_some_iff.mp run with ⟨graph, graphFound, rest⟩
  rcases Option.map_eq_some_iff.mp rest with ⟨block, found, shape⟩
  simp only [Prod.mk.injEq, decide_eq_true_eq] at shape
  rcases shape with ⟨kinds, hasGoto, adjacent, successors⟩
  rcases ofIds?_eq_some_iff.mp graphFound with ⟨listing, listed, built⟩
  rcases List.map_eq_cons_iff.mp kinds with
    ⟨goto, others, rows, gotoKind, otherKinds⟩
  rcases List.map_eq_singleton_iff.mp otherKinds with ⟨later, rfl, laterKind⟩
  simp only [Prod.mk.injEq, beq_iff_eq] at gotoKind laterKind
  refine ⟨listing, graph, block, goto, later, listed, built, found, ?_,
    gotoKind.1, laterKind.2, hasGoto, adjacent, successors⟩
  rw [rows]

end Graph

end SmaliFlow.Flow
