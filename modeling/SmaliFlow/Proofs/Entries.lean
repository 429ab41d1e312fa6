import SmaliFlow.Proofs.Catching
import SmaliFlow.Proofs.Resolvability

/-!
# Entries of switch tables

An entry of a packed table is a label, an entry of a sparse table a key, an
arrow and a label, and a comment may stand behind either.  One scanner reads
both forms: it looks for the first arrow of the line and then for a label.  So
the entry of a sparse table gives its own label whatever comment follows, but in
the entry of a packed table an arrow inside the comment is taken for that of a
key.

The main statement is the exact condition under which an entry names its own
label, and that in a built graph an entry leads to the row of its own label, and
to no other, under the same condition.
-/

namespace SmaliFlow

namespace SwitchTable

/-! ## Written entries -/

/--
What stands behind the label of an entry: nothing, or a blank and a comment.
-/
inductive Trailing where
  | nothing
  | comment (blank : UInt8) (isBlank : Octet.isBlank blank = true)
    (text : Bytes)

/-- The octets behind the label. -/
def Trailing.octets : Trailing → Bytes
  | nothing => []
  | comment blank _ text => blank :: 0x23 :: text

/-- What stands in front of the label in a sparse table: a key and an arrow. -/
structure Key where
  text : Bytes
  free : ¬Bytes.ofString "->" <:+: text
  gap : Scan.Blanks

/-- The octets in front of the label. -/
def Key.octets (key : Key) : Bytes :=
  key.text ++ Bytes.ofString "->" ++ key.gap.octets

/-- An entry as it is written.  In a packed table it has no key. -/
structure Entry where
  leading : Scan.Padding
  key : Option Key
  label : Label.Spelling
  trailing : Trailing

/-- The octets of an entry. -/
def Entry.octets (entry : Entry) : Bytes :=
  entry.leading.octets ++ (entry.key.map Key.octets).getD [] ++
    entry.label.octets ++
    entry.trailing.octets

/-- Behind the first arrow of the text, if it has one, stands the label. -/
def RepeatsBehindArrow (label : Label.Spelling) (text : Bytes) : Prop :=
  ∀ before after, ¬Bytes.ofString "->" <:+: before →
    text = before ++ Bytes.ofString "->" ++ after →
      ∃ (gap : Scan.Blanks) (rest : Bytes), Scan.Halts Label.isNameOctet rest ∧
        after = gap.octets ++ label.octets ++ rest

/--
The comment of the entry does not change the label that is read.  Behind a key
no comment does; without one the first arrow of the comment has to stand in
front of the same label.
-/
def Entry.Harmless (entry : Entry) : Prop :=
  entry.key = none → RepeatsBehindArrow entry.label entry.trailing.octets

theorem Trailing.halts (trailing : Trailing) :
    Scan.Halts Label.isNameOctet trailing.octets := by
  cases trailing with
  | nothing => exact Scan.halts_nil
  | comment blank isBlank text =>
      exact Scan.halts_cons (Label.isNameOctet_of_isBlank isBlank) _

/-! ## Reading an entry -/

/-- Behind an arrow the label is read exactly if it stands there. -/
theorem map_scan?_eq_some_iff (label : Label.Spelling) (after : Bytes) :
    (Label.scan? (Scan.blanks (after.rdropWhile Octet.isPadding))).map
        Prod.fst =
        some label.octets ↔
      ∃ (gap : Scan.Blanks) (rest : Bytes), Scan.Halts Label.isNameOctet rest ∧
        after = gap.octets ++ label.octets ++ rest := by
  constructor
  · intro read
    rcases Option.map_eq_some_iff.mp read with ⟨⟨name, rest⟩, scanned, same⟩
    rcases Label.scan?_eq_some_iff.mp scanned with ⟨halts, spelling, -, split⟩
    rcases Scan.exists_blanks (after.rdropWhile Octet.isPadding) with
      ⟨gap, gapSplit⟩
    let padding : Scan.Padding :=
      ⟨after.rtakeWhile Octet.isPadding, fun _ => List.mem_rtakeWhile_imp⟩
    refine ⟨gap, rest ++ padding.octets, ?_, ?_⟩
    · exact halts.append (padding.halts fun _ => Label.isNameOctet_of_isPadding)
    · have whole : after = after.rdropWhile Octet.isPadding ++ padding.octets :=
        List.rdropWhile_append_rtakeWhile.symm
      rw [whole, gapSplit, split, ← same]
      simp only [List.append_assoc]
  · rintro ⟨gap, rest, halts, rfl⟩
    have kept : Scan.Halts Label.isNameOctet
      (rest.rdropWhile Octet.isPadding) :=
      halts.of_begins (List.rdropWhile_prefix _ _)
    have ends := label.trimmed.ends_append label.octets_ne_nil gap.octets
    rw [Bytes.rdropWhile_append ends, List.append_assoc,
      Scan.blanks_append gap (label.halts (by decide) _),
      Label.scan?_append label kept]
    rfl

/--
In a sparse table the first arrow is that of the key, so the label behind it is
read.
-/
theorem scanTarget?_of_key
    (leading : Scan.Padding)
    (key : Key)
    (label : Label.Spelling)
    {tail : Bytes}
    (halts : Scan.Halts Label.isNameOctet tail) :
    scanTarget? (leading.octets ++ key.octets ++ label.octets ++ tail) =
      some (label.octets, tail.rdropWhile Octet.isPadding) := by
  -- Trimming takes away the padding that the key begins with, too.
  rcases Scan.exists_run Octet.isPadding key.text with ⟨padding, -, split⟩
  let kept := key.text.dropWhile Octet.isPadding
  have keptFree : ¬Bytes.ofString "->" <:+: kept :=
    fun occurs => key.free (occurs.trans (List.dropWhile_suffix _).isInfix)
  have before : ∀ octet ∈ leading.octets ++ padding.octets,
      Octet.isPadding octet = true := by
    intro octet member
    rcases List.mem_append.mp member with inLeading | inPadding
    · exact leading.accepted octet inLeading
    · exact padding.accepted octet inPadding
  have trimmed :
      Bytes.Trimmed (kept ++
        (Bytes.ofString "->" ++ (key.gap.octets ++ label.octets))) := by
    constructor
    · exact (Scan.halts_dropWhile _ _).append (Scan.halts_cons (by decide) _)
    · simp only [← List.append_assoc]
      exact label.trimmed.ends_append label.octets_ne_nil _
  have filled :
      kept ++ (Bytes.ofString "->" ++ (key.gap.octets ++ label.octets)) ≠ [] :=
    List.append_ne_nil_of_right_ne_nil _ (List.cons_ne_nil _ _)
  have line : Bytes.trim (leading.octets ++ key.octets ++ label.octets ++
      tail) =
      kept ++ Bytes.ofString "->" ++
        (key.gap.octets ++
          (label.octets ++ tail.rdropWhile Octet.isPadding)) := by
    have trim := trimmed.trim_append filled tail
    rw [← Bytes.trim_padding_append before] at trim
    rw [Key.octets, split]
    simpa only [List.append_assoc] using trim
  have keptHalts :=
    halts.of_begins (List.rdropWhile_prefix Octet.isPadding tail)
  simp only [scanTarget?, line, Scan.cut?_arrow keptFree,
    Scan.blanks_append key.gap (label.halts (by decide) _),
    Label.scan?_append label keptHalts]

/--
Without an arrow in the comment the label at the beginning of the line is read.
-/
theorem scanTarget?_of_absent
    (leading : Scan.Padding)
    (label : Label.Spelling)
    {tail : Bytes}
    (halts : Scan.Halts Label.isNameOctet tail)
    (absent : ¬Bytes.ofString "->" <:+: tail) :
    scanTarget? (leading.octets ++ (label.octets ++ tail)) =
      some (label.octets, tail.rdropWhile Octet.isPadding) := by
  have line : Bytes.trim (leading.octets ++ (label.octets ++ tail)) =
      label.octets ++ tail.rdropWhile Octet.isPadding := by
    rw [Bytes.trim_padding_append leading.accepted,
      label.trimmed.trim_append label.octets_ne_nil]
  have begins := List.rdropWhile_prefix Octet.isPadding tail
  have uncut :
      ¬Bytes.ofString "->" <:+: label.octets ++
        tail.rdropWhile Octet.isPadding :=
    fun occurs => absent
      ((Scan.infix_of_infix_append label.dash_notMem occurs).trans
        begins.isInfix)
  simp only [scanTarget?, line, Scan.cut?_eq_none uncut,
    Scan.blanks_of_halts (label.halts (by decide) _),
    Label.scan?_append label (halts.of_begins begins)]

/-- With an arrow in the comment the label is looked for behind the arrow. -/
theorem scanTarget?_of_arrow
    (leading : Scan.Padding)
    (label : Label.Spelling)
    {before : Bytes}
    (free : ¬Bytes.ofString "->" <:+: before)
    (after : Bytes) :
    scanTarget? (leading.octets ++
        (label.octets ++ (before ++ Bytes.ofString "->" ++ after))) =
      Label.scan? (Scan.blanks (after.rdropWhile Octet.isPadding)) := by
  have trimmed :
      Bytes.Trimmed (label.octets ++ before ++ Bytes.ofString "->") := by
    constructor
    · rw [List.append_assoc]
      exact label.halts (by decide) _
    · rw [List.reverse_append]
      exact Scan.halts_cons (by decide) _
  have filled : label.octets ++ before ++ Bytes.ofString "->" ≠ [] :=
    List.append_ne_nil_of_right_ne_nil _ (by decide)
  have line : Bytes.trim (leading.octets ++
      (label.octets ++ (before ++ Bytes.ofString "->" ++
      after))) = label.octets ++ before ++ Bytes.ofString "->" ++
        after.rdropWhile Octet.isPadding := by
    rw [Bytes.trim_padding_append leading.accepted,
      ← trimmed.trim_append filled]
    simp only [List.append_assoc]
  have first : ¬Bytes.ofString "->" <:+: label.octets ++ before :=
    fun occurs => free (Scan.infix_of_infix_append label.dash_notMem occurs)
  simp only [scanTarget?, line, Scan.cut?_arrow first]

/-- A text has at most one first arrow. -/
theorem eq_of_first_arrow
    {before after otherBefore otherAfter : Bytes}
    (free : ¬Bytes.ofString "->" <:+: before)
    (otherFree : ¬Bytes.ofString "->" <:+: otherBefore)
    (same : before ++ Bytes.ofString "->" ++ after =
      otherBefore ++ Bytes.ofString "->" ++ otherAfter) :
    after = otherAfter := by
  have cut := Scan.cut?_arrow free after
  rw [same, Scan.cut?_arrow otherFree] at cut
  cases cut
  rfl

theorem scanTarget?_trim (line : Bytes) :
    scanTarget? line.trim = scanTarget? line := by
  rw [scanTarget?, (Bytes.trimmed_trim line).trim_eq, scanTarget?]

/-- An entry is read as its own label exactly if its comment is harmless. -/
theorem map_scanTarget?_eq_some_iff (entry : Entry) :
    (scanTarget? entry.octets).map Prod.fst = some entry.label.octets ↔
      entry.Harmless := by
  rcases entry with ⟨leading, key, label, trailing⟩
  cases key with
  | some key =>
      have read := scanTarget?_of_key leading key label trailing.halts
      rw [Entry.octets, Option.map_some, Option.getD_some, read]
      exact iff_of_true rfl fun packed => nomatch packed
  | none =>
      have octets : Entry.octets ⟨leading, none, label, trailing⟩ =
          leading.octets ++ (label.octets ++ trailing.octets) := by
        rw [Entry.octets, Option.map_none, Option.getD_none, List.append_nil,
          List.append_assoc]
      rw [octets]
      by_cases occurs : Bytes.ofString "->" <:+: trailing.octets
      · rcases Scan.exists_first_of_infix (by decide) occurs with
          ⟨before, after, split, first⟩
        have free : ¬Bytes.ofString "->" <:+: before :=
          fun inside => first (inside.trans (List.prefix_append _ _).isInfix)
        rw [split, scanTarget?_of_arrow leading label free,
          map_scan?_eq_some_iff]
        constructor
        · intro repeats packed other otherAfter otherFree same
          rwa [← eq_of_first_arrow free otherFree (split.symm.trans same)]
        · intro harmless
          exact harmless rfl before after free split
      · rw [scanTarget?_of_absent leading label trailing.halts occurs]
        refine iff_of_true rfl ?_
        intro packed before after free split
        exact absurd ⟨before, after, split.symm⟩ occurs

end SwitchTable

/-! ## The edge of an entry -/

namespace Flow

namespace Listing

variable {listing : Listing}

theorem Resolves.name_unique
    {left right : Bytes}
    {row : Row}
    (leftResolves : listing.Resolves left row)
    (rightResolves : listing.Resolves right row) :
    left = right := by
  have same := leftResolves.carries.2.symm.trans rightResolves.carries.2
  cases same
  rfl

/-- In a table that can be read every entry leads to a row. -/
theorem HasEntry.exists_target
    (positioned : listing.Positioned)
    {label entry : Row}
    (reads : listing.ReadsTable label)
    (hasEntry : listing.HasEntry label entry) :
    ∃ target, listing.EntryLeadsTo entry target := by
  rcases reads with ⟨opener, closer, table, resolves⟩
  rcases hasEntry.inside with ⟨other, opens, after, inside⟩
  cases table.opens.unique positioned opens
  refine resolves entry hasEntry.member after ?_ hasEntry.holdsTarget
  by_contra late
  have closes := (inside closer table.member table.after (by omega)).2
  rw [table.closes] at closes
  cases closes

/--
An entry that leads to a row leads to that of the label it is read as, and to no
other.
-/
theorem exists_only_target_iff
    (positioned : listing.Positioned)
    {entry : Row}
    (leads : ∃ target, listing.EntryLeadsTo entry target)
    (name : Bytes) :
    (∃ target, listing.Resolves name target ∧
        ∀ row, listing.EntryLeadsTo entry row ↔ row = target) ↔
      (SwitchTable.scanTarget? entry.text).map Prod.fst = some name := by
  constructor
  · rintro ⟨target, resolves, only⟩
    rcases (only target).mpr rfl with ⟨other, rest, scanned, otherResolves⟩
    rw [scanned, Option.map_some, otherResolves.name_unique resolves]
  · intro read
    rcases leads with ⟨target, other, rest, scanned, resolves⟩
    rw [scanned, Option.map_some, Option.some.injEq] at read
    subst read
    refine ⟨target, resolves, ?_⟩
    intro row
    constructor
    · rintro ⟨again, _, rescanned, rowResolves⟩
      rw [scanned] at rescanned
      cases rescanned
      exact rowResolves.unique positioned resolves
    · rintro rfl
      exact ⟨_, rest, scanned, resolves⟩

end Listing

namespace Graph

variable {listing : Listing} {graph : Graph} {index : Nat} {source : Block}

/--
The entry leads to the row with the given label and to no other row, and the
block has an edge to the block of that row.
-/
def HasEntryEdge
    (listing : Listing)
    (graph : Graph)
    (source : Block)
    (entry : Row)
    (name : Bytes) : Prop :=
  ∃ target other block, listing.Resolves name target ∧
    (∀ row, listing.EntryLeadsTo entry row ↔ row = target) ∧
    graph.blocks[other]? = some block ∧ target ∈ block.rows ∧
      other ∈ source.successors

/-- A block that switches to a row has an edge to the block of that row. -/
theorem exists_edge_of_switchesTo
    (positioned : listing.Positioned)
    (built : Graph.build listing = .ok graph)
    (found : graph.blocks[index]? = some source)
    {row target : Row}
    (member : row ∈ source.rows)
    (kind : row.kind = .code .switch)
    (switches : listing.SwitchesTo row target) :
    ∃ other block, graph.blocks[other]? = some block ∧ target ∈ block.rows ∧
      other ∈ source.successors := by
  have inside : target ∈ graph.groups.flatten := by
    rw [flatten_groups_of_mem_blocks positioned built
      (List.mem_of_getElem? found)]
    exact switches.mem_body
  rcases exists_block_of_mem_flatten inside with
    ⟨other, block, otherFound, lands⟩
  exact ⟨other, block, otherFound, lands,
    mem_successors_of_passage positioned built found
    otherFound (.switch member kind switches lands)⟩

/-- In a graph an entry has its edge exactly if it is read as its own label. -/
theorem hasEntryEdge_iff
    (positioned : listing.Positioned)
    (built : Graph.build listing = .ok graph)
    (found : graph.blocks[index]? = some source)
    {row label entry : Row}
    (member : row ∈ source.rows)
    (kind : row.kind = .code .switch)
    (jumps : listing.JumpsTo row label)
    (hasEntry : listing.HasEntry label entry)
    (name : Bytes) :
    HasEntryEdge listing graph source entry name ↔
      (SwitchTable.scanTarget? entry.text).map Prod.fst = some name := by
  have resolvable := (exists_build_iff_resolvable positioned).mp ⟨graph, built⟩
  have body := mem_body_of_mem_rows built (List.mem_of_getElem? found) member
  rcases resolvable.switches row body kind with ⟨other, otherJumps, reads⟩
  cases jumps.unique positioned otherJumps
  rw [← Listing.exists_only_target_iff positioned
    (hasEntry.exists_target positioned reads)]
  constructor
  · rintro ⟨target, _, _, resolves, only, -⟩
    exact ⟨target, resolves, only⟩
  · rintro ⟨target, resolves, only⟩
    have switches : listing.SwitchesTo row target :=
      ⟨label, entry, jumps, hasEntry, (only target).mpr rfl⟩
    rcases exists_edge_of_switchesTo positioned built found member
        kind switches with
      ⟨index, block, edge⟩
    exact ⟨target, index, block, resolves, only, edge⟩

end Graph

end Flow

/-! ## Entries that name their own label -/

namespace SwitchTable

open SmaliFlow.Flow

/--
An entry is read as its own label exactly if its comment is harmless, and in the
graph of a method with a line of that text in a table it leads to the row of its
own label, to no other row, and gives the block of the switch the edge there,
under the same condition.
-/
theorem entry_names_label_iff_harmless (entry : Entry) :
    ((scanTarget? entry.octets).map Prod.fst = some entry.label.octets ↔
      entry.Harmless) ∧
    ∀ (lines : Array Line) (ids : List Nat) (listing : Listing) (graph : Graph)
      (index : Nat)
      (source : Block) (row label entryRow : Row),
      Listing.ofIds? lines ids = some listing →
        Graph.build listing = .ok graph →
      graph.blocks[index]? = some source → row ∈ source.rows →
        row.kind = .code .switch →
      listing.JumpsTo row label → listing.HasEntry label entryRow →
      entryRow.text = entry.octets.trim →
        (Graph.HasEntryEdge listing graph source entryRow entry.label.octets ↔
          entry.Harmless) := by
  refine ⟨map_scanTarget?_eq_some_iff entry, ?_⟩
  intro lines ids listing graph index source row label entryRow listed built
    found member kind
    jumps hasEntry text
  rw [Graph.hasEntryEdge_iff (Listing.positioned_of_ofIds? listed) built found
    member kind jumps
    hasEntry, text, scanTarget?_trim, map_scanTarget?_eq_some_iff]

/-- An entry of a sparse table with another entry in its comment. -/
def recommented : Entry where
  leading := ⟨[0x20, 0x09], by decide +kernel⟩
  key := some ⟨Bytes.ofString "0x5 ", by
    decide +kernel, ⟨[0x20], by decide +kernel⟩⟩
  label := ⟨⟨⟨Bytes.ofString "b", by decide +kernel⟩, by decide +kernel⟩⟩
  trailing := .comment 0x20 (by decide +kernel) (Bytes.ofString " was -> :a")

/-- A small method with that entry in its table. -/
def switchingMethod : Array Line :=
  Line.ofTexts
    ["sparse-switch v0, :t", "return-void", ":a", "nop", ":b", "return-void",
      ":t", ".sparse-switch", " \t0x5 -> :b # was -> :a", ".end sparse-switch"]

/-- The entry keeps its label and its edge. -/
theorem entry_names_label_of_recommented :
    recommented.Harmless ∧
    (scanTarget? recommented.octets).map Prod.fst = some [0x3a, 0x62] ∧
    ∃ listing graph source row label entryRow,
      Listing.ofIds? switchingMethod (List.range 10) = some listing ∧
      Graph.build listing = .ok graph ∧ graph.blocks[0]? = some source ∧
      row ∈ source.rows ∧
      row.kind = .code .switch ∧ listing.JumpsTo row label ∧
      listing.HasEntry label entryRow ∧
      entryRow.text = recommented.octets.trim ∧
      Graph.HasEntryEdge listing graph source entryRow [0x3a, 0x62] := by
  have harmless : recommented.Harmless := by
    intro packed
    cases packed
  refine ⟨harmless, (entry_names_label_iff_harmless recommented).1.mpr harmless,
    ?_⟩
  let row := Listing.rowOf none 0 0
    (Line.ofText (Bytes.ofString "sparse-switch v0, :t") 1)
  let label := Listing.rowOf none 6 6 (Line.ofText (Bytes.ofString ":t") 7)
  let opener :=
    Listing.rowOf none 7 7 (Line.ofText (Bytes.ofString ".sparse-switch") 8)
  let entryRow :=
    Listing.rowOf (some .sparse) 8 8 (Line.ofText recommented.octets 9)
  have run : ((Graph.ofIds? switchingMethod (List.range 10)).bind fun graph =>
      graph.blocks[0]?.map fun block => decide (row ∈ block.rows)) =
        some true := by
    decide +kernel
  have facts :
      (Listing.ofIds? switchingMethod (List.range 10)).map (fun listing =>
        decide ((label ∈ listing ∧ opener ∈ listing ∧ entryRow ∈ listing) ∧
          (∀ other ∈ listing, other.inTable = false ∧
            other.instruction = .label (some (Bytes.ofString ":t")) →
              label.position ≤ other.position) ∧
          ∀ other ∈ listing, opener.position < other.position →
            other.position ≤ entryRow.position →
              other.inTable = true ∧ other.closesTable = false)) =
                some true := by
    decide +kernel
  rcases Option.bind_eq_some_iff.mp run with ⟨graph, built, rest⟩
  rcases Option.map_eq_some_iff.mp rest with ⟨source, found, member⟩
  rcases Graph.ofIds?_eq_some_iff.mp built with ⟨listing, listed, built⟩
  rw [listed, Option.map_some, Option.some.injEq, decide_eq_true_eq] at facts
  rcases facts with ⟨⟨labelMember, openerMember, entryMember⟩, first, inside⟩
  have jumps : listing.JumpsTo row label :=
    ⟨Bytes.ofString ":t", by
      decide +kernel, labelMember, ⟨by decide +kernel, by decide +kernel⟩,
      first⟩
  have opens : listing.Opens label opener := by
    refine ⟨openerMember, by decide +kernel, by decide +kernel, ?_⟩
    intro other _ after before
    change 6 < other.position at after
    change other.position < 7 at before
    omega
  have hasEntry : listing.HasEntry label entryRow :=
    ⟨entryMember, by decide +kernel, opener, opens, by decide +kernel, inside⟩
  have kind : row.kind = .code .switch := by decide +kernel
  refine ⟨listing, graph, source, row, label, entryRow, listed, built, found,
    of_decide_eq_true member, kind, jumps, hasEntry, rfl, ?_⟩
  exact ((entry_names_label_iff_harmless recommented).2 _ _ _ _ _ _ _ _ _
    listed built found
    (of_decide_eq_true member) kind jumps hasEntry rfl).mpr harmless

/-- An entry of a packed table with an arrow in its comment. -/
def arrowComment : Entry where
  leading := ⟨[], by decide +kernel⟩
  key := none
  label := ⟨⟨⟨Bytes.ofString "pswitch_0", by decide +kernel⟩, by
    decide +kernel⟩⟩
  trailing := .comment 0x20 (by decide +kernel)
    (Bytes.ofString " case 1 -> next")

/--
The label in front of the comment is lost, and with it the graph of the method.
-/
theorem label_lost_behind_arrowComment :
    ¬arrowComment.Harmless ∧ scanTarget? arrowComment.octets = none ∧
    (Listing.ofIds?
        (Line.ofTexts
          ["packed-switch v0, :t", "return-void", ":pswitch_0", "return-void",
            ":t", ".packed-switch 0x1", ":pswitch_0 # case 1 -> next",
            ".end packed-switch"])
        (List.range 8)).map (fun listing =>
          (Graph.build listing).toOption.isNone) =
      some true := by
  have lost : scanTarget? arrowComment.octets = none := by decide +kernel
  refine ⟨?_, lost, by decide +kernel⟩
  rw [← map_scanTarget?_eq_some_iff, lost]
  intro read
  cases read

end SwitchTable

end SmaliFlow
