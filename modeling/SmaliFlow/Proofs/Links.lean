import Mathlib.Data.List.Forall2
import SmaliFlow.Flow.Layout
import SmaliFlow.Proofs.Control

/-!
# Links of a layout

When a method can be laid out, its links are exactly the passages of control
that its rows describe: jumps and switches lead to their resolved labels,
conditional branches also to the following row, and every directive leads from
the last protected row of its range to the handler and to the row where control
goes on.

The layout is opened once, into the links and directives it was made from.
-/

namespace SmaliFlow.Flow

/-! ## Outcomes that succeed -/

theorem bind_eq_ok_iff
    {ε α β : Type}
    {outcome : Except ε α}
    {next : α → Except ε β}
    {result : β} :
    outcome >>= next = .ok result ↔
      ∃ value, outcome = .ok value ∧ next value = .ok result := by
  cases outcome with
  | error cause => simp [bind, Except.bind]
  | ok value => simp [bind, Except.bind]

theorem mapM_eq_ok_iff
    {ε α β : Type}
    (function : α → Except ε β)
    (values : List α)
    (results : List β) :
    values.mapM function = .ok results ↔
      List.Forall₂ (fun value result => function value = .ok result)
        values results := by
  induction values generalizing results with
  | nil =>
      simp only [List.mapM_nil, pure, Except.pure, Except.ok.injEq,
        List.forall₂_nil_left_iff]
      exact eq_comm
  | cons value values ih =>
      rw [List.mapM_cons, bind_eq_ok_iff, List.forall₂_cons_left_iff]
      constructor
      · rintro ⟨first, applied, rest⟩
        rcases bind_eq_ok_iff.mp rest with ⟨others, mapped, returned⟩
        cases returned
        exact ⟨first, others, applied, (ih others).mp mapped, rfl⟩
      · rintro ⟨first, others, applied, related, rfl⟩
        refine ⟨first, applied, ?_⟩
        exact bind_eq_ok_iff.mpr ⟨others, (ih others).mpr related, rfl⟩

/-- What a successful pass over a list gives, element by element. -/
theorem mem_iff_of_mapM_eq_ok
    {ε α β : Type}
    {function : α → Except ε β}
    {values : List α}
    {results : List β}
    (mapped : values.mapM function = .ok results)
    (result : β) :
    result ∈ results ↔ ∃ value ∈ values, function value = .ok result := by
  rw [mapM_eq_ok_iff] at mapped
  induction mapped with
  | nil => simp
  | cons applied _ ih =>
      rw [List.mem_cons, ih, List.exists_mem_cons_iff, applied, Except.ok.injEq,
        eq_comm]

theorem exists_of_mapM_eq_ok
    {ε α β : Type}
    {function : α → Except ε β}
    {values : List α}
    {results : List β}
    (mapped : values.mapM function = .ok results)
    {value : α}
    (member : value ∈ values) :
    ∃ result ∈ results, function value = .ok result := by
  rw [mapM_eq_ok_iff] at mapped
  induction mapped with
  | nil => simp at member
  | cons applied _ ih =>
      rcases List.mem_cons.mp member with rfl | later
      · exact ⟨_, List.mem_cons_self, applied⟩
      · rcases ih later with ⟨result, resultMember, resultApplied⟩
        exact ⟨result, List.mem_cons_of_mem _ resultMember, resultApplied⟩

/-! ## Branches of a row -/

/--
Control may pass from a row to another by the instruction of the row itself.
-/
inductive Listing.Branches (listing : Listing) (source : Row) :
    (target : Row) → (cuts : Bool) → Prop where
  | jump
      {target : Row}
      (kind : source.kind = .code .goto ∨ source.kind = .code .branch)
      (jumps : listing.JumpsTo source target) :
      Branches listing source target true
  | fallThrough
      {target : Row}
      (kind : source.kind = .code .branch)
      (member : target ∈ listing)
      (next : target.position = source.position + 1) :
      Branches listing source target false
  | switch
      {target : Row}
      (kind : source.kind = .code .switch)
      (switches : listing.SwitchesTo source target) :
      Branches listing source target true

/--
Control may pass from a row to another; a passage that cuts begins a block.
-/
inductive Listing.Leads (listing : Listing) :
    (source target : Row) → (cuts : Bool) → Prop where
  | branch
      {source target : Row}
      {cuts : Bool}
      (member : source ∈ listing.body)
      (branches : listing.Branches source target cuts) :
      Leads listing source target cuts
  | leave
      {guard : Guard}
      {source target : Row}
      (guards : listing.HasGuard guard)
      (last : listing.IsLastProtected guard.first guard.last source)
      (continues : listing.Continues guard.last target) :
      Leads listing source target true
  | handle
      {guard : Guard}
      {source : Row}
      (guards : listing.HasGuard guard)
      (last : listing.IsLastProtected guard.first guard.last source) :
      Leads listing source guard.handler true

namespace Index

variable {listing : Listing}

theorem resolve_eq_ok_iff
    (positioned : listing.Positioned)
    (name : Bytes)
    (row : Row) :
    (ofListing listing).resolve name = .ok row ↔ listing.Resolves name row := by
  rw [resolve_ofListing, Listing.resolve_eq_ok_iff positioned]

theorem jumpTarget_eq_ok_iff
    (positioned : listing.Positioned)
    (row target : Row) :
    (ofListing listing).jumpTarget row = .ok target ↔
      listing.JumpsTo row target := by
  unfold jumpTarget Listing.JumpsTo
  cases row.instruction.label? with
  | none => simp
  | some name => simp [Listing.resolve_eq_ok_iff positioned]

theorem next?_eq_some_iff (positioned : listing.Positioned) (row target : Row) :
    (ofListing listing).next? row = some target ↔
      target ∈ listing ∧ target.position = row.position + 1 := by
  rw [next?_ofListing, Listing.after, List.head?_drop]
  constructor
  · intro found
    exact ⟨List.mem_of_getElem? found, positioned _ target found⟩
  · rintro ⟨member, next⟩
    rw [← next]
    exact positioned.getElem?_position member

/-! ## Targets of a table -/

theorem tableTarget_eq_ok_iff
    (positioned : listing.Positioned)
    (entry target : Row) :
    (ofListing listing).tableTarget entry = .ok target ↔
      listing.EntryLeadsTo entry target := by
  unfold tableTarget Listing.EntryLeadsTo
  cases SwitchTable.scanTarget? entry.text with
  | none => simp
  | some scanned =>
      rcases scanned with ⟨name, rest⟩
      simp [Listing.resolve_eq_ok_iff positioned]

/-- What a table whose targets can be read consists of. -/
theorem exists_of_tableTargets_eq_ok
    {label : Row}
    {targets : List Row}
    (read : (ofListing listing).tableTargets label = .ok targets) :
    ∃ opener rows found,
      (listing.after label).dropWhile Row.mayPrecedeTable = opener :: rows ∧
      opener.inTable = true ∧
      ((rows.takeWhile fun row => row.inTable && !row.closesTable).filter
        Row.holdsTarget).mapM (ofListing listing).tableTarget = .ok found ∧
      targets = found.eraseDups := by
  unfold tableTargets at read
  rw [listing_ofListing] at read
  split at read
  · cases read
  · rename_i opener rows dropped
    split at read
    · rename_i inTable
      rcases bind_eq_ok_iff.mp read with ⟨found, mapped, closed⟩
      refine ⟨opener, rows, found, dropped, inTable, mapped, ?_⟩
      split at closed
      · split at closed
        · cases closed
          rfl
        · cases closed
      · cases closed
    · cases read

theorem mem_iff_of_tableTargets_eq_ok
    (positioned : listing.Positioned)
    {label : Row}
    {targets : List Row}
    (read : (ofListing listing).tableTargets label = .ok targets)
    (target : Row) :
    target ∈ targets ↔
      ∃ entry,
        listing.HasEntry label entry ∧ listing.EntryLeadsTo entry target := by
  rcases exists_of_tableTargets_eq_ok read with
    ⟨opener, rows, found, dropped, inTable, mapped, rfl⟩
  have suffix : (opener :: rows) <:+ listing := by
    rw [← dropped]
    exact (List.dropWhile_suffix _).trans (List.drop_suffix _ _)
  rcases suffix with ⟨front, joined⟩
  have split := joined.symm
  have behind := positioned.mem_back_iff split
  have ascending : Ascending rows :=
    positioned.ascending.sublist (by rw [split]; simp)
  have opens : listing.Opens label opener :=
    (Listing.opens_iff positioned label opener).mpr
      ⟨by rw [dropped]; rfl, inTable⟩
  have entries (entry : Row) :
      entry ∈ (rows.takeWhile fun row => row.inTable && !row.closesTable).filter
          Row.holdsTarget ↔
        listing.HasEntry label entry := by
    rw [List.mem_filter, ascending.mem_takeWhile_iff]
    simp only [behind, Bool.and_eq_true, Bool.not_eq_true']
    constructor
    · rintro ⟨⟨⟨member, after⟩, inside⟩, holds⟩
      refine ⟨member, holds, opener, opens, after, ?_⟩
      intro row rowMember rowAfter
      exact inside row ⟨rowMember, rowAfter⟩
    · rintro ⟨member, holds, other, otherOpens, after, inside⟩
      rcases opens.unique positioned otherOpens with rfl
      refine ⟨⟨⟨member, after⟩, ?_⟩, holds⟩
      rintro row ⟨rowMember, rowAfter⟩
      exact inside row rowMember rowAfter
  rw [List.mem_eraseDups, mem_iff_of_mapM_eq_ok mapped]
  simp only [entries, tableTarget_eq_ok_iff positioned]

theorem mem_iff_of_switchTargets_eq_ok
    (positioned : listing.Positioned)
    {row : Row}
    {name : Bytes}
    {targets : List Row}
    (operand : row.instruction.label? = some name)
    (read : (ofListing listing).switchTargets name = .ok targets)
    (target : Row) :
    target ∈ targets ↔ listing.SwitchesTo row target := by
  rcases bind_eq_ok_iff.mp read with ⟨label, resolved, tableRead⟩
  rw [resolve_eq_ok_iff positioned] at resolved
  have jumps : listing.JumpsTo row label := ⟨name, operand, resolved⟩
  rw [mem_iff_of_tableTargets_eq_ok positioned tableRead]
  constructor
  · rintro ⟨entry, hasEntry, leads⟩
    exact ⟨label, entry, jumps, hasEntry, leads⟩
  · rintro ⟨other, entry, otherJumps, hasEntry, leads⟩
    rcases jumps.unique positioned otherJumps with rfl
    exact ⟨entry, hasEntry, leads⟩

/-! ## Links of a row -/

theorem mem_iff_of_rowLinks_eq_ok
    (positioned : listing.Positioned)
    {row : Row}
    {links : List Link}
    (linked : (ofListing listing).rowLinks (ofListing listing).switchTargets
      row = .ok links)
    (link : Link) :
    link ∈ links ↔
      link.source = row ∧ listing.Branches row link.target link.cuts := by
  rcases link with ⟨source, target, cuts⟩
  unfold rowLinks at linked
  split at linked
  · rename_i kind
    rcases bind_eq_ok_iff.mp linked with ⟨found, jumped, returned⟩
    cases returned
    rw [jumpTarget_eq_ok_iff positioned] at jumped
    rw [List.mem_singleton, Link.mk.injEq]
    constructor
    · rintro ⟨rfl, rfl, rfl⟩
      exact ⟨rfl, .jump (Or.inl kind) jumped⟩
    · rintro ⟨rfl, branches⟩
      cases branches with
      | jump _ jumps => exact ⟨rfl, jumps.unique positioned jumped, rfl⟩
      | fallThrough other => simp [kind] at other
      | switch other => simp [kind] at other
  · rename_i kind
    rcases bind_eq_ok_iff.mp linked with ⟨found, jumped, returned⟩
    cases returned
    rw [jumpTarget_eq_ok_iff positioned] at jumped
    simp only [List.mem_cons, List.mem_map, Option.mem_toList, Link.mk.injEq,
      next?_eq_some_iff positioned]
    constructor
    · rintro (⟨rfl, rfl, rfl⟩ | ⟨next, ⟨member, position⟩, rfl, rfl, rfl⟩)
      · exact ⟨rfl, .jump (Or.inr kind) jumped⟩
      · exact ⟨rfl, .fallThrough kind member position⟩
    · rintro ⟨rfl, branches⟩
      cases branches with
      | jump _ jumps => exact Or.inl ⟨rfl, jumps.unique positioned jumped, rfl⟩
      | fallThrough _ member position =>
          exact Or.inr ⟨target, ⟨member, position⟩, rfl, rfl, rfl⟩
      | switch other => simp [kind] at other
  · rename_i kind
    split at linked
    · rename_i name operand
      rcases bind_eq_ok_iff.mp linked with ⟨targets, read, returned⟩
      cases returned
      simp only [List.mem_map, Link.mk.injEq,
        mem_iff_of_switchTargets_eq_ok positioned operand read]
      constructor
      · rintro ⟨found, switches, rfl, rfl, rfl⟩
        exact ⟨rfl, .switch kind switches⟩
      · rintro ⟨rfl, branches⟩
        cases branches with
        | jump other => simp [kind] at other
        | fallThrough other => simp [kind] at other
        | switch _ switches => exact ⟨target, switches, rfl, rfl, rfl⟩
    · cases linked
  · rename_i notGoto notBranch notSwitch
    cases linked
    constructor
    · intro member
      simp at member
    · rintro ⟨rfl, branches⟩
      cases branches with
      | jump kind =>
          rcases kind with goto | branch
          · exact (notGoto goto).elim
          · exact (notBranch branch).elim
      | fallThrough kind => exact (notBranch kind).elim
      | switch kind => exact (notSwitch kind).elim

theorem mem_iff_of_branchLinks_eq_ok
    (positioned : listing.Positioned)
    {links : List Link}
    (linked : (ofListing listing).branchLinks = .ok links)
    (link : Link) :
    link ∈ links ↔
      link.source ∈ listing.body ∧
        listing.Branches link.source link.target link.cuts := by
  rw [branchLinks_eq, listing_ofListing] at linked
  cases mapped : listing.body.mapM
      ((ofListing listing).rowLinks (ofListing listing).switchTargets) with
  | error cause => rw [mapped] at linked; cases linked
  | ok parts =>
      rw [mapped] at linked
      cases linked
      rw [List.mem_flatten]
      constructor
      · rintro ⟨part, partMember, member⟩
        rcases (mem_iff_of_mapM_eq_ok mapped part).mp partMember with
          ⟨row, rowMember, partLinked⟩
        rcases (mem_iff_of_rowLinks_eq_ok positioned partLinked link).mp
            member with
          ⟨rfl, branches⟩
        exact ⟨rowMember, branches⟩
      · rintro ⟨rowMember, branches⟩
        rcases exists_of_mapM_eq_ok mapped rowMember with
          ⟨part, partMember, partLinked⟩
        refine ⟨part, partMember, ?_⟩
        exact (mem_iff_of_rowLinks_eq_ok positioned partLinked link).mpr
          ⟨rfl, branches⟩

/-! ## Directives -/

theorem resolveGuard_eq_ok_iff
    (positioned : listing.Positioned)
    (row : Row)
    (directive : CatchDirective)
    (guard : Guard) :
    (ofListing listing).resolveGuard row directive = .ok guard ↔
      (listing.Resolves directive.first guard.first ∧
        listing.Resolves directive.last guard.last ∧
        listing.Resolves directive.handler guard.handler) ∧
      guard.first.position ≤ guard.last.position := by
  simp only [resolveGuard, bind_eq_ok_iff, resolve_eq_ok_iff positioned]
  constructor
  · rintro ⟨first, firstResolves, last, lastResolves, handler, handlerResolves,
      checked⟩
    split at checked
    · cases checked
      exact ⟨⟨firstResolves, lastResolves, handlerResolves⟩, by assumption⟩
    · cases checked
  · rintro ⟨⟨firstResolves, lastResolves, handlerResolves⟩, ordered⟩
    refine ⟨_, firstResolves, _, lastResolves, _, handlerResolves, ?_⟩
    rw [if_pos ordered]
    rfl

theorem mem_directives_iff (row : Row) (directive : CatchDirective) :
    (row, directive) ∈ listing.filterMap (fun row =>
        row.instruction.guard?.map fun directive => (row, directive)) ↔
      row ∈ listing ∧ row.instruction = .guard directive := by
  have written (instruction : Instruction) :
      instruction.guard? = some directive ↔ instruction = .guard directive := by
    cases instruction <;> simp [Instruction.guard?]
  simp only [List.mem_filterMap, Option.map_eq_some_iff, Prod.mk.injEq]
  constructor
  · rintro ⟨row, member, directive, found, rfl, rfl⟩
    exact ⟨member, (written _).mp found⟩
  · rintro ⟨member, instruction⟩
    exact ⟨row, member, directive, (written _).mpr instruction, rfl, rfl⟩

theorem mem_iff_of_guards_eq_ok
    (positioned : listing.Positioned)
    {guards : List Guard}
    (resolved : (ofListing listing).guards = .ok guards)
    (guard : Guard) :
    guard ∈ guards ↔ listing.HasGuard guard := by
  rw [Index.guards, listing_ofListing] at resolved
  rw [mem_iff_of_mapM_eq_ok resolved]
  constructor
  · rintro ⟨⟨row, directive⟩, member, found⟩
    rcases (mem_directives_iff row directive).mp member with
      ⟨rowMember, instruction⟩
    have resolves :=
      ((resolveGuard_eq_ok_iff positioned row directive guard).mp found).1
    exact ⟨row, rowMember, directive, instruction, resolves⟩
  · rintro ⟨row, rowMember, directive, instruction, first, last, handler⟩
    have member :=
      (mem_directives_iff row directive).mpr ⟨rowMember, instruction⟩
    rcases exists_of_mapM_eq_ok resolved member with ⟨other, -, found⟩
    refine ⟨(row, directive), member, ?_⟩
    rcases (resolveGuard_eq_ok_iff positioned row directive other).mp found with
      ⟨⟨otherFirst, otherLast, otherHandler⟩, -⟩
    have same : other = guard := by
      cases other
      cases guard
      rw [Guard.mk.injEq]
      exact ⟨otherFirst.unique positioned first,
        otherLast.unique positioned last,
        otherHandler.unique positioned handler⟩
    exact same ▸ found

theorem ordered_of_guards_eq_ok
    (positioned : listing.Positioned)
    {guards : List Guard}
    (resolved : (ofListing listing).guards = .ok guards)
    {guard : Guard}
    (member : guard ∈ guards) :
    guard.first.position ≤ guard.last.position := by
  rw [Index.guards, listing_ofListing] at resolved
  rcases (mem_iff_of_mapM_eq_ok resolved guard).mp member with
    ⟨⟨row, directive⟩, -, found⟩
  exact ((resolveGuard_eq_ok_iff positioned row directive guard).mp found).2

/--
Some range has the handler and the given bounds if some directive gives them.
-/
theorem exists_mem_guardedRanges_iff
    (guards : List Guard)
    (handler : Row)
    (bounds : Row → Row → Prop) :
    (∃ range ∈ (ofListing listing).guardedRanges guards,
        handler ∈ range.handlers ∧ bounds range.first range.lastProtected) ↔
      ∃ guard ∈ guards, guard.handler = handler ∧
        bounds guard.first (listing.lastProtected guard.first guard.last) := by
  simp only [guardedRanges, List.mem_map, List.mem_eraseDups]
  constructor
  · rintro ⟨range, ⟨⟨first, last⟩, -, rfl⟩, handlerMember, bounded⟩
    simp only [List.mem_eraseDups, List.mem_map, List.mem_filter,
      Bool.and_eq_true, beq_iff_eq] at handlerMember
    rcases handlerMember with ⟨guard, ⟨member, rfl, rfl⟩, rfl⟩
    rw [GuardedRange.lastProtected, exit_ofListing] at bounded
    exact ⟨guard, member, rfl, bounded⟩
  · rintro ⟨guard, member, rfl, bounded⟩
    refine ⟨_, ⟨(guard.first, guard.last), ⟨guard, member, rfl⟩, rfl⟩, ?_, ?_⟩
    · simp only [List.mem_eraseDups, List.mem_map, List.mem_filter,
        Bool.and_eq_true, beq_iff_eq]
      exact ⟨guard, ⟨member, rfl, rfl⟩, rfl⟩
    · rw [GuardedRange.lastProtected, exit_ofListing]
      exact bounded

end Index

/-! ## Layouts -/

namespace Layout

variable {listing : Listing} {layout : Layout}

/-- What a layout has been made from. -/
structure Origin (listing : Listing) (layout : Layout) (guards : List Guard) :
    Prop where
  resolved : (Index.ofListing listing).guards = .ok guards
  ranges : layout.ranges = (Index.ofListing listing).guardedRanges guards
  groups : layout.groups = groupsOf listing layout.links
  links : ∃ branchLinks,
    (Index.ofListing listing).branchLinks = .ok branchLinks ∧
    layout.links = branchLinks ++ guards.flatMap fun guard =>
      guard.links (listing.exit guard.first guard.last)

theorem exists_origin (laid : ofListing listing = .ok layout) :
    ∃ guards, Origin listing layout guards := by
  rcases bind_eq_ok_iff.mp laid with ⟨branchLinks, branches, rest⟩
  rcases bind_eq_ok_iff.mp rest with ⟨guards, resolved, returned⟩
  cases returned
  refine ⟨guards, resolved, rfl, rfl, branchLinks, branches, ?_⟩
  simp only [Index.exitOf_guardedRanges, Index.exit_ofListing]

theorem Origin.hasGuard_iff
    {guards : List Guard}
    (positioned : listing.Positioned)
    (origin : Origin listing layout guards)
    (guard : Guard) :
    guard ∈ guards ↔ listing.HasGuard guard :=
  Index.mem_iff_of_guards_eq_ok positioned origin.resolved guard

theorem mem_guardLinks_iff
    (positioned : listing.Positioned)
    (guard : Guard)
    (link : Link) :
    link ∈ guard.links (listing.exit guard.first guard.last) ↔
      listing.IsLastProtected guard.first guard.last link.source ∧
        (listing.Continues guard.last link.target ∨
          link.target = guard.handler) ∧
        link.cuts = true := by
  rcases link with ⟨source, target, cuts⟩
  simp only [Guard.links, Listing.exit, List.mem_map, List.mem_append,
    Option.mem_toList, List.mem_singleton, Link.mk.injEq,
    Listing.continuation?_eq_some_iff positioned,
    ← Listing.lastProtected_eq_iff positioned]
  constructor
  · rintro ⟨found, goes, rfl, rfl, rfl⟩
    exact ⟨rfl, goes, rfl⟩
  · rintro ⟨rfl, goes, rfl⟩
    exact ⟨target, goes, rfl, rfl, rfl⟩

/-- The links of a layout are the passages of control that the rows describe. -/
theorem mem_links_iff
    (positioned : listing.Positioned)
    (laid : ofListing listing = .ok layout)
    (link : Link) :
    link ∈ layout.links ↔ listing.Leads link.source link.target link.cuts := by
  rcases exists_origin laid with ⟨guards, origin⟩
  rcases origin.links with ⟨branchLinks, branches, links⟩
  rw [links, List.mem_append, List.mem_flatMap,
    Index.mem_iff_of_branchLinks_eq_ok positioned branches]
  simp only [mem_guardLinks_iff positioned, origin.hasGuard_iff positioned]
  constructor
  · rintro (⟨member, branches⟩ | ⟨guard, guards, last, goes, cuts⟩)
    · exact .branch member branches
    · rw [cuts]
      rcases goes with continues | handler
      · exact .leave guards last continues
      · rw [handler]
        exact .handle guards last
  · rcases link with ⟨source, target, cuts⟩
    intro leads
    cases leads with
    | branch member branches => exact Or.inl ⟨member, branches⟩
    | leave guards last continues =>
        exact Or.inr ⟨_, guards, last, Or.inl continues, rfl⟩
    | handle guards last =>
        exact Or.inr ⟨_, guards, last, Or.inr rfl, rfl⟩

end Layout

end SmaliFlow.Flow
