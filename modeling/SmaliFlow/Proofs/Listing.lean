import Mathlib.Data.List.Induction
import Mathlib.Data.List.TakeWhile
import SmaliFlow.Flow.Listing

/-!
# Positions in a listing

The rows of a listing stand at consecutive positions.  A row is therefore
determined by its position, and what a search through the listing finds can be
said by comparing positions, without mentioning the search.

The first section describes searches through rows whose positions increase.
The second one opens the definition of a listing: each row is a line together
with its place and with what the table scan says about the lines above it.
-/

namespace SmaliFlow

/--
Lines with the given texts, numbered from one, that their own texts classify.
-/
def Line.ofTexts (texts : List String) : Array Line :=
  ((texts.zipIdx 1).map fun (text, number) =>
    ofText (Bytes.ofString text) number).toArray

namespace Flow

/--
Where different elements look different, repetitions can be dropped before or
after.
-/
theorem eraseDups_map_of_mem
    {α β : Type}
    [BEq α]
    [LawfulBEq α]
    [BEq β]
    [LawfulBEq β]
    {values : List α}
    {view : α → β}
    (injective : ∀ left ∈ values, ∀ right ∈ values,
      view left = view right → left = right) :
    (values.map view).eraseDups = values.eraseDups.map view := by
  induction length : values.length using Nat.strongRecOn
      generalizing values with
  | ind count ih =>
      cases values with
      | nil => rfl
      | cons first values =>
          have others : (values.filter fun value => !view value == view first) =
              values.filter fun value => !value == first := by
            apply List.filter_congr
            intro value member
            have same :=
              injective value (List.mem_cons_of_mem first member) first
                List.mem_cons_self
            rw [Bool.not_eq_eq_eq_not, Bool.not_not, Bool.eq_iff_iff,
              beq_iff_eq, beq_iff_eq]
            exact ⟨same, congrArg view⟩
          rw [List.map_cons, List.eraseDups_cons, List.eraseDups_cons,
            List.map_cons, List.filter_map]
          simp only [Function.comp_def, others]
          have shorter :=
            List.length_filter_le (fun value => !value == first) values
          rw [List.length_cons] at length
          rw [ih _ (by omega) _ rfl]
          intro left leftMember right rightMember
          exact injective left (List.mem_cons_of_mem first
            (List.mem_filter.mp leftMember).1)
            right (List.mem_cons_of_mem first
              (List.mem_filter.mp rightMember).1)

/-! ## Rows in ascending order -/

/-- The positions of the rows increase. -/
def Ascending (rows : List Row) : Prop :=
  rows.Pairwise fun earlier later => earlier.position < later.position

namespace Ascending

theorem sublist
    {rows others : List Row}
    (ascending : Ascending rows)
    (part : others.Sublist rows) :
    Ascending others :=
  List.Pairwise.sublist part ascending

theorem head_lt
    {first row : Row}
    {rows : List Row}
    (ascending : Ascending (first :: rows))
    (member : row ∈ rows) :
    first.position < row.position :=
  (List.pairwise_cons.mp ascending).1 row member

theorem tail
    {first : Row}
    {rows : List Row}
    (ascending : Ascending (first :: rows)) :
    Ascending rows :=
  (List.pairwise_cons.mp ascending).2

/-- The first of ascending rows is the one with the least position. -/
theorem head?_eq_some_iff
    {rows : List Row}
    (ascending : Ascending rows)
    (row : Row) :
    rows.head? = some row ↔
      row ∈ rows ∧ ∀ other ∈ rows, row.position ≤ other.position := by
  cases rows with
  | nil => simp
  | cons first rows =>
      rw [List.head?_cons, Option.some.injEq]
      constructor
      · rintro rfl
        refine ⟨List.mem_cons_self, ?_⟩
        intro other member
        rcases List.mem_cons.mp member with rfl | later
        · exact Nat.le_refl _
        · exact Nat.le_of_lt (ascending.head_lt later)
      · rintro ⟨member, least⟩
        rcases List.mem_cons.mp member with equal | later
        · exact equal.symm
        · have before := ascending.head_lt later
          have after := least first List.mem_cons_self
          omega

/-- The last of ascending rows is the one with the greatest position. -/
theorem getLast?_eq_some_iff
    {rows : List Row}
    (ascending : Ascending rows)
    (row : Row) :
    rows.getLast? = some row ↔
      row ∈ rows ∧ ∀ other ∈ rows, other.position ≤ row.position := by
  constructor
  · intro last
    refine ⟨List.mem_of_getLast? last, ?_⟩
    rcases List.getLast?_eq_some_iff.mp last with ⟨front, rfl⟩
    intro other member
    rcases List.mem_append.mp member with earlier | same
    · exact Nat.le_of_lt
        ((List.pairwise_append.mp ascending).2.2 other earlier row
          List.mem_cons_self)
    · exact Nat.le_of_eq (congrArg Row.position (List.mem_singleton.mp same))
  · rintro ⟨member, greatest⟩
    rcases List.append_of_mem member with ⟨front, back, rfl⟩
    cases back with
    | nil => simp
    | cons next back =>
        have order := (List.pairwise_append.mp ascending).2.1
        have after := Ascending.head_lt order List.mem_cons_self
        have before := greatest next (by simp)
        omega

/-- A search finds the accepted row with the least position. -/
theorem find?_eq_some_iff
    {rows : List Row}
    (ascending : Ascending rows)
    (accepts : Row → Bool)
    (row : Row) :
    rows.find? accepts = some row ↔
      row ∈ rows ∧ accepts row = true ∧
        ∀ other ∈ rows,
          accepts other = true → row.position ≤ other.position := by
  rw [← List.head?_filter,
    (ascending.sublist List.filter_sublist).head?_eq_some_iff]
  simp only [List.mem_filter, and_assoc, and_imp]

/-- The last accepted row is the one with the greatest position. -/
theorem getLast?_filter_eq_some_iff
    {rows : List Row}
    (ascending : Ascending rows)
    (accepts : Row → Bool)
    (row : Row) :
    (rows.filter accepts).getLast? = some row ↔
      row ∈ rows ∧ accepts row = true ∧
        ∀ other ∈ rows,
          accepts other = true → other.position ≤ row.position := by
  rw [(ascending.sublist List.filter_sublist).getLast?_eq_some_iff]
  simp only [List.mem_filter, and_assoc, and_imp]

/--
What stands first after passing over rows is the first row that is not passed
over.
-/
theorem head?_dropWhile_eq_some_iff
    {rows : List Row}
    (ascending : Ascending rows)
    (passes : Row → Bool)
    (row : Row) :
    (rows.dropWhile passes).head? = some row ↔
      row ∈ rows ∧ passes row = false ∧
        ∀ other ∈ rows,
          other.position < row.position → passes other = true := by
  rw [← List.find?_not_eq_head?_dropWhile, ascending.find?_eq_some_iff]
  constructor
  · rintro ⟨member, stops, least⟩
    refine ⟨member, by simpa using stops, ?_⟩
    intro other otherMember before
    by_contra stopsEarlier
    have := least other otherMember (by simpa using stopsEarlier)
    omega
  · rintro ⟨member, stops, passed⟩
    refine ⟨member, by simpa using stops, ?_⟩
    intro other otherMember otherStops
    by_contra before
    have := passed other otherMember (by omega)
    simp [this] at otherStops

/-- A row belongs to an accepted beginning if no row up to it is refused. -/
theorem mem_takeWhile_iff
    {rows : List Row}
    (ascending : Ascending rows)
    (accepts : Row → Bool)
    (row : Row) :
    row ∈ rows.takeWhile accepts ↔
      row ∈ rows ∧
        ∀ other ∈ rows,
          other.position ≤ row.position → accepts other = true := by
  induction rows with
  | nil => simp
  | cons first rows ih =>
      rw [List.takeWhile_cons]
      cases accepted : accepts first with
      | false =>
          simp only [Bool.false_eq_true, if_false, List.not_mem_nil, false_iff]
          rintro ⟨member, all⟩
          have before : first.position ≤ row.position := by
            rcases List.mem_cons.mp member with rfl | later
            · exact Nat.le_refl _
            · exact Nat.le_of_lt (ascending.head_lt later)
          simp [all first List.mem_cons_self before] at accepted
      | true =>
          simp only [if_true, List.mem_cons, ih ascending.tail]
          constructor
          · rintro (rfl | ⟨member, all⟩)
            · refine ⟨Or.inl rfl, ?_⟩
              rintro other (rfl | later) before
              · exact accepted
              · have := ascending.head_lt later
                omega
            · refine ⟨Or.inr member, ?_⟩
              rintro other (rfl | later) before
              · exact accepted
              · exact all other later before
          · rintro ⟨rfl | member, all⟩
            · exact Or.inl rfl
            · exact Or.inr ⟨member, fun other later => all other (Or.inr later)⟩

end Ascending

/-! ## Rows and lines -/

/-- The table that is open after lines with the given texts. -/
def tableAfter (state : Option TableForm) (texts : List Bytes) :
    Option TableForm :=
  texts.foldl (fun state text => (tableStep state text).2) state

theorem tableAfter_append (state : Option TableForm) (front back : List Bytes) :
    tableAfter state (front ++ back) =
      tableAfter (tableAfter state front) back := by
  rw [tableAfter, List.foldl_append]
  rfl

/--
A table is open because some line has opened it and no line has closed it since.
-/
theorem tableAfter_eq_some_iff (lines : List Line) (form : TableForm) :
    tableAfter none (lines.map Line.text) = some form ↔
      ∃ before opener inside, lines = before ++ opener :: inside ∧
        tableAfter none (before.map Line.text) = none ∧
        TableForm.opened? opener.text = some form ∧
        ∀ line ∈ inside, form.isClosedBy line.text = false := by
  constructor
  · intro isOpen
    induction lines using List.reverseRecOn with
    | nil => cases isOpen
    | append_singleton lines line ih =>
        rw [List.map_append, tableAfter_append] at isOpen
        cases state : tableAfter none (lines.map Line.text) with
        | none =>
            rw [state] at isOpen
            refine ⟨lines, line, [], rfl, state, ?_, by simp⟩
            cases opened : TableForm.opened? line.text with
            | none => simp [tableAfter, tableStep, opened] at isOpen
            | some found => simpa [tableAfter, tableStep, opened] using isOpen
        | some current =>
            rw [state] at isOpen
            simp only [tableAfter, tableStep, List.map_cons, List.map_nil,
              List.foldl_cons, List.foldl_nil, Option.ite_none_left_eq_some,
              Option.some.injEq, Bool.not_eq_true] at isOpen
            rcases isOpen with ⟨unclosed, rfl⟩
            rcases ih state with
              ⟨before, opener, inside, rfl, outside, opens, earlier⟩
            refine ⟨before, opener, inside ++ [line], by
              simp, outside, opens, ?_⟩
            intro other member
            rcases List.mem_append.mp member with inFront | isLine
            · exact earlier other inFront
            · rw [List.mem_singleton.mp isLine]
              exact unclosed
  · rintro ⟨before, opener, inside, rfl, outside, opens, unclosed⟩
    rw [List.map_append, tableAfter_append, outside, List.map_cons]
    have opened : tableStep none opener.text = (true, some form) := by
      simp [tableStep, opens]
    rw [tableAfter, List.foldl_cons, opened]
    induction inside with
    | nil => rfl
    | cons line inside ih =>
        have stays := unclosed line List.mem_cons_self
        rw [List.map_cons, List.foldl_cons]
        simp only [tableStep, stays, Bool.false_eq_true, if_false]
        exact ih fun other member =>
          unclosed other (List.mem_cons_of_mem line member)

namespace Listing

/-- The row of a line at a position, given the table that is open before it. -/
def rowOf (state : Option TableForm) (position id : Nat) (line : Line) :
    Row where
  position
  id
  number := line.number
  text := line.text
  instruction := line.instruction
  inTable := (tableStep state line.text).1

/--
The rows of lines from a position on, given the table that is open before them.
-/
def rowsFrom :
    (lines : List (Nat × Line)) → (state : Option TableForm) →
      (position : Nat) → Listing
  | [], _, _ => []
  | (id, line) :: lines, state, position =>
      rowOf state position id line ::
        rowsFrom lines (tableStep state line.text).2 (position + 1)

theorem extend_eq
    (lines : List (Nat × Line))
    (state : Option TableForm)
    (position : Nat)
    (rows : List Row) :
    extend lines state position rows =
      (rowsFrom lines state position).reverse ++ rows := by
  induction lines generalizing state position rows with
  | nil => rfl
  | cons entry lines ih =>
      rcases entry with ⟨id, line⟩
      have step :
          extend ((id, line) :: lines) state position rows =
            extend lines (tableStep state line.text).2 (position + 1)
              (rowOf state position id line :: rows) :=
        rfl
      rw [step, ih, rowsFrom, List.reverse_cons, List.append_assoc,
        List.singleton_append]

/--
A listing is what its lines give from the first position on, outside every
table.
-/
theorem ofLines_eq (lines : List (Nat × Line)) :
    ofLines lines = rowsFrom lines none 0 := by
  rw [ofLines, extend_eq, List.append_nil, List.reverse_reverse]

theorem getElem?_rowsFrom
    (lines : List (Nat × Line))
    (state : Option TableForm)
    (position index : Nat) :
    (rowsFrom lines state position)[index]? =
      lines[index]?.map fun entry =>
        rowOf (tableAfter state ((lines.take index).map fun entry =>
          entry.2.text))
          (position + index) entry.1 entry.2 := by
  induction lines generalizing state position index with
  | nil => simp [rowsFrom]
  | cons entry lines ih =>
      rcases entry with ⟨id, line⟩
      cases index with
      | zero => simp [rowsFrom, tableAfter]
      | succ index =>
          rw [rowsFrom, List.getElem?_cons_succ, ih, List.getElem?_cons_succ]
          simp [tableAfter, Nat.add_comm, Nat.add_left_comm]

/-- A row is one of the lines, after the lines that stand before it. -/
theorem mem_ofLines_iff (lines : List (Nat × Line)) (row : Row) :
    row ∈ ofLines lines ↔
      ∃ before id line after, lines = before ++ (id, line) :: after ∧
        row = rowOf (tableAfter none (before.map fun entry => entry.2.text))
          before.length id line := by
  rw [ofLines_eq, List.mem_iff_getElem?]
  simp only [getElem?_rowsFrom, Option.map_eq_some_iff, Nat.zero_add]
  constructor
  · rintro ⟨index, ⟨id, line⟩, found, rfl⟩
    rcases List.getElem?_eq_some_iff.mp found with ⟨inside, equal⟩
    refine ⟨lines.take index, id, line, lines.drop (index + 1), ?_, ?_⟩
    · rw [← equal, List.getElem_cons_drop, List.take_append_drop]
    · rw [List.length_take_of_le (Nat.le_of_lt inside)]
  · rintro ⟨before, id, line, after, rfl, rfl⟩
    exact ⟨before.length, (id, line), by simp, by simp⟩

/-- The rows stand at their own positions. -/
def Positioned (listing : Listing) : Prop :=
  ∀ (index : Nat) (row : Row), listing[index]? = some row → row.position = index

theorem positioned_ofLines (lines : List (Nat × Line)) :
    (ofLines lines).Positioned := by
  intro index row found
  rw [ofLines_eq, getElem?_rowsFrom, Option.map_eq_some_iff] at found
  rcases found with ⟨entry, -, rfl⟩
  simp [rowOf]

/--
What depends neither on the place nor on the table of a row is read off its
line.
-/
theorem map_ofLines
    {α : Type}
    (lines : List (Nat × Line))
    (view : Row → α)
    (lineView : Nat × Line → α)
    (agree : ∀ state position id line,
      view (rowOf state position id line) = lineView (id, line)) :
    (ofLines lines).map view = lines.map lineView := by
  have rows (state : Option TableForm) (position : Nat) :
      (rowsFrom lines state position).map view = lines.map lineView := by
    induction lines generalizing state position with
    | nil => rfl
    | cons entry lines ih =>
        rcases entry with ⟨id, line⟩
        rw [rowsFrom, List.map_cons, List.map_cons, ih, agree]
  rw [ofLines_eq]
  exact rows none 0

theorem ids_ofLines (lines : List (Nat × Line)) :
    (ofLines lines).ids = lines.map Prod.fst :=
  map_ofLines lines Row.id Prod.fst fun _ _ _ _ => rfl

private theorem mapM_lines_eq_some_iff
    {lines : Array Line}
    (ids : List Nat)
    (entries : List (Nat × Line)) :
    (ids.mapM fun id => lines[id]?.map fun line => (id, line)) = some entries ↔
      entries.map Prod.fst = ids ∧ ∀ entry ∈ entries,
        lines[entry.1]? = some entry.2 := by
  induction ids generalizing entries with
  | nil =>
      rw [List.mapM_nil, List.map_eq_nil_iff]
      constructor
      · intro equal
        cases equal
        simp
      · rintro ⟨rfl, -⟩
        rfl
  | cons id ids ih =>
      simp only [List.mapM_cons, bind, Option.bind_eq_some_iff,
        Option.map_eq_some_iff]
      constructor
      · rintro ⟨first, ⟨line, found, rfl⟩, rest, mapped, returned⟩
        cases returned
        rcases (ih rest).mp mapped with ⟨rfl, all⟩
        refine ⟨rfl, ?_⟩
        intro entry member
        rcases List.mem_cons.mp member with rfl | later
        · exact found
        · exact all entry later
      · rintro ⟨named, all⟩
        cases entries with
        | nil => simp at named
        | cons entry entries =>
            rw [List.map_cons, List.cons.injEq] at named
            rcases named with ⟨rfl, named⟩
            have found := all entry List.mem_cons_self
            have rest := (ih entries).mpr
              ⟨named, fun other member =>
                all other (List.mem_cons_of_mem entry member)⟩
            exact ⟨entry, ⟨entry.2, found, rfl⟩, entries, rest, rfl⟩

/-- A listing by indices is the listing of the lines that have these indices. -/
theorem ofIds?_eq_some_iff
    {lines : Array Line}
    {ids : List Nat}
    {listing : Listing} :
    ofIds? lines ids = some listing ↔
      ∃ entries : List (Nat × Line), entries.map Prod.fst = ids ∧
        (∀ entry ∈ entries, lines[entry.1]? = some entry.2) ∧
          ofLines entries = listing := by
  simp only [ofIds?, Option.map_eq_some_iff, mapM_lines_eq_some_iff, and_assoc]

theorem ids_of_ofIds?
    {lines : Array Line}
    {ids : List Nat}
    {listing : Listing}
    (listed : ofIds? lines ids = some listing) :
    listing.ids = ids := by
  rcases ofIds?_eq_some_iff.mp listed with ⟨entries, rfl, -, rfl⟩
  exact ids_ofLines entries

theorem exists_instruction_of_ofIds?
    {lines : Array Line}
    {ids : List Nat}
    {listing : Listing}
    (listed : ofIds? lines ids = some listing)
    {row : Row}
    (member : row ∈ listing) :
    ∃ line, lines[row.id]? = some line ∧
      row.instruction = line.instruction := by
  rcases ofIds?_eq_some_iff.mp listed with ⟨entries, -, found, rfl⟩
  have viewed : (row.id, row.instruction) ∈
      entries.map fun entry => (entry.1, entry.2.instruction) := by
    rw [← map_ofLines entries (fun row => (row.id, row.instruction)) _ fun _
      _ _ _ => rfl]
    exact List.mem_map_of_mem member
  rcases List.mem_map.mp viewed with ⟨entry, entryMember, equal⟩
  rw [Prod.mk.injEq] at equal
  rw [← equal.1]
  exact ⟨entry.2, found entry entryMember, equal.2.symm⟩

theorem exists_line_of_ofIds?
    {lines : Array Line}
    {ids : List Nat}
    {listing : Listing}
    (listed : ofIds? lines ids = some listing)
    {row : Row}
    (member : row ∈ listing) :
    ∃ line, lines[row.id]? = some line ∧ row.isCode = line.isCode := by
  rcases exists_instruction_of_ofIds? listed member with ⟨line, found, same⟩
  exact ⟨line, found, congrArg Instruction.isCode same⟩

theorem positioned_of_ofIds?
    {lines : Array Line}
    {ids : List Nat}
    {listing : Listing}
    (listed : ofIds? lines ids = some listing) :
    listing.Positioned := by
  rcases ofIds?_eq_some_iff.mp listed with ⟨entries, -, -, rfl⟩
  exact positioned_ofLines entries

namespace Positioned

variable {listing : Listing}

theorem getElem?_position
    (positioned : listing.Positioned)
    {row : Row}
    (member : row ∈ listing) :
    listing[row.position]? = some row := by
  rcases List.mem_iff_getElem?.mp member with ⟨index, found⟩
  rw [positioned index row found]
  exact found

/-- Different rows have different positions. -/
theorem eq_of_position_eq
    (positioned : listing.Positioned)
    {left right : Row}
    (leftMember : left ∈ listing)
    (rightMember : right ∈ listing)
    (same : left.position = right.position) :
    left = right := by
  have found := positioned.getElem?_position leftMember
  rw [same, positioned.getElem?_position rightMember] at found
  exact (Option.some.inj found).symm

theorem ascending (positioned : listing.Positioned) : Ascending listing := by
  rw [Ascending, List.pairwise_iff_getElem]
  intro first second firstInside secondInside before
  rw [positioned first _ (List.getElem?_eq_getElem firstInside),
    positioned second _ (List.getElem?_eq_getElem secondInside)]
  exact before

theorem mem_drop_iff
    (positioned : listing.Positioned)
    (start : Nat)
    (row : Row) :
    row ∈ listing.drop start ↔ row ∈ listing ∧ start ≤ row.position := by
  constructor
  · intro member
    rcases List.mem_iff_getElem?.mp member with ⟨index, found⟩
    rw [List.getElem?_drop] at found
    refine ⟨List.mem_of_getElem? found, ?_⟩
    rw [positioned _ row found]
    exact Nat.le_add_right start index
  · rintro ⟨member, after⟩
    apply List.mem_iff_getElem?.mpr
    refine ⟨row.position - start, ?_⟩
    rw [List.getElem?_drop, Nat.add_sub_cancel' after]
    exact positioned.getElem?_position member

/-- The rows behind a given one are those with greater positions. -/
theorem mem_back_iff
    (positioned : listing.Positioned)
    {front back : List Row}
    {row : Row}
    (split : listing = front ++ row :: back)
    (other : Row) :
    other ∈ back ↔ other ∈ listing ∧ row.position < other.position := by
  have place : row.position = front.length := by
    apply positioned
    simp [split]
  have rest : back = listing.drop (row.position + 1) := by
    rw [place, split]
    simp
  rw [rest, positioned.mem_drop_iff, Nat.succ_le_iff]

end Positioned

/-! ## Rows outside every table -/

@[simp]
theorem mem_body_iff (listing : Listing) (row : Row) :
    row ∈ listing.body ↔ row ∈ listing ∧ row.inTable = false := by
  simp [body]

theorem Positioned.ascending_body
    {listing : Listing}
    (positioned : listing.Positioned) :
    Ascending listing.body :=
  positioned.ascending.sublist List.filter_sublist

end Listing

end Flow

end SmaliFlow
