import SmaliFlow.Proofs.Division

/-!
# Methods are segments of a file

Each method of an outline consists of consecutive lines of the file, from which
only the directives that give line numbers have been taken out.  Its lines
therefore stand in the order of the file, no line occurs twice, and a line whose
surroundings have decided what it is is never missing between two others.
-/

namespace SmaliFlow

theorem Line.isLineDirective_of_isGiven
    {line : Line}
    (given : line.isGiven = true) :
    line.isLineDirective = false := by
  rw [isLineDirective, given]
  rfl

namespace Outline

variable {lines : Array Line} {outline : Outline} {entries : List IndexedLine}

/--
A method is a segment of the file without the directives that give line numbers.
-/
theorem exists_segment
    (outlined : ofLines lines = .ok outline)
    (member : entries ∈ outline.methods) :
    ∃ front segment back, indexed 0 lines.toList = front ++ (segment ++ back) ∧
      entries = kept segment := by
  rcases (ofLines_eq_ok_iff lines outline).mp outlined with
    ⟨runs, divided, equal⟩
  rw [equal] at member
  rcases List.mem_map.mp member with ⟨run, runMember, rfl⟩
  rcases List.append_of_mem runMember with ⟨runsFront, runsBack, parts⟩
  rcases divided.exists_of_append parts with ⟨-, front, back, _, _, split, -⟩
  exact ⟨front, run, back, split, rfl⟩

theorem sublist_indexed
    (outlined : ofLines lines = .ok outline)
    (member : entries ∈ outline.methods) :
    entries.Sublist (indexed 0 lines.toList) := by
  rcases exists_segment outlined member with ⟨front, segment, back, split, rfl⟩
  rw [split]
  have inner : (kept segment).Sublist (segment ++ back) :=
    List.filter_sublist.trans (List.sublist_append_left segment back)
  exact inner.trans (List.sublist_append_right front _)

theorem getElem?_of_mem
    (outlined : ofLines lines = .ok outline)
    (member : entries ∈ outline.methods)
    {entry : IndexedLine}
    (entryMember : entry ∈ entries) :
    lines[entry.1]? = some entry.2 := by
  have inside := (sublist_indexed outlined member).subset entryMember
  rcases List.mem_map.mp inside with ⟨swapped, found, rfl⟩
  rw [List.mem_zipIdx_iff_getElem?] at found
  rw [← Array.getElem?_toList]
  exact found

theorem nodup_ids
    (outlined : ofLines lines = .ok outline)
    (member : entries ∈ outline.methods) :
    (entries.map Prod.fst).Nodup := by
  apply ((sublist_indexed outlined member).map Prod.fst).nodup
  rw [map_fst_indexed]
  exact List.nodup_range'

/--
The lines of a method are those of a run of lines that carry their readings.
-/
theorem exists_regional
    (regional : Line.Regional .body lines.toList)
    (outlined : ofLines lines = .ok outline)
    (member : entries ∈ outline.methods) :
    ∃ region run, Line.Regional region run ∧
      entries.map Prod.snd = run.filter fun line => !line.isLineDirective := by
  rcases exists_segment outlined member with ⟨front, segment, back, split, rfl⟩
  have whole : lines.toList =
      front.map Prod.snd ++ (segment.map Prod.snd ++ back.map Prod.snd) := by
    rw [← List.map_append, ← List.map_append, ← split, map_snd_indexed]
  rw [whole] at regional
  rcases regional.exists_of_append with ⟨region, rest⟩
  refine ⟨region, segment.map Prod.snd, rest.of_append, ?_⟩
  rw [List.filter_map]
  rfl

end Outline

/--
If something is executed behind a line that opens a table outside every region,
then a closing bracket of either form stands between them.
-/
theorem Line.Regional.exists_closing_of_filter
    {region : Region}
    {run : List Line}
    (regional : Regional region run)
    {before inside after : List Line}
    {opener code : Line}
    (split : (run.filter fun line => !line.isLineDirective) =
      before ++ opener :: (inside ++ code :: after))
    {form : Flow.TableForm}
    (opens : Flow.TableForm.opened? opener.text = some form)
    (own : opener.isGiven = false)
    (executed : code.isCode = true) :
    ∃ line ∈ inside, ∃ other : Flow.TableForm,
      other.isClosedBy line.text = true := by
  rcases List.filter_eq_append_iff.mp split with ⟨front, back, rfl, -, backKept⟩
  rcases List.filter_eq_cons_iff.mp backKept with
    ⟨skipped, rest, rfl, -, -, restKept⟩
  rcases List.filter_eq_append_iff.mp restKept with
    ⟨middle, tail, rfl, middleKept, tailKept⟩
  rcases List.filter_eq_cons_iff.mp tailKept with
    ⟨dropped, last, rfl, drops, -, -⟩
  rcases regional.exists_of_append with ⟨later, regionalBack⟩
  rcases regionalBack.exists_of_append with ⟨here, regionalOpener⟩
  cases regionalOpener.region_eq_body own
  have table := regionalOpener.2
  rw [Region.next, Region.opened_of_opened? opens, ← List.append_assoc] at table
  rcases table.exists_closing executed with ⟨line, member, given, closing⟩
  refine ⟨line, ?_, closing⟩
  -- A line that its surroundings decide is no directive, so it has been kept.
  have directive := isLineDirective_of_isGiven given
  rcases List.mem_append.mp member with inMiddle | inDropped
  · rw [← middleKept]
    exact List.mem_filter.mpr ⟨inMiddle, by simp [directive]⟩
  · exact (drops line inDropped (by simp [directive])).elim

end SmaliFlow
