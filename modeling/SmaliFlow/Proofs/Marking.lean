import SmaliFlow.ClassFile.Basic
import SmaliFlow.Proofs.Division
import SmaliFlow.Proofs.Simulation

/-!
# Lines that methods mark

Building a method classifies all its lines and marks them with its label.  Since
a line belongs to one method or to none, the lines outside of methods stay as
they have been read, however many methods are built before anyone looks at them.
-/

namespace SmaliFlow

/-- The methods of an outline, with their control flow. -/
def Outline.compiled (outline : Outline) : List Method :=
  outline.methods.zipIdx.map fun entry => Method.ofLines entry.2 entry.1

namespace Method

theorem lines_ofLines (label : Nat) (entries : List IndexedLine) :
    (ofLines label entries).lines = entries.map Prod.fst :=
  (lines_build (declare label _) _).trans (Flow.Listing.ids_ofLines entries)

end Method

namespace Line

theorem assign_assign (line : Line) (method : Nat) :
    (line.assign method).assign method = line.assign method := by
  cases reading : line.reading <;> simp [assign, classify, reading]

end Line

namespace ClassFile

/-- The line with the given index after the methods have marked their lines. -/
def marked (methods : List Method) (id : Nat) (line : Line) : Line :=
  methods.foldl
    (fun line method => if id ∈ method.lines then
      line.assign method.label else line) line

theorem getElem?_foldl_assign
    (label : Nat)
    (ids : List Nat)
    (lines : Array Line)
    (id : Nat) :
    (ids.foldl (fun lines id => lines.modify id fun line => line.assign label)
      lines)[id]? =
      lines[id]?.map fun line =>
        if id ∈ ids then line.assign label else line := by
  induction ids generalizing lines with
  | nil => simp
  | cons first ids ih =>
      rw [List.foldl_cons, ih, Array.getElem?_modify]
      by_cases here : first = id
      · subst here
        rw [if_pos rfl, Option.map_map]
        congr 1
        funext line
        simp [Line.assign_assign]
      · rw [if_neg here]
        simp [Ne.symm here]

theorem getElem?_assignLines
    (methods : Array Method)
    (lines : Array Line)
    (id : Nat) :
    (assignLines methods lines)[id]? =
      lines[id]?.map (marked methods.toList id) := by
  rw [assignLines, ← Array.foldl_toList]
  induction methods.toList generalizing lines with
  | nil =>
      rw [List.foldl_nil]
      cases lines[id]? <;> rfl
  | cons method methods ih =>
      rw [List.foldl_cons, ih, getElem?_foldl_assign, Option.map_map]
      rfl

theorem marked_of_forall_not_mem
    {methods : List Method}
    {id : Nat}
    (foreign : ∀ method ∈ methods, id ∉ method.lines)
    (line : Line) :
    marked methods id line = line := by
  induction methods with
  | nil => rfl
  | cons method methods ih =>
      rw [List.forall_mem_cons] at foreign
      rw [marked, List.foldl_cons, if_neg foreign.1]
      exact ih foreign.2

end ClassFile

namespace Outline

variable {lines : List Line} {outline : Outline}

/-- A line outside of methods stands in the file, and no method owns it. -/
theorem getElem?_of_mem_others
    (outlined : ofLines lines.toArray = .ok outline)
    {entry : IndexedLine}
    (member : entry ∈ outline.others) :
    lines[entry.1]? = some entry.2 ∧ ∀ method ∈ outline.compiled,
      entry.1 ∉ method.lines := by
  rcases (ofLines_eq_ok_iff lines.toArray outline).mp outlined with
    ⟨runs, divided, methods⟩
  have inFile :=
    divided.perm.mem_iff.mpr (List.mem_append_right runs.flatten member)
  have distinct := (divided.perm.map Prod.fst).nodup_iff.mp (by
    rw [map_fst_indexed]
    exact List.nodup_range')
  rw [List.map_append, List.nodup_append] at distinct
  refine ⟨getElem?_of_mem_indexed inFile, ?_⟩
  intro method compiled own
  rcases List.mem_map.mp compiled with ⟨numbered, listed, rfl⟩
  rw [Method.lines_ofLines] at own
  have inMethods :=
    List.mem_of_getElem? (List.mem_zipIdx_iff_getElem?.mp listed)
  rw [methods] at inMethods
  rcases List.mem_map.mp inMethods with ⟨run, runMember, same⟩
  rcases List.mem_map.mp own with ⟨owned, ownedMember, index⟩
  rw [← same] at ownedMember
  have inRuns :=
    List.mem_flatten.mpr ⟨run, runMember, (List.mem_filter.mp ownedMember).1⟩
  exact distinct.2.2 entry.1 (List.mem_map.mpr ⟨owned, inRuns, index⟩) entry.1
    (List.mem_map.mpr ⟨entry, member, rfl⟩) rfl

/--
When all methods have been built, the lines outside of them are as before.
-/
theorem othersIn_assignLines (outlined : ofLines lines.toArray = .ok outline) :
    outline.othersIn (ClassFile.assignLines outline.compiled.toArray
      lines.toArray) =
      outline.others := by
  have unmarked : ∀ entry ∈ outline.others,
      ((ClassFile.assignLines outline.compiled.toArray
        lines.toArray)[entry.1]?.map
        fun line => (entry.1, line)) = some entry := by
    intro entry member
    rcases getElem?_of_mem_others outlined member with ⟨found, foreign⟩
    rw [ClassFile.getElem?_assignLines, List.getElem?_toArray, found,
      Option.map_some, Option.map_some,
      ClassFile.marked_of_forall_not_mem foreign]
  rw [othersIn, List.filterMap_congr unmarked, List.filterMap_some]

end Outline

end SmaliFlow
