import Mathlib.Logic.Relation
import SmaliFlow.Flow.Discovery

/-!
# The search discovers what the entry reaches

At every moment of the search, each successor of a numbered block is numbered
or still pending.  Discovering a block keeps this, since its successors become
pending; passing over a pending block keeps it, since only a numbered block is
passed over.  When nothing is pending any more, the numbered blocks are closed
under successors, so every block that the entry reaches is numbered.

Conversely, whatever is numbered or pending is reached by the entry, since only
successors of numbered blocks become pending.  The numbers are given in order,
each to one block, so together they are the numbers below the first free one.
-/

namespace SmaliFlow.Flow.Discovery

variable {successors : Array (List Nat)} {numbers : Array (Option Nat)}

/-- The block has a number. -/
def Found (numbers : Array (Option Nat)) (block : Nat) : Prop :=
  ∃ number, numbers[block]? = some (some number)

/-- The target is a successor of the block, and it exists. -/
def Follows (successors : Array (List Nat)) (block target : Nat) : Prop :=
  target ∈ targets successors block ∧ target < successors.size

/-- Each successor of a numbered block is numbered or pending. -/
def Closed
    (successors : Array (List Nat))
    (pending : List Nat)
    (numbers : Array (Option Nat)) : Prop :=
  ∀ block target, Found numbers block → Follows successors block target →
    Found numbers target ∨ target ∈ pending

/-- Whatever is numbered or pending is reached by the entry. -/
structure Sound
    (successors : Array (List Nat))
    (pending : List Nat)
    (numbers : Array (Option Nat)) : Prop where
  found : ∀ block,
    Found numbers block → Relation.ReflTransGen (Follows successors) 0 block
  pending : ∀ block ∈ pending, block < numbers.size →
    Relation.ReflTransGen (Follows successors) 0 block

/--
The numbers that blocks have are those below the first free one, each of them
once.
-/
def Consecutive (numbers : Array (Option Nat)) (next : Nat) : Prop :=
  (numbers.toList.filterMap id).Perm (List.range next)

/-! ## One step of the search -/

theorem fresh_or_found {block : Nat} (inside : block < numbers.size) :
    numbers[block]? = some none ∨ Found numbers block := by
  have present := Array.getElem?_eq_getElem inside
  cases number : numbers[block] with
  | none =>
      rw [number] at present
      exact Or.inl present
  | some value =>
      rw [number] at present
      exact Or.inr ⟨value, present⟩

theorem found_setIfInBounds_iff
    {block : Nat}
    (fresh : numbers[block]? = some none)
    (next other : Nat) :
    Found (numbers.setIfInBounds block (some next)) other ↔
      other = block ∨ Found numbers other := by
  have inside : block < numbers.size := (Array.getElem?_eq_some_iff.mp fresh).1
  by_cases same : block = other
  · subst other
    simp [Found, inside]
  · have different : other ≠ block := fun equal => same equal.symm
    simp [Found, Array.getElem?_setIfInBounds_ne same, different]

theorem Closed.discover
    {block : Nat}
    {pending : List Nat}
    (closed : Closed successors (block :: pending) numbers)
    (fresh : numbers[block]? = some none)
    (next : Nat) :
    Closed successors (targets successors block ++ pending)
      (numbers.setIfInBounds block (some next)) := by
  intro source target found follows
  rw [found_setIfInBounds_iff fresh] at found ⊢
  rw [List.mem_append]
  rcases found with rfl | found
  · exact Or.inr (Or.inl follows.1)
  · rcases closed source target found follows with targetFound | waiting
    · exact Or.inl (Or.inr targetFound)
    · rcases List.mem_cons.mp waiting with same | later
      · exact Or.inl (Or.inl same)
      · exact Or.inr (Or.inr later)

theorem Closed.skip
    {block : Nat}
    {pending : List Nat}
    (closed : Closed successors (block :: pending) numbers)
    (sizes : numbers.size = successors.size)
    (known : ¬numbers[block]? = some none) :
    Closed successors pending numbers := by
  intro source target found follows
  rcases closed source target found follows with targetFound | waiting
  · exact Or.inl targetFound
  · rcases List.mem_cons.mp waiting with rfl | later
    · have inside : target < numbers.size := sizes ▸ follows.2
      exact Or.inl ((fresh_or_found inside).resolve_left known)
    · exact Or.inr later

theorem Sound.discover
    {block : Nat}
    {pending : List Nat}
    (sound : Sound successors (block :: pending) numbers)
    (sizes : numbers.size = successors.size)
    (fresh : numbers[block]? = some none)
    (next : Nat) :
    Sound successors (targets successors block ++ pending)
      (numbers.setIfInBounds block (some next)) := by
  have inside : block < numbers.size := (Array.getElem?_eq_some_iff.mp fresh).1
  have reached := sound.pending block List.mem_cons_self inside
  constructor
  · intro other found
    rcases (found_setIfInBounds_iff fresh next other).mp found with
      rfl | earlier
    · exact reached
    · exact sound.found other earlier
  · intro other member otherInside
    rw [Array.size_setIfInBounds] at otherInside
    rcases List.mem_append.mp member with successor | waiting
    · exact reached.tail ⟨successor, sizes ▸ otherInside⟩
    · exact sound.pending other (List.mem_cons_of_mem block waiting) otherInside

theorem Sound.skip
    {block : Nat}
    {pending : List Nat}
    (sound : Sound successors (block :: pending) numbers) :
    Sound successors pending numbers where
  found := sound.found
  pending := fun other member =>
    sound.pending other (List.mem_cons_of_mem block member)

private theorem filterMap_set_perm
    (values : List (Option Nat))
    {index : Nat}
    (fresh : values[index]? = some none)
    (value : Nat) :
    ((values.set index (some value)).filterMap id).Perm
      (value :: values.filterMap id) := by
  rcases List.getElem?_eq_some_iff.mp fresh with ⟨inside, empty⟩
  have split := List.take_append_drop index values
  rw [List.drop_eq_getElem_cons inside, empty] at split
  have before := congrArg (List.filterMap id) split
  rw [List.filterMap_append, List.filterMap_cons_none rfl] at before
  rw [List.set_eq_take_append_cons_drop, if_pos inside, ← before,
    List.filterMap_append]
  exact List.perm_middle

theorem Consecutive.discover
    {block next : Nat}
    (consecutive : Consecutive numbers next)
    (fresh : numbers[block]? = some none) :
    Consecutive (numbers.setIfInBounds block (some next)) (next + 1) := by
  have added := filterMap_set_perm numbers.toList (by simpa using fresh) next
  rw [Consecutive, Array.toList_setIfInBounds, List.range_succ]
  exact (added.trans (consecutive.cons next)).trans
    (List.perm_append_singleton next _).symm

/-! ## The whole search -/

variable (successors numbers) (pending : List Nat) (next : Nat)

@[simp]
theorem size_explore :
    (explore successors pending numbers next).1.size = numbers.size := by
  fun_induction explore successors pending numbers next with
  | case1 => rfl
  | case2 numbers next block pending fresh ih =>
      rw [ih, Array.size_setIfInBounds]
  | case3 numbers next block pending known ih => exact ih

/-- A block keeps the number that it has. -/
theorem getElem?_explore_of_numbered
    {block number : Nat}
    (numbered : numbers[block]? = some (some number)) :
    (explore successors pending numbers next).1[block]? =
      some (some number) := by
  fun_induction explore successors pending numbers next with
  | case1 => exact numbered
  | case2 numbers next first pending fresh ih =>
      apply ih
      have different : first ≠ block := by
        rintro rfl
        rw [numbered] at fresh
        cases fresh
      rw [Array.getElem?_setIfInBounds_ne different]
      exact numbered
  | case3 numbers next first pending known ih => exact ih numbered

theorem found_explore {block : Nat} (found : Found numbers block) :
    Found (explore successors pending numbers next).1 block := by
  rcases found with ⟨number, numbered⟩
  exact ⟨number,
    getElem?_explore_of_numbered successors numbers pending next numbered⟩

/-- Every pending block that exists is numbered in the end. -/
theorem found_explore_of_mem
    {block : Nat}
    (member : block ∈ pending)
    (inside : block < numbers.size) :
    Found (explore successors pending numbers next).1 block := by
  fun_induction explore successors pending numbers next with
  | case1 => simp at member
  | case2 numbers next first pending fresh ih =>
      rcases List.mem_cons.mp member with rfl | later
      · apply found_explore
        exact (found_setIfInBounds_iff fresh next block).mpr (Or.inl rfl)
      · apply ih (List.mem_append_right _ later)
        rw [Array.size_setIfInBounds]
        exact inside
  | case3 numbers next first pending known ih =>
      rcases List.mem_cons.mp member with rfl | later
      · exact found_explore _ _ _ _ ((fresh_or_found inside).resolve_left known)
      · exact ih later inside

/-- In the end the numbered blocks are closed under successors. -/
theorem closed_explore
    (sizes : numbers.size = successors.size)
    (closed : Closed successors pending numbers) :
    Closed successors [] (explore successors pending numbers next).1 := by
  fun_induction explore successors pending numbers next with
  | case1 => exact closed
  | case2 numbers next block pending fresh ih =>
      apply ih
      · rw [Array.size_setIfInBounds, sizes]
      · exact closed.discover fresh next
  | case3 numbers next block pending known ih =>
      exact ih sizes (closed.skip sizes known)

/-- In the end only blocks that the entry reaches are numbered. -/
theorem sound_explore
    (sizes : numbers.size = successors.size)
    (sound : Sound successors pending numbers) :
    Sound successors [] (explore successors pending numbers next).1 := by
  fun_induction explore successors pending numbers next with
  | case1 => exact sound
  | case2 numbers next block pending fresh ih =>
      apply ih
      · rw [Array.size_setIfInBounds, sizes]
      · exact sound.discover sizes fresh next
  | case3 numbers next block pending known ih => exact ih sizes sound.skip

theorem consecutive_explore (consecutive : Consecutive numbers next) :
    Consecutive (explore successors pending numbers next).1
      (explore successors pending numbers next).2 := by
  fun_induction explore successors pending numbers next with
  | case1 => exact consecutive
  | case2 numbers next block pending fresh ih =>
      exact ih (consecutive.discover fresh)
  | case3 numbers next block pending known ih => exact ih consecutive

/-! ## The numbers of all blocks -/

private theorem not_found_replicate (size block : Nat) :
    ¬Found (Array.replicate size none) block := by
  rintro ⟨number, found⟩
  rw [Array.getElem?_replicate, Option.ite_none_right_eq_some] at found
  simp at found

@[simp]
theorem size_number : (number successors).1.size = successors.size := by
  rw [number, size_explore, Array.size_replicate]

/-- The search numbers every block that the entry reaches. -/
theorem found_of_reachable
    (nonempty : 0 < successors.size)
    {block : Nat}
    (reachable : Relation.ReflTransGen (Follows successors) 0 block) :
    Found (number successors).1 block := by
  have start :
      Closed successors [0] (Array.replicate successors.size none) := by
    intro source target found follows
    exact (not_found_replicate successors.size source found).elim
  have closed := closed_explore successors _ [0] 0 Array.size_replicate start
  induction reachable with
  | refl =>
      apply found_explore_of_mem _ _ _ _ List.mem_cons_self
      rw [Array.size_replicate]
      exact nonempty
  | tail _ follows found =>
      exact (closed _ _ found follows).resolve_right List.not_mem_nil

/-- The search numbers only blocks that the entry reaches. -/
theorem reachable_of_found
    {block : Nat}
    (found : Found (number successors).1 block) :
    Relation.ReflTransGen (Follows successors) 0 block := by
  have start : Sound successors [0] (Array.replicate successors.size none) := by
    constructor
    · intro other earlier
      exact (not_found_replicate successors.size other earlier).elim
    · intro other member inside
      rw [List.mem_singleton.mp member]
  exact (sound_explore successors _ [0] 0 Array.size_replicate start).found
    block found

theorem consecutive_number :
  Consecutive (number successors).1 (number successors).2 := by
  apply consecutive_explore
  rw [Consecutive, Array.toList_replicate, List.filterMap_replicate]
  exact List.Perm.refl []

/-- The entry has the first number. -/
theorem getElem?_number_zero (nonempty : 0 < successors.size) :
    (number successors).1[0]? = some (some 0) := by
  have fresh :
      (Array.replicate successors.size (none : Option Nat))[0]? =
        some none := by
    rw [Array.getElem?_replicate, if_pos nonempty]
  rw [number, explore, dif_pos fresh]
  apply getElem?_explore_of_numbered
  rw [Array.getElem?_setIfInBounds_self_of_lt (by rwa [Array.size_replicate])]

/-- There are fewer numbers than blocks exactly if some block has none. -/
theorem number_lt_size_iff :
    (number successors).2 < successors.size ↔
      ∃ block < successors.size, ¬Found (number successors).1 block := by
  have count := (consecutive_number successors).length_eq
  rw [List.length_range] at count
  have length : (number successors).1.toList.length = successors.size := by
    rw [Array.length_toList, size_number]
  rw [← count, ← length, List.length_filterMap_lt_length_iff_exists, length]
  constructor
  · rintro ⟨number, member, empty⟩
    cases empty
    rcases List.mem_iff_getElem?.mp member with ⟨block, missing⟩
    have inside := (List.getElem?_eq_some_iff.mp missing).1
    rw [length] at inside
    refine ⟨block, inside, ?_⟩
    rintro ⟨number, found⟩
    rw [Array.getElem?_toList, found] at missing
    cases missing
  · rintro ⟨block, inside, unnumbered⟩
    rw [← size_number successors] at inside
    have missing := (fresh_or_found inside).resolve_right unnumbered
    refine ⟨none, List.mem_iff_getElem?.mpr ⟨block, ?_⟩, rfl⟩
    rw [Array.getElem?_toList]
    exact missing

end SmaliFlow.Flow.Discovery
