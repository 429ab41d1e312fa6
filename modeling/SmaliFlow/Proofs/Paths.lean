import SmaliFlow.Application.FileTree

/-!
# Paths below a directory

Joining a name to the path of a directory adds one component behind those of the
directory, whether or not the path ends with a slash.  The key of a path below a
directory is therefore the key of the directory followed by one key for each
name on the way, and different names on the way give different keys.
-/

namespace SmaliFlow

/-! ## Keys of names -/

theorem Component.key_name_inj
    {left right : String}
    (same : Component.key (.name left) = Component.key (.name right)) :
    left = right := by
  simp only [Component.key, List.cons.injEq, true_and] at same
  apply String.toList_inj.mp
  exact (List.map_inj_right fun _ _ => Char.toNat_inj.mp).mp same

theorem Component.key_inj
    {left right : Component}
    (same : left.key = right.key) :
    left = right := by
  cases left with
  | name left =>
      cases right with
      | name right => rw [Component.key_name_inj same]
      | _ => simp [Component.key] at same
  | _ => cases right <;> simp_all [Component.key]

namespace Path

/-- Paths have the same key exactly if they agree component by component. -/
theorem key_eq_iff (left right : String) :
    key left = key right ↔ components left = components right :=
  List.map_inj_right fun _ _ => Component.key_inj

/-- A name that an entry of a directory can have. -/
structure IsName (name : String) : Prop where
  nonempty : name ≠ ""
  notCurrent : name ≠ "."
  notParent : name ≠ ".."
  plain : '/' ∉ name.toList

instance (name : String) : Decidable (IsName name) :=
  decidable_of_iff (name ≠ "" ∧ name ≠ "." ∧ name ≠ ".." ∧ '/' ∉ name.toList)
    ⟨fun all => ⟨all.1, all.2.1, all.2.2.1, all.2.2.2⟩,
      fun isName =>
        ⟨isName.nonempty, isName.notCurrent, isName.notParent, isName.plain⟩⟩

theorem IsName.ofPiece? {name : String} (isName : IsName name) :
    Component.ofPiece? name = some (.name name) := by
  simp [Component.ofPiece?, isName.nonempty, isName.notCurrent,
    isName.notParent]

/-! ## Pieces -/

/-- A slash ends the pieces before it. -/
theorem piecesFrom_slash (front back piece : List Char) :
    piecesFrom (front ++ '/' :: back) piece =
      piecesFrom front piece ++ piecesFrom back [] := by
  induction front generalizing piece with
  | nil => simp [piecesFrom]
  | cons letter front ih =>
      by_cases slash : letter = '/'
      · subst slash
        simp [piecesFrom, ih]
      · simp [piecesFrom, ih]

theorem piecesFrom_plain
    {text : List Char}
    (plain : '/' ∉ text)
    (piece : List Char) :
    piecesFrom text piece = [String.ofList (piece.reverse ++ text)] := by
  induction text generalizing piece with
  | nil => simp [piecesFrom]
  | cons letter text ih =>
      rw [List.mem_cons, not_or] at plain
      simp [piecesFrom, Ne.symm plain.1, ih plain.2]

theorem pieces_slash (front back : String) :
    pieces (front ++ "/" ++ back) = pieces front ++ pieces back := by
  have letters :
      (front ++ "/" ++ back).toList = front.toList ++ '/' :: back.toList := by
        simp
  rw [pieces, letters, piecesFrom_slash, pieces, pieces]

theorem pieces_of_plain {name : String} (plain : '/' ∉ name.toList) :
    pieces name = [name] := by
  rw [pieces, piecesFrom_plain plain]
  simp

theorem pieces_ne_nil (path : String) : pieces path ≠ [] := by
  have longer (text piece : List Char) : piecesFrom text piece ≠ [] := by
    fun_induction piecesFrom text piece with
    | case1 => simp
    | case2 => simp
    | case3 _ _ _ _ ih => exact ih
  exact longer _ _

theorem pieces_slash_end (front : String) :
    pieces (front ++ "/") = pieces front ++ [""] := by
  have cut := pieces_slash front ""
  rwa [String.append_empty] at cut

theorem head?_pieces_append (path last : String) :
    (pieces path ++ [last]).head? = (pieces path).head? := by
  rcases List.exists_cons_of_ne_nil (pieces_ne_nil path) with ⟨first, rest, cut⟩
  simp [cut]

/-! ## Components of joined paths -/

/-- What stands behind a slash adds its components. -/
theorem components_slash
    {name : String}
    (isName : IsName name)
    (front : String) :
    components (front ++ "/" ++ name) =
      components (front ++ "/") ++ [.name name] := by
  have absolute :
      isAbsolute (front ++ "/" ++ name) = isAbsolute (front ++ "/") := by
    simp [isAbsolute, List.head?_append]
  have blank : Component.ofPiece? "" = none := rfl
  simp only [components, absolute, pieces_slash, pieces_slash_end,
    pieces_of_plain isName.plain, head?_pieces_append]
  simp [isName.ofPiece?, blank]

/-- A slash at the end of a path adds nothing. -/
theorem components_slash_end {front : String} (nonempty : front ≠ "") :
    components (front ++ "/") = components front := by
  have absolute : isAbsolute (front ++ "/") = isAbsolute front := by
    have letters : front.toList ≠ [] := by simpa using nonempty
    rcases List.exists_cons_of_ne_nil letters with ⟨letter, rest, letters⟩
    simp [isAbsolute, letters]
  have blank : Component.ofPiece? "" = none := rfl
  simp only [components, absolute, pieces_slash_end, head?_pieces_append]
  simp [blank]

theorem exists_of_isDirectoryPath
    {directory : String}
    (slash : isDirectoryPath directory = true) :
    ∃ front, directory = front ++ "/" := by
  rw [isDirectoryPath, beq_iff_eq, List.getLast?_eq_some_iff] at slash
  rcases slash with ⟨front, letters⟩
  refine ⟨String.ofList front, ?_⟩
  apply String.toList_inj.mp
  simp [letters]

/-- Joining a name adds one component. -/
theorem components_join
    {directory name : String}
    (nonempty : directory ≠ "")
    (isName : IsName name) :
    components (join directory name) =
      components directory ++ [.name name] := by
  unfold join
  split
  · rename_i slash
    rcases exists_of_isDirectoryPath slash with ⟨front, rfl⟩
    exact components_slash isName front
  · rw [components_slash isName, components_slash_end nonempty]

theorem join_ne_empty
    {directory : String}
    (nonempty : directory ≠ "")
    (name : String) :
    join directory name ≠ "" := by
  unfold join
  split <;> simp [nonempty]

/-- The path that names lead to, starting at a directory. -/
def under (directory : String) (names : List String) : String :=
  names.foldl join directory

theorem under_nil (directory : String) : under directory [] = directory :=
  rfl

@[simp]
theorem under_cons (directory name : String) (names : List String) :
    under directory (name :: names) = under (join directory name) names :=
  rfl

/-- The key of a path below a directory holds a key for each name on the way. -/
theorem key_under
    {directory : String}
    (nonempty : directory ≠ "")
    {names : List String}
    (areNames : ∀ name ∈ names, IsName name) :
    key (under directory names) =
      key directory ++ names.map fun name => Component.key (.name name) := by
  induction names generalizing directory with
  | nil => rw [under_nil, List.map_nil, List.append_nil]
  | cons name names ih =>
      rw [List.forall_mem_cons] at areNames
      rw [under_cons, ih (join_ne_empty nonempty name) areNames.2, key,
        components_join nonempty areNames.1]
      simp [key]

/-! ## The order of paths -/

/-- A path comes before another one. -/
def Precedes (left right : String) : Prop :=
  compare (key left) (key right) = .lt

instance (left right : String) : Decidable (Precedes left right) :=
  inferInstanceAs (Decidable (_ = _))

theorem atMost_trans
    (first second third : String)
    (left : atMost first second = true)
    (right : atMost second third = true) :
    atMost first third = true :=
  Std.TransCmp.isLE_trans left right

theorem atMost_total (left right : String) :
    (atMost left right || atMost right left) = true := by
  have swapped :
      compare (key right) (key left) = (compare (key left) (key right)).swap :=
    Std.OrientedOrd.eq_swap
  rw [atMost, atMost, swapped]
  cases compare (key left) (key right) <;> rfl

theorem precedes_of_atMost
    {left right : String}
    (atMost : atMost left right = true)
    (different : key left ≠ key right) :
    Precedes left right := by
  rcases Ordering.isLE_iff_eq_lt_or_eq_eq.mp atMost with precedes | same
  · exact precedes
  · exact absurd (Std.LawfulEqOrd.eq_of_compare same) different

theorem not_precedes_of_precedes
    {left right : String}
    (precedes : Precedes left right) :
    ¬ Precedes right left := by
  intro back
  have swapped :
      compare (key right) (key left) = (compare (key left) (key right)).swap :=
    Std.OrientedOrd.eq_swap
  rw [Precedes] at precedes back
  rw [swapped, precedes] at back
  cases back

/-- Sorting puts paths with different keys in ascending order. -/
theorem pairwise_mergeSort
    {paths : List String}
    (different : (paths.map key).Nodup) :
    (paths.mergeSort atMost).Pairwise Precedes := by
  have sorted := List.pairwise_mergeSort atMost_trans atMost_total paths
  have nodup : ((paths.mergeSort atMost).map key).Nodup :=
    ((List.mergeSort_perm paths atMost).map key).nodup_iff.mpr different
  rw [List.Nodup, List.pairwise_map] at nodup
  exact sorted.imp₂ (fun _ _ => precedes_of_atMost) nodup

/-- Paths have only one ascending order. -/
theorem eq_of_perm
    {paths others : List String}
    (ascending : paths.Pairwise Precedes)
    (otherAscending : others.Pairwise Precedes)
    (perm : paths.Perm others) :
    paths = others := by
  apply List.Perm.eq_of_pairwise _ ascending otherAscending perm
  intro left right _ _ forward backward
  exact absurd backward (not_precedes_of_precedes forward)

/-- The order in which paths are found does not show once they are sorted. -/
theorem mergeSort_eq_of_perm
    {paths others : List String}
    (different : (paths.map key).Nodup)
    (perm : paths.Perm others) :
    paths.mergeSort atMost = others.mergeSort atMost := by
  apply eq_of_perm (pairwise_mergeSort different)
    (pairwise_mergeSort ((perm.map key).nodup_iff.mp different))
  exact (List.mergeSort_perm paths atMost).trans
    (perm.trans (List.mergeSort_perm others atMost).symm)

end Path

/-! ## Names of class files -/

/--
The name of a class file ends with its extension and has something before it.
-/
theorem FileTree.isClassFileName_iff (name : String) :
    FileTree.isClassFileName name = true ↔ ∃ stem,
      stem ≠ "" ∧ name = stem ++ ".smali" := by
  rw [FileTree.isClassFileName, beq_iff_eq, Path.extension?]
  constructor
  · intro found
    have letters :=
      List.takeWhile_append_dropWhile (p := (· != '.'))
        (l := name.toList.reverse)
    have stops := List.head?_dropWhile_not (· != '.') name.toList.reverse
    split at found
    · rename_i dot first stem rest
      have isDot : dot = '.' := by simpa [rest] using stops
      have extension := congrArg String.toList (Option.some.inj found)
      rw [String.toList_ofList, List.reverse_eq_iff] at extension
      rw [rest, extension, isDot] at letters
      refine ⟨String.ofList (first :: stem).reverse, by simp, ?_⟩
      apply String.toList_inj.mp
      rw [List.reverse_eq_iff.mp letters.symm]
      simp
    · cases found
  · rintro ⟨stem, nonempty, rfl⟩
    have letters : (stem ++ ".smali").toList.reverse =
        ['i', 'l', 'a', 'm', 's', '.'] ++ stem.toList.reverse := by simp
    have reversed : stem.toList.reverse ≠ [] := by simpa using nonempty
    rcases List.exists_cons_of_ne_nil reversed with ⟨first, rest, cut⟩
    rw [letters, cut]
    rfl

end SmaliFlow
