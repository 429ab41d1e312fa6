import Mathlib.Data.List.Forall2
import SmaliFlow.Proofs.Paths

/-!
# Enumeration of directories

The entries of a directory come in some order, and nothing that is found by a
path depends on it: trees that differ only in the order of entries give the same
contents and the same errors, and the class files below a directory are the same
up to their order.  Where the entries of each directory have names of their own,
no two class files below a directory have the same key.
-/

namespace SmaliFlow

namespace FileTree

/-! ## Entries below a directory -/

/--
What holds of no entries, and of any entries once it holds of those behind the
first one and of those inside it, holds of all entries.
-/
theorem entriesInduction
    {motive : List (String × FileTree) → Prop}
    (nil : motive [])
    (cons : ∀ name tree entries,
      (∀ inner, tree = .directory inner → motive inner) →
      motive entries → motive ((name, tree) :: entries)) :
    (entries : List (String × FileTree)) → motive entries
  | [] => nil
  | (name, .file content) :: entries =>
      cons name (.file content) entries (by intro inner same; cases same)
        (entriesInduction nil cons entries)
  | (name, .directory inner) :: entries =>
      cons name (.directory inner) entries
        (by intro other same; cases same; exact entriesInduction nil cons inner)
        (entriesInduction nil cons entries)

/--
Names that lead from the entries of a directory to a file or directory below.
-/
inductive Below : (entries : List (String × FileTree)) → (names : List String) →
    (tree : FileTree) → Prop where
  | entry
      {entries : List (String × FileTree)}
      {name : String}
      {tree : FileTree}
      (member : (name, tree) ∈ entries) :
      Below entries [name] tree
  | inside
      {entries inner : List (String × FileTree)}
      {name : String}
      {names : List String}
      {tree : FileTree}
      (member : (name, .directory inner) ∈ entries)
      (below : Below inner names tree) :
      Below entries (name :: names) tree

theorem Below.exists_first
    {entries : List (String × FileTree)}
    {names : List String}
    {tree : FileTree}
    (below : Below entries names tree) :
    ∃ name rest, names = name :: rest ∧ name ∈ entries.map Prod.fst := by
  cases below with
  | @entry _ name _ member => exact ⟨name, [], rfl, List.mem_map_of_mem member⟩
  | @inside _ _ name names _ member below =>
      exact ⟨name, names, rfl, List.mem_map_of_mem member⟩

theorem not_below_nil (names : List String) (tree : FileTree) :
    ¬ Below [] names tree := by
  intro below
  rcases below.exists_first with ⟨name, rest, -, member⟩
  cases member

/-- What lies below entries is the first one, inside it, or below the others. -/
theorem below_cons_iff
    (name : String)
    (tree : FileTree)
    (entries : List (String × FileTree))
    (names : List String)
    (target : FileTree) :
    Below ((name, tree) :: entries) names target ↔
      (names = [name] ∧ target = tree) ∨
      (∃ inner rest,
        tree = .directory inner ∧ names = name :: rest ∧
          Below inner rest target) ∨
      Below entries names target := by
  constructor
  · intro below
    cases below with
    | entry member =>
        rcases List.mem_cons.mp member with same | member
        · cases same
          exact .inl ⟨rfl, rfl⟩
        · exact .inr (.inr (.entry member))
    | inside member below =>
        rcases List.mem_cons.mp member with same | member
        · cases same
          exact .inr (.inl ⟨_, _, rfl, rfl, below⟩)
        · exact .inr (.inr (.inside member below))
  · rintro (⟨rfl, rfl⟩ | ⟨inner, rest, rfl, rfl, below⟩ | below)
    · exact .entry List.mem_cons_self
    · exact .inside List.mem_cons_self below
    · cases below with
      | entry member => exact .entry (List.mem_cons_of_mem _ member)
      | inside member below =>
          exact .inside (List.mem_cons_of_mem _ member) below

/-- Names that lead to a class file. -/
def NamesClassFile (entries : List (String × FileTree)) (names : List String) :
    Prop :=
  ∃ content stem, Below entries names (.file content) ∧ stem ≠ "" ∧
    names.getLast? = some (stem ++ ".smali")

theorem namesClassFile_cons_iff
    (name : String)
    (tree : FileTree)
    (entries : List (String × FileTree))
    (names : List String) :
    NamesClassFile ((name, tree) :: entries) names ↔
      (names = [name] ∧ (∃ content, tree = .file content) ∧
        isClassFileName name = true) ∨
      (∃ inner rest, tree = .directory inner ∧ names = name :: rest ∧
        NamesClassFile inner rest) ∨
      NamesClassFile entries names := by
  constructor
  · rintro ⟨content, stem, below, nonempty, last⟩
    rcases (below_cons_iff _ _ _ _ _).mp below with
      ⟨rfl, same⟩ | ⟨inner, rest, same, rfl, inside⟩ | below
    · refine .inl ⟨rfl, ⟨content, same.symm⟩,
        (isClassFileName_iff name).mpr ⟨stem, nonempty, ?_⟩⟩
      simpa using last
    · rcases inside.exists_first with ⟨next, others, rfl, -⟩
      rw [List.getLast?_cons_cons] at last
      exact .inr (.inl ⟨inner, _, same, rfl, content, stem, inside, nonempty,
        last⟩)
    · exact .inr (.inr ⟨content, stem, below, nonempty, last⟩)
  · rintro (⟨rfl, ⟨content, rfl⟩, isClass⟩ | ⟨inner, rest, rfl, rfl,
      found⟩ | found)
    · rcases (isClassFileName_iff name).mp isClass with ⟨stem, nonempty, rfl⟩
      exact ⟨content, stem, (below_cons_iff _ _ _ _ _).mpr (.inl ⟨rfl, rfl⟩),
        nonempty, rfl⟩
    · rcases found with ⟨content, stem, below, nonempty, last⟩
      rcases below.exists_first with ⟨next, others, rfl, -⟩
      have inside := (below_cons_iff name (.directory inner) entries _ _).mpr
        (.inr (.inl ⟨inner, _, rfl, rfl, below⟩))
      exact ⟨content, stem, inside, nonempty, by
        rw [List.getLast?_cons_cons, last]⟩
    · rcases found with ⟨content, stem, below, nonempty, last⟩
      exact ⟨content, stem, (below_cons_iff _ _ _ _ _).mpr (.inr (.inr below)),
        nonempty, last⟩

theorem classFilesIn_cons
    (directory name : String)
    (tree : FileTree)
    (entries : List (String × FileTree)) :
    classFilesIn directory ((name, tree) :: entries) =
      classFiles name (Path.join directory name) tree ++
        classFilesIn directory entries := by
  rw [classFilesIn, classFilesAt]

theorem directoriesIn_cons
    (directory name : String)
    (tree : FileTree)
    (entries : List (String × FileTree)) :
    directoriesIn directory ((name, tree) :: entries) =
      directories (Path.join directory name) tree ++
        directoriesIn directory entries := by
  rw [directoriesIn, directoriesAt]

/-- The class files below a directory are those that names lead to. -/
theorem mem_classFilesIn_iff
    (directory path : String)
    (entries : List (String × FileTree)) :
    path ∈ classFilesIn directory entries ↔
      ∃ names,
        NamesClassFile entries names ∧ path = Path.under directory names := by
  induction entries using entriesInduction generalizing directory with
  | nil =>
      simp only [classFilesIn, List.not_mem_nil, false_iff]
      rintro ⟨names, ⟨content, stem, below, -⟩, -⟩
      exact not_below_nil _ _ below
  | cons name tree entries inside ih =>
      simp only [classFilesIn_cons, List.mem_append, ih,
        namesClassFile_cons_iff, or_and_right, exists_or, ← or_assoc]
      apply or_congr_left
      cases tree with
      | file content =>
          simp [classFiles, Path.under_nil]
      | directory inner =>
          simp [classFiles, inside inner rfl]

/-- The directories below a directory are those that names lead to. -/
theorem mem_directoriesIn_iff
    (directory path : String)
    (entries : List (String × FileTree)) :
    path ∈ directoriesIn directory entries ↔
      ∃ inner names, Below entries names (.directory inner) ∧
        path = Path.under directory names := by
  induction entries using entriesInduction generalizing directory with
  | nil => simp [directoriesIn, not_below_nil]
  | cons name tree entries inside ih =>
      simp only [directoriesIn_cons, List.mem_append, ih, below_cons_iff,
        or_and_right, exists_or, ← or_assoc]
      apply or_congr_left
      cases tree with
      | file content => simp [directories]
      | directory inner =>
          simp [directories, inside inner rfl, Path.under_nil]

/-! ## Names of entries -/

/--
The entries of a directory, and of all directories below, have proper and
different names.
-/
inductive WellFormed : (entries : List (String × FileTree)) → Prop where
  | nil : WellFormed []
  | cons
      {name : String}
      {tree : FileTree}
      {entries : List (String × FileTree)}
      (isName : Path.IsName name)
      (different : name ∉ entries.map Prod.fst)
      (inside : ∀ inner, tree = .directory inner → WellFormed inner)
      (rest : WellFormed entries) :
      WellFormed ((name, tree) :: entries)

namespace WellFormed

variable {entries : List (String × FileTree)}

theorem isName_of_below
    (wellFormed : WellFormed entries)
    {names : List String}
    {tree : FileTree}
    (below : Below entries names tree) :
    ∀ name ∈ names, Path.IsName name := by
  induction wellFormed generalizing names with
  | nil => exact absurd below (not_below_nil _ _)
  | cons isName different inside rest insideIh restIh =>
      rcases (below_cons_iff _ _ _ _ _).mp below with
        ⟨rfl, -⟩ | ⟨inner, behind, same, rfl, deeper⟩ | other
      · simpa using isName
      · exact List.forall_mem_cons.mpr ⟨isName, insideIh inner same deeper⟩
      · exact restIh other

/-- The key of a class file tells the entry it lies below. -/
theorem exists_key_of_mem
    (wellFormed : WellFormed entries)
    {directory path : String}
    (nonempty : directory ≠ "")
    (member : path ∈ classFilesIn directory entries) :
    ∃ name rest, name ∈ entries.map Prod.fst ∧
      Path.key path =
        Path.key directory ++ Component.key (.name name) :: rest := by
  rcases (mem_classFilesIn_iff _ _ _).mp member with
    ⟨names, ⟨content, stem, below, -⟩, rfl⟩
  rw [Path.key_under nonempty (wellFormed.isName_of_below below)]
  rcases below.exists_first with ⟨name, behind, rfl, entry⟩
  exact ⟨name, _, entry, rfl⟩

/-- No two class files below a directory have the same key. -/
theorem nodup_keys
    (wellFormed : WellFormed entries)
    {directory : String}
    (nonempty : directory ≠ "") :
    ((classFilesIn directory entries).map Path.key).Nodup := by
  induction wellFormed generalizing directory with
  | nil => simp [classFilesIn]
  | @cons name tree entries isName different inside rest insideIh restIh =>
      rw [classFilesIn_cons, List.map_append, List.nodup_append]
      refine ⟨?_, restIh nonempty, ?_⟩
      · cases tree with
        | file content =>
            rw [classFiles]
            split <;> simp
        | directory inner =>
            exact insideIh inner rfl (Path.join_ne_empty nonempty name)
      · -- Below the first entry all keys go on with its name, below the others
        -- with another one.
        intro first firstMember second secondMember same
        rcases List.mem_map.mp firstMember with ⟨path, member, rfl⟩
        rcases List.mem_map.mp secondMember with ⟨other, otherMember, rfl⟩
        have alone : WellFormed [(name, tree)] :=
          .cons isName (by simp) inside .nil
        have member : path ∈ classFilesIn directory [(name, tree)] := by
          rw [classFilesIn_cons]
          exact List.mem_append_left _ member
        rcases alone.exists_key_of_mem nonempty member with
          ⟨left, leftRest, isLeft, leftKey⟩
        rcases rest.exists_key_of_mem nonempty otherMember with
          ⟨right, rightRest, isRight, rightKey⟩
        rw [leftKey, rightKey, List.append_cancel_left_eq, List.cons.injEq]
          at same
        have isFirst : left = name := by simpa using isLeft
        rw [← Component.key_name_inj same.1, isFirst] at isRight
        exact different isRight

end WellFormed

/-! ## Trees that differ in the order of entries -/

/-- The same entries in another order, also inside directories. -/
inductive Permuted : (entries others : List (String × FileTree)) → Prop where
  | nil : Permuted [] []
  | keep
      (entry : String × FileTree)
      {entries others : List (String × FileTree)}
      (rest : Permuted entries others) :
      Permuted (entry :: entries) (entry :: others)
  | inside
      (name : String)
      {inner others entries rest : List (String × FileTree)}
      (order : Permuted inner others)
      (behind : Permuted entries rest) :
      Permuted ((name, .directory inner) :: entries)
        ((name, .directory others) :: rest)
  | swap
      {first second : String × FileTree}
      (different : first.1 ≠ second.1)
      (entries : List (String × FileTree)) :
      Permuted (first :: second :: entries) (second :: first :: entries)
  | trans
      {first second third : List (String × FileTree)}
      (left : Permuted first second)
      (right : Permuted second third) :
      Permuted first third

/-- The same file, or directories that differ only in the order of entries. -/
inductive Reordered : (tree other : FileTree) → Prop where
  | file (content : Bytes) : Reordered (.file content) (.file content)
  | directory
      {entries others : List (String × FileTree)}
      (order : Permuted entries others) :
      Reordered (.directory entries) (.directory others)

theorem Permuted.refl (entries : List (String × FileTree)) :
    Permuted entries entries := by
  induction entries with
  | nil => exact .nil
  | cons entry entries ih => exact .keep entry ih

theorem Reordered.refl (tree : FileTree) : Reordered tree tree := by
  cases tree with
  | file content => exact .file content
  | directory entries => exact .directory (.refl entries)

theorem Reordered.trans
    {first second third : FileTree}
    (left : Reordered first second)
    (right : Reordered second third) :
    Reordered first third := by
  cases left with
  | file content => exact right
  | directory order =>
      cases right with
      | directory further => exact .directory (order.trans further)

theorem Reordered.trans_rel
    {first second third : Option FileTree}
    (left : Option.Rel Reordered first second)
    (right : Option.Rel Reordered second third) :
    Option.Rel Reordered first third := by
  cases left with
  | none => exact right
  | some leftOrder =>
      cases right with
      | some rightOrder => exact .some (leftOrder.trans rightOrder)

namespace Permuted

variable {entries others : List (String × FileTree)}

/-- A name is found in both orders or in none, with the same thing behind it. -/
theorem lookup (order : Permuted entries others) (name : String) :
    Option.Rel Reordered (entries.lookup name) (others.lookup name) := by
  induction order with
  | nil => exact .none
  | keep entry rest ih =>
      rcases entry with ⟨other, tree⟩
      simp only [List.lookup_cons]
      split
      · exact .some (.refl tree)
      · exact ih
  | inside other order behind orderIh behindIh =>
      simp only [List.lookup_cons]
      split
      · exact .some (.directory order)
      · exact behindIh
  | @swap first second different entries =>
      rcases first with ⟨left, tree⟩
      rcases second with ⟨right, other⟩
      simp only [List.lookup_cons]
      cases isLeft : name == left with
      | false =>
          cases name == right with
          | false =>
              cases entries.lookup name with
              | none => exact .none
              | some found => exact .some (.refl found)
          | true => exact .some (.refl other)
      | true =>
          have isRight : (name == right) = false := by
            rw [beq_iff_eq] at isLeft
            simpa [isLeft] using different
          rw [isRight]
          exact .some (.refl tree)
  | trans left right leftIh rightIh => exact Reordered.trans_rel leftIh rightIh

/-- What is collected entry by entry is the same up to its order. -/
theorem perm_collect
    {collect : String → List (String × FileTree) → List String}
    {own : String → String → FileTree → List String}
    (cons : ∀ directory name tree entries,
      collect directory ((name, tree) :: entries) =
      own directory name tree ++ collect directory entries)
    (inside : ∀ directory name inner others,
      (∀ path, (collect path inner).Perm (collect path others)) →
      (own directory name (.directory inner)).Perm
        (own directory name (.directory others)))
    (order : Permuted entries others)
    (directory : String) :
    (collect directory entries).Perm (collect directory others) := by
  induction order generalizing directory with
  | nil => exact .refl _
  | keep entry rest ih =>
      rw [cons, cons]
      exact (ih directory).append_left _
  | inside name order behind orderIh behindIh =>
      rw [cons, cons]
      exact (inside directory name _ _ orderIh).append (behindIh directory)
  | @swap first second different entries =>
      rw [cons, cons, cons, cons]
      exact List.perm_append_comm_assoc _ _ _
  | trans left right leftIh rightIh =>
      exact (leftIh directory).trans (rightIh directory)

/-- The class files below a directory are the same up to their order. -/
theorem perm_classFilesIn
    (order : Permuted entries others)
    (directory : String) :
    (classFilesIn directory entries).Perm (classFilesIn directory others) := by
  apply order.perm_collect classFilesIn_cons
  intro directory name inner others perm
  rw [classFiles, classFiles]
  exact perm _

/-- The directories below a directory are the same up to their order. -/
theorem perm_directoriesIn
    (order : Permuted entries others)
    (directory : String) :
    (directoriesIn directory entries).Perm
      (directoriesIn directory others) := by
  apply order.perm_collect directoriesIn_cons
  intro directory name inner others perm
  rw [directories, directories]
  exact (perm _).cons _

end Permuted

/-! ## Looking up in reordered trees -/

/-- The same error, or trees that differ only in the order of entries. -/
inductive Agree : (result other : Except AccessError FileTree) → Prop where
  | error (cause : AccessError) : Agree (.error cause) (.error cause)
  | ok {tree other : FileTree} (same : Reordered tree other) :
      Agree (.ok tree) (.ok other)

/-- A piece of a path stays, goes up or enters an entry. -/
theorem walk_directory
    (entries : List (String × FileTree))
    (above : List FileTree)
    (piece : String)
    (pieces : List String) :
    walk (.directory entries) above (piece :: pieces) =
      if piece = "" || piece = "." then
        walk (.directory entries) above pieces
      else if piece = ".." then
        walk (above.headD (.directory entries)) above.tail pieces
      else if Path.nameLimit < piece.utf8ByteSize then
        .error .nameTooLong
      else
        match entries.lookup piece with
        | some entry => walk entry (.directory entries :: above) pieces
        | none => .error .notFound := by
  cases above <;> rw [walk] <;> rfl

/-- The pieces of a path lead to the same thing in both trees. -/
theorem agree_walk
    {place other : FileTree}
    (same : Reordered place other)
    {above others : List FileTree}
    (outer : List.Forall₂ Reordered above others)
    (pieces : List String) :
    Agree (walk place above pieces) (walk other others pieces) := by
  induction pieces generalizing place other above others with
  | nil =>
      rw [walk, walk]
      exact .ok same
  | cons piece pieces ih =>
      cases same with
      | file content => exact .error .notDirectory
      | directory order =>
          simp only [walk_directory]
          split_ifs with stays up long
          · exact ih (.directory order) outer
          · cases outer with
            | nil => exact ih (.directory order) .nil
            | cons parent outer => exact ih parent outer
          · exact .error .nameTooLong
          · have agree := order.lookup piece
            generalize List.lookup piece _ = left at agree ⊢
            generalize List.lookup piece _ = right at agree ⊢
            cases agree with
            | none => exact .error .notFound
            | some found => exact ih found (.cons (.directory order) outer)

end FileTree

namespace FileSystem

/--
The same working directory in trees that differ only in the order of entries.
-/
structure Reordered (system other : FileSystem) : Prop where
  root : FileTree.Reordered system.root other.root
  working : system.working = other.working

variable {system other : FileSystem}

/-- A path leads to the same thing in both systems. -/
theorem agree_find (same : Reordered system other) (path : String) :
    FileTree.Agree (system.find path) (other.find path) := by
  unfold find
  rw [same.working]
  split_ifs
  · exact .error .zeroOctet
  · exact .error .notFound
  · exact .error .nameTooLong
  · exact FileTree.agree_walk same.root .nil _
  · exact FileTree.agree_walk same.root .nil _

/-- Files have the same contents in both systems, and the same errors. -/
theorem read_eq_of_reordered (same : Reordered system other) (path : String) :
    system.read path = other.read path := by
  have agree := agree_find same path
  unfold read
  generalize system.find path = left at agree ⊢
  generalize other.find path = right at agree ⊢
  cases agree with
  | error cause => rfl
  | ok found =>
      cases found with
      | file content => rfl
      | directory order => rfl

/-- Directories have the same entries in both systems up to their order. -/
theorem list_of_reordered
    (same : Reordered system other)
    {path : String}
    {entries : List (String × FileTree)}
    (listed : system.list path = .ok entries) :
    ∃ others, other.list path = .ok others ∧
      FileTree.Permuted entries others := by
  have agree := agree_find same path
  unfold list at listed ⊢
  generalize system.find path = left at agree listed
  generalize other.find path = right at agree ⊢
  cases agree with
  | error cause => cases listed
  | ok found =>
      cases found with
      | file content => cases listed
      | directory order =>
          cases listed
          exact ⟨_, rfl, order⟩

/--
A directory that can be listed has a path that is not empty and not too long.
-/
theorem path_of_list
    {path : String}
    {entries : List (String × FileTree)}
    (listed : system.list path = .ok entries) :
    path ≠ "" ∧ Path.isTooLong path = false := by
  unfold list find at listed
  split_ifs at listed with zero empty long
  · cases listed
  · cases listed
  · cases listed
  · exact ⟨empty, by simpa using long⟩
  · exact ⟨empty, by simpa using long⟩

end FileSystem

end SmaliFlow
