import SmaliFlow.Proofs.Enumeration
import SmaliFlow.Proofs.Labels

/-!
# Loading a directory

The class files below a directory are sorted before they are read, and each of
them is read by its path.  So loading gives the same application in whatever
order the directories list their entries.  The files are added in ascending
order, which puts each accepted class behind all earlier ones: in the order of
their paths the classes carry the labels from zero on, and every class file is
accepted or refused exactly once.
-/

namespace SmaliFlow

open FileTree

/-! ## The files that are read -/

/--
A directory with the given entries that can be listed, and all directories below
it.
-/
structure FileSystem.Listable
    (system : FileSystem)
    (directory : String)
    (entries : List (String × FileTree)) : Prop where
  listed : system.list directory = .ok entries
  inside : ∀ names inner, Below entries names (.directory inner) →
    ∃ listed, system.list (Path.under directory names) = .ok listed

theorem FileSystem.Listable.isTooLong_of_mem
    {system : FileSystem}
    {directory : String}
    {entries : List (String × FileTree)}
    (listable : system.Listable directory entries) :
    ∀ path ∈ directoriesIn directory entries, Path.isTooLong path = false := by
  intro path member
  rcases (mem_directoriesIn_iff _ _ _).mp member with ⟨inner, names, below, rfl⟩
  rcases listable.inside names inner below with ⟨listed, found⟩
  exact (FileSystem.path_of_list found).2

namespace Application

theorem classFilePaths_eq
    {system : FileSystem}
    {directory : String}
    {entries : List (String × FileTree)}
    (listed : system.list directory = .ok entries)
    (short : ∀ path ∈ directoriesIn directory entries,
      Path.isTooLong path = false) :
    classFilePaths system directory =
      .ok ((classFilesIn directory entries).mergeSort Path.atMost) := by
  have allShort :
      (directoriesIn directory entries).find? Path.isTooLong = none := by
    rw [List.find?_eq_none]
    intro path member
    simp [short path member]
  simp only [classFilePaths, listed, allShort]

/-- The files that are read do not depend on the order of entries. -/
theorem classFilePaths_of_reordered
    {system other : FileSystem}
    {directory : String}
    {entries : List (String × FileTree)}
    (listable : system.Listable directory entries)
    (wellFormed : WellFormed entries)
    (same : system.Reordered other) :
    classFilePaths other directory = classFilePaths system directory := by
  rcases FileSystem.list_of_reordered same listable.listed with
    ⟨others, listed, order⟩
  have short : ∀ path ∈ directoriesIn directory others,
      Path.isTooLong path = false := by
    intro path member
    exact listable.isTooLong_of_mem path
      ((order.perm_directoriesIn directory).mem_iff.mpr member)
  rw [classFilePaths_eq listed short,
    classFilePaths_eq listable.listed listable.isTooLong_of_mem]
  have different :=
    wellFormed.nodup_keys (FileSystem.path_of_list listable.listed).1
  rw [Path.mergeSort_eq_of_perm different (order.perm_classFilesIn directory)]

/-- What adding a file gives does not depend on the order of entries. -/
theorem addFile_of_reordered
    {system other : FileSystem}
    (same : system.Reordered other)
    (application : Application)
    (path : String) :
    application.addFile other path = application.addFile system path := by
  simp only [addFile, ClassFile.load, FileSystem.readAtMost,
    FileSystem.read_eq_of_reordered same]

theorem addFiles_of_reordered
    {system other : FileSystem}
    (same : system.Reordered other)
    (application : Application)
    (paths : List String) :
    application.addFiles other paths = application.addFiles system paths := by
  simp only [addFiles, addFile_of_reordered same]

/-- Loading does not depend on the order of entries. -/
theorem load_of_reordered
    (settings : Settings)
    {system other : FileSystem}
    {directory : String}
    {entries : List (String × FileTree)}
    (listable : system.Listable directory entries)
    (wellFormed : WellFormed entries)
    (same : system.Reordered other) :
    load settings other directory = load settings system directory := by
  simp only [load, classFilePaths_of_reordered listable wellFormed same,
    addFiles_of_reordered same]

/-! ## The order of classes -/

theorem files_eq (application : Application) :
    application.files = application.classes.toList.map Prod.snd := by
  have folded : application.files =
      application.classes.foldr (fun _ file files => file :: files) [] := rfl
  rw [folded, Std.TreeMap.foldr_eq_foldr_toList]
  induction application.classes.toList with
  | nil => rfl
  | cons entry entries ih => simp [ih]

theorem length_files (application : Application) :
    application.files.length = application.size := by
  rw [files_eq, List.length_map, Std.TreeMap.length_toList, size]

/-- A class whose key comes behind all others becomes the last one. -/
theorem toList_insert_last
    {classes : Std.TreeMap Path.Key ClassFile}
    {key : Path.Key}
    (behind : ∀ entry ∈ classes.toList, compare entry.1 key = .lt)
    (file : ClassFile) :
    (classes.insert key file).toList = classes.toList ++ [(key, file)] := by
  have ascending : (classes.toList ++ [(key, file)]).Pairwise
      fun left right => compare left.1 right.1 = .lt := by
    rw [List.pairwise_append]
    refine ⟨Std.TreeMap.ordered_keys_toList, List.pairwise_singleton _ _, ?_⟩
    intro left leftMember right rightMember
    rw [List.mem_singleton.mp rightMember]
    exact behind left leftMember
  apply List.Perm.eq_of_pairwise _ Std.TreeMap.ordered_keys_toList ascending
  · -- Nothing is replaced, as no class has that key.
    have kept : (classes.toList.filter fun entry => decide ¬ (key == entry.1) =
        true) =
        classes.toList := by
      rw [List.filter_eq_self]
      intro entry member
      have different : key ≠ entry.1 := by
        intro same
        have lt := behind entry member
        rw [same, Std.ReflOrd.compare_self] at lt
        cases lt
      simpa using different
    have perm :=
      Std.TreeMap.toList_insert_perm (t := classes) (k := key) (v := file)
    rw [kept] at perm
    exact perm.trans (List.perm_append_singleton _ _).symm
  · intro left right _ _ forward backward
    rw [Std.OrientedOrd.eq_swap, forward] at backward
    cases backward

/--
After the files with the given paths, all in ascending order: classes are found
under their own paths, their labels count them in the order of their paths, and
every file has been accepted or refused.
-/
structure Filed (application : Application) (paths : List String) : Prop where
  keys : application.classes.toList =
    application.files.map fun file => (Path.key file.path, file)
  labels : application.files.map ClassFile.label =
    List.range application.nextLabel
  tried : (application.files.map ClassFile.path ++
    application.skipped.map Prod.fst).Perm paths

theorem filed_new (settings : Settings) : Filed { settings } [] where
  keys := rfl
  labels := rfl
  tried := .nil

namespace Filed

variable {application : Application} {paths : List String}

/--
A file behind all earlier ones keeps the classes in the order of their labels.
-/
theorem addFile
    (filed : application.Filed paths)
    (system : FileSystem)
    {path : String}
    (behind : ∀ earlier ∈ paths, Path.Precedes earlier path) :
    (application.addFile system path).application.Filed (paths ++ [path]) := by
  cases outcome :
      (ClassFile.load application.settings system path
        application.nextLabel).outcome with
  | ok file =>
      rw [(addFile_of_ok outcome).2]
      rcases ClassFile.path_label_of_load outcome with ⟨samePath, label⟩
      have last : (application.classes.insert (Path.key path) file).toList =
          application.classes.toList ++ [(Path.key path, file)] := by
        apply toList_insert_last
        intro entry member
        rw [filed.keys] at member
        rcases List.mem_map.mp member with ⟨earlier, earlierMember, rfl⟩
        apply behind
        exact filed.tried.mem_iff.mp
          (List.mem_append_left _ (List.mem_map_of_mem earlierMember))
      have files :
          Application.files { application with
            classes := application.classes.insert (Path.key path) file
            nextLabel := application.nextLabel + 1 } =
              application.files ++ [file] := by
        rw [files_eq, files_eq, last, List.map_append]
        rfl
      refine ⟨?_, ?_, ?_⟩
      · rw [files, last, filed.keys, List.map_append]
        simp [samePath]
      · rw [files, List.map_append, filed.labels, List.range_succ]
        simp [label]
      · simp only [files, List.map_append, List.map_cons, List.map_nil,
          samePath, List.append_assoc, List.singleton_append]
        have front : (path :: (application.files.map ClassFile.path ++
            application.skipped.map Prod.fst)).Perm (paths ++ [path]) :=
          (filed.tried.cons path).trans
            (List.perm_append_singleton path paths).symm
        exact List.perm_middle.trans front
  | error error =>
      rw [(addFile_of_error outcome).2]
      refine ⟨filed.keys, filed.labels, ?_⟩
      simp only [List.map_append, List.map_cons, List.map_nil,
        ← List.append_assoc]
      exact filed.tried.append_right [path]

theorem run
    (filed : application.Filed paths)
    (system : FileSystem)
    {others : List String}
    (ascending : (paths ++ others).Pairwise Path.Precedes) :
    (application.run (others.map (Step.add system))).Filed
      (paths ++ others) := by
  induction others generalizing application paths with
  | nil =>
      rw [List.append_nil]
      exact filed
  | cons path others ih =>
      have behind : ∀ earlier ∈ paths, Path.Precedes earlier path := by
        intro earlier member
        exact (List.pairwise_append.mp ascending).2.2 earlier member path
          List.mem_cons_self
      rw [List.append_cons] at ascending ⊢
      exact ih (filed.addFile system behind) ascending

/-- In the order of their paths the classes carry the labels from zero on. -/
theorem labels_eq_range_size (filed : application.Filed paths) :
    application.files.map ClassFile.label = List.range application.size := by
  have count := congrArg List.length filed.labels
  rw [List.length_map, List.length_range, length_files] at count
  rw [filed.labels, count]

/-- The classes are in the order of their paths. -/
theorem ascending_files (filed : application.Filed paths) :
    (application.files.map ClassFile.path).Pairwise Path.Precedes := by
  have ascending := Std.TreeMap.ordered_keys_toList (t := application.classes)
  rw [filed.keys, List.pairwise_map] at ascending
  rw [List.pairwise_map]
  exact ascending

end Filed

/--
Loading does not depend on the order in which directories list their entries.
In the order of their paths the loaded classes carry the labels from zero on,
and the loaded and refused files together are all class files below the
directory, each of them once.
-/
theorem load_independent_of_enumeration
    (settings : Settings)
    {system other : FileSystem}
    {directory : String}
    {entries : List (String × FileTree)}
    (listable : system.Listable directory entries)
    (wellFormed : WellFormed entries)
    (same : system.Reordered other) :
    load settings other directory = load settings system directory ∧
    ∃ application, (load settings system directory).outcome = .ok application ∧
      (application.classes.toList =
        application.files.map fun file => (Path.key file.path, file)) ∧
      (application.files.map ClassFile.path).Pairwise Path.Precedes ∧
      application.files.map ClassFile.label = List.range application.size ∧
      ((application.files.map ClassFile.path ++
        application.skipped.map Prod.fst).map Path.key).Nodup ∧
      ∀ path,
        path ∈ application.files.map ClassFile.path ++
          application.skipped.map Prod.fst ↔
          ∃ names,
            NamesClassFile entries names ∧
              path = Path.under directory names := by
  refine ⟨load_of_reordered settings listable wellFormed same, ?_⟩
  have found := classFilePaths_eq listable.listed listable.isTooLong_of_mem
  have different :=
    wellFormed.nodup_keys (FileSystem.path_of_list listable.listed).1
  have filed :=
    (filed_new settings).run system (Path.pairwise_mergeSort different)
  -- The files that were tried are those below the directory, in another order.
  have tried :=
    filed.tried.trans (List.mergeSort_perm (classFilesIn directory entries)
      Path.atMost)
  refine ⟨_, outcome_load found settings, filed.keys, filed.ascending_files,
    filed.labels_eq_range_size, (tried.map Path.key).nodup_iff.mpr different,
    ?_⟩
  intro path
  rw [tried.mem_iff, mem_classFilesIn_iff]

/--
Two classes, a file that declares none and another one that is no class file.
-/
def shelf : List (String × FileTree) :=
  [("b.smali", .file (Bytes.ofString ".class LB;\n")),
    ("a", .directory
      [("z.smali", .file []),
        ("c.smali", .file (Bytes.ofString ".class LC;\n"))]),
    ("notes", .file [])]

/-- The same entries in another order. -/
def shuffledShelf : List (String × FileTree) :=
  [("a", .directory
      [("c.smali", .file (Bytes.ofString ".class LC;\n")),
        ("z.smali", .file [])]),
    ("b.smali", .file (Bytes.ofString ".class LB;\n")),
    ("notes", .file [])]

theorem permuted_shelf : Permuted shelf shuffledShelf := by
  apply Permuted.trans (.swap (by decide) _)
  apply Permuted.inside "a" (.swap (by decide) [])
  exact .refl _

theorem wellFormed_shelf : WellFormed shelf := by
  have inner : WellFormed
      [("z.smali", .file []),
        ("c.smali", .file (Bytes.ofString ".class LC;\n"))] := by
    refine .cons (by decide) (by decide) ?_
      (.cons (by decide) (by decide) ?_ .nil)
    · intro inner same
      cases same
    · intro inner same
      cases same
  refine .cons (by decide) (by decide) ?_
    (.cons (by decide) (by decide) ?_ (.cons (by decide) (by decide) ?_ .nil))
  · intro inner same
    cases same
  · intro others same
    cases same
    exact inner
  · intro inner same
    cases same

/-- Entries in a directory of the working directory. -/
def shelved (entries : List (String × FileTree)) : FileSystem :=
  .ofWorking (.directory [("x", .directory entries)])

theorem listable_shelf : (shelved shelf).Listable "x" shelf where
  listed := rfl
  inside := by
    intro names inner below
    have found : names = ["a"] := by
      simp [shelf, below_cons_iff, not_below_nil] at below
      exact below.1
    rw [found]
    exact ⟨_, rfl⟩

/--
In both orders the classes get the same labels, and the file without a class is
refused.
-/
theorem load_independent_of_shuffling :
    ∃ application : Application,
      (shelved shelf).Listable "x" shelf ∧ WellFormed shelf ∧
      (shelved shelf).Reordered (shelved shuffledShelf) ∧
      (load .standard (shelved shuffledShelf) "x").outcome = .ok application ∧
      application.files.map (fun file => (file.path, file.label)) =
        [("x/a/c.smali", 0), ("x/b.smali", 1)] ∧
      application.skipped.map Prod.fst = ["x/a/z.smali"] := by
  have same : (shelved shelf).Reordered (shelved shuffledShelf) :=
    ⟨.directory (.inside "home" (.inside "x" permuted_shelf .nil) .nil), rfl⟩
  have equal :=
    (load_independent_of_enumeration .standard listable_shelf
      wellFormed_shelf same).1
  have sorted : (classFilesIn "x" shelf).mergeSort Path.atMost =
      ["x/a/c.smali", "x/a/z.smali", "x/b.smali"] := by
    apply Path.eq_of_perm (Path.pairwise_mergeSort (by decide +kernel))
      (by decide +kernel)
    exact (List.mergeSort_perm _ _).trans (by decide +kernel)
  have found :=
    classFilePaths_eq listable_shelf.listed listable_shelf.isTooLong_of_mem
  rw [sorted] at found
  have outcome := outcome_load found .standard
  rw [← equal] at outcome
  refine ⟨_, listable_shelf, wellFormed_shelf, same, outcome, ?_, ?_⟩
  · decide +kernel
  · decide +kernel

end Application

end SmaliFlow
