import Docblock.Proofs.FileSystem.Locations
import Docblock.Proofs.Path.CommonDirectory

/-!
# The files below several roots

An absolute path without a step up spells the location that it leads to, and so does what is
spelled below it (`IsRoot.components_spell_eq`): a root may be spelled in several ways, and they all
have the same components. So the PHP files of several roots are, by their components, the PHP files
that stand at the places of the roots or below, and the sorted set of them is one list, up to the
spelling of its paths, however the roots are ordered and however often one of them or a place below
it is given (`phpFilesOfRoots_collects`).

A root with a step up is left out (`IsRoot`): its components keep the step, while the place that it
leads to is told without it, so two roots of one place would not be known as the same. A relative
root is left out for a like reason. What stands below the roots is told by locations, which have one
path each, and the spelling of the result is whatever the roots were spelled with; so the law
compares paths by their components (`Path.same`).
-/

namespace Docblock

/-! ## Components of paths below a directory -/

namespace Path

/-- Pieces add their steps one row after the other. -/
theorem componentsOfPieces_append (front back : List Text) :
    componentsOfPieces (front ++ back) = componentsOfPieces front ++ componentsOfPieces back :=
  List.filterMap_append

/-- A name is one step down. -/
theorem componentsOfPieces_name {name : Text} (h : IsName name) :
    componentsOfPieces (name.splitOn '/') = [.name name] := by
  rw [List.splitOn_eq_singleton h.slash_not_mem]
  simp [componentsOfPieces, h.ne_nil, h.ne_here, h.ne_up]

/-- What stands behind a slash adds its own steps to those of an absolute path. -/
theorem components_append_slash {path : Text} (h : path.head? = some '/') (rest : Text) :
    components (path ++ '/' :: rest) =
      components path ++ componentsOfPieces (rest.splitOn '/') := by
  obtain ⟨front, rfl⟩ := List.head?_eq_some_iff.1 h
  have hfront : components ('/' :: front) = .root :: componentsOfPieces (front.splitOn '/') :=
    open_root front
  have hwhole : components ('/' :: front ++ '/' :: rest) =
      .root :: componentsOfPieces ((front ++ '/' :: rest).splitOn '/') :=
    open_root (front ++ '/' :: rest)
  rw [hwhole, hfront, List.splitOn_append_cons_self, componentsOfPieces_append]
  rfl

/-- A name under an absolute directory is one step more. -/
theorem components_join {directory name : Text} (h : directory.head? = some '/')
    (hname : IsName name) :
    components (join directory name) = components directory ++ [.name name] := by
  have hrelative : name.head? ≠ some '/' := fun hslash =>
    hname.slash_not_mem (List.mem_of_mem_head? hslash)
  have hne : directory ≠ [] := List.ne_nil_of_mem (List.mem_of_mem_head? h)
  rw [← componentsOfPieces_name hname]
  by_cases hslash : directory.getLast? = some '/'
  · have hjoin : join directory name = directory ++ name := by
      simp [join, hrelative, hne, hslash]
    rw [hjoin]
    obtain ⟨front, rfl⟩ := List.getLast?_eq_some_iff.1 hslash
    by_cases hfront : front = []
    · subst hfront
      exact open_root name
    · rw [List.head?_append_of_ne_nil _ hfront] at h
      rw [List.append_assoc, List.singleton_append, components_append_slash h,
        components_append_slash h []]
      simp [componentsOfPieces]
  · have hjoin : join directory name = directory ++ '/' :: name := by
      simp [join, hrelative, hne, hslash]
    rw [hjoin, components_append_slash h]

/-- Whether a path is that of a PHP file is told by its last component, so every spelling has the
same answer. -/
theorem isPhp_congr {a b : Text} (h : components a = components b) : isPhp a = isPhp b := by
  rw [isPhp, isPhp, fileName?, fileName?, h]

end Path

/-- What is spelled below an absolute directory has the names on the way as its further steps. -/
theorem FileSystem.components_spell {root : Text} (h : root.head? = some '/') {below : Location}
    (hnames : ∀ name ∈ below, Path.IsName name) :
    Path.components (spell root below) = Path.components root ++ below.map .name := by
  induction below generalizing root with
  | nil => exact (List.append_nil _).symm
  | cons name below ih =>
    obtain ⟨hname, hbelow⟩ := List.forall_mem_cons.1 hnames
    have hsteps := Path.components_join h hname
    have hjoin : (Path.join root name).head? = some '/' := by
      rw [← Path.root_prefix_components_iff, hsteps]
      exact (Path.root_prefix_components_iff.2 h).trans (List.prefix_append _ _)
    have hspell : spell root (name :: below) = spell (Path.join root name) below := rfl
    rw [hspell, ih hjoin hbelow, hsteps, List.append_assoc]
    rfl

/-- The components of a location's path are the root and its names. -/
theorem Location.components_path {location : Location}
    (hnames : ∀ name ∈ location, Path.IsName name) :
    Path.components location.path = .root :: location.map .name := by
  have hspell : FileSystem.spell (path []) location = location.path :=
    spell_path hnames
  rw [← hspell, FileSystem.components_spell rfl hnames]
  rfl

namespace FileSystem

variable {fs : FileSystem}

/-! ## Where roots lead -/

/-- A piece that is no step up leads down the name that it is, if it is one. -/
theorem map_name_of_enter? {location found : Location} {piece : Text}
    (hdown : .up ∉ Path.componentsOfPieces [piece]) (h : fs.enter? location piece = some found) :
    found.map .name = location.map .name ++ Path.componentsOfPieces [piece] := by
  unfold enter? at h
  split at h
  next entries _ =>
    split at h
    next hstay =>
      cases h
      simp_all [Path.componentsOfPieces]
    next hname =>
      split at h
      next hup => exact absurd (by simp [Path.componentsOfPieces, hup]) hdown
      next hne =>
        split at h
        next =>
          cases h
          simp_all [Path.componentsOfPieces]
        next => cases h
  next => cases h

/-- Pieces without a step up lead down by the names that are their components. -/
theorem map_name_of_foldlM_enter? {pieces : List Text} {location found : Location}
    (hdown : .up ∉ Path.componentsOfPieces pieces)
    (h : pieces.foldlM fs.enter? location = some found) :
    found.map .name = location.map .name ++ Path.componentsOfPieces pieces := by
  induction pieces generalizing location with
  | nil =>
    cases h
    exact (List.append_nil _).symm
  | cons piece pieces ih =>
    rw [List.foldlM_cons] at h
    obtain ⟨next, hnext, h⟩ := Option.bind_eq_some_iff.1 h
    rw [← List.singleton_append, Path.componentsOfPieces_append] at hdown ⊢
    rw [List.mem_append, not_or] at hdown
    rw [ih hdown.2 h, map_name_of_enter? hdown.1 hnext, List.append_assoc]

/-- A root as it is given: an absolute path without a step up, which leads to something. -/
structure IsRoot (fs : FileSystem) (root : Text) : Prop where
  absolute : root.head? = some '/'
  down : .up ∉ Path.components root
  found : (fs.get? root).isSome

/-- A root has the names of the location that it leads to. -/
theorem IsRoot.components_eq {root : Text} (h : fs.IsRoot root) {location : Location}
    (hresolve : fs.resolve? root = some location) :
    Path.components root = .root :: location.map .name := by
  obtain ⟨rest, rfl⟩ := List.head?_eq_some_iff.1 h.absolute
  have hsteps : Path.components ('/' :: rest) =
      .root :: Path.componentsOfPieces (rest.splitOn '/') :=
    Path.open_root rest
  have hdown := h.down
  rw [hsteps] at hdown ⊢
  have hlocation :=
    map_name_of_foldlM_enter? (fun hup => hdown (List.mem_cons_of_mem _ hup)) hresolve
  rw [hlocation]
  rfl

/-- What is spelled below a root spells the location there. -/
theorem IsRoot.components_spell_eq {root : Text} (h : fs.IsRoot root) {place below : Location}
    (hresolve : fs.resolve? root = some place)
    (hnames : ∀ name ∈ place ++ below, Path.IsName name) :
    Path.components (spell root below) = Path.components (place ++ below).path := by
  rw [components_spell h.absolute fun name hname => hnames name (List.mem_append_right _ hname),
    h.components_eq hresolve, Location.components_path hnames, List.map_append]
  rfl

/-! ## The PHP files at roots and below -/

/-- A PHP file stands at the location, and a root leads there or to a directory above. -/
structure PhpFileUnder (fs : FileSystem) (roots : List Text) (location : Location) : Prop where
  file : ∃ content, fs.at? location = some (.file content)
  php : Path.isPhp location.path
  under : ∃ root ∈ roots, ∃ place, fs.resolve? root = some place ∧ place <+: location

/-- A file is under several roots if it is under one of them. -/
theorem phpFileUnder_iff_exists {roots : List Text} {location : Location} :
    fs.PhpFileUnder roots location ↔ ∃ root ∈ roots, fs.PhpFileUnder [root] location := by
  constructor
  · rintro ⟨hfile, hphp, root, hroot, hunder⟩
    exact ⟨root, hroot, hfile, hphp, root, List.mem_singleton_self root, hunder⟩
  · rintro ⟨root, hroot, hfile, hphp, found, hfound, hunder⟩
    obtain rfl := List.mem_singleton.1 hfound
    exact ⟨hfile, hphp, found, hroot, hunder⟩

/-- The PHP files of one root spell the locations of the PHP files under it. -/
theorem IsRoot.phpFiles (htree : fs.tree.Proper) {root : Text} (h : fs.IsRoot root) :
    ∃ files, fs.phpFiles root = .ok files ∧ ∀ row, row ∈ files.map Path.components ↔
      ∃ location, fs.PhpFileUnder [root] location ∧ Path.components location.path = row := by
  obtain ⟨tree, hget⟩ := Option.isSome_iff_exists.1 h.found
  obtain ⟨place, hplace, hstands⟩ := Option.bind_eq_some_iff.1 hget
  obtain ⟨files, hfiles, hmem⟩ := mem_phpFiles hget
  have hat (below : Location) : fs.at? (place ++ below) = tree.get? below := by
    rw [at?_append, hstands, Option.bind_some]
  -- a root may be spelled in many ways, so a file is compared by the components of its path
  have hspell {below : Location} {content : ByteArray}
      (hcontent : fs.at? (place ++ below) = some (.file content)) :
      Path.components (spell root below) = Path.components (place ++ below).path :=
    h.components_spell_eq hplace (htree.get? hcontent).2
  refine ⟨files, hfiles, fun row => ?_⟩
  rw [List.mem_map]
  constructor
  · rintro ⟨file, hfile, rfl⟩
    obtain ⟨⟨below, hbelow, rfl⟩, hphp⟩ := (hmem file).1 hfile
    obtain ⟨content, hcontent⟩ := (FileTree.mem_files_iff (htree.get? hstands).1).1 hbelow
    rw [← hat] at hcontent
    refine ⟨place ++ below, ⟨⟨content, hcontent⟩, ?_, ?_⟩, (hspell hcontent).symm⟩
    · rwa [← Path.isPhp_congr (hspell hcontent)]
    · exact ⟨root, List.mem_singleton_self root, place, hplace, List.prefix_append _ _⟩
  · rintro ⟨location, ⟨⟨content, hcontent⟩, hphp, found, hfound, place', hplace', hunder⟩, rfl⟩
    obtain rfl := List.mem_singleton.1 hfound
    obtain rfl := Option.some.inj (hplace.symm.trans hplace')
    obtain ⟨below, rfl⟩ := hunder
    refine ⟨spell found below, (hmem _).2 ⟨⟨below, ?_, rfl⟩, ?_⟩, hspell hcontent⟩
    · rw [hat] at hcontent
      exact (FileTree.mem_files_iff (htree.get? hstands).1).2 ⟨content, hcontent⟩
    · rwa [Path.isPhp_congr (hspell hcontent)]

/-- The PHP files of several roots make a strictly increasing row, which spells the locations of the
PHP files under the roots. -/
theorem phpFilesOfRoots_rows (htree : fs.tree.Proper) {roots : List Text}
    (hroots : ∀ root ∈ roots, fs.IsRoot root) :
    ∃ files, fs.phpFilesOfRoots roots = .ok files ∧ files.Pairwise Path.Before ∧
      ∀ row, row ∈ files.map Path.components ↔
        ∃ location, fs.PhpFileUnder roots location ∧ Path.components location.path = row := by
  obtain ⟨lists, hlists, hspec⟩ := mapM_eq_ok fun root hroot =>
    ((hroots root hroot).phpFiles htree).imp fun _ => And.left
  refine ⟨Path.sortedSet lists.flatten, ?_, Path.pairwise_sortedSet _, fun row => ?_⟩
  · rw [phpFilesOfRoots, hlists]
    rfl
  rw [Path.mem_map_components_sortedSet, List.map_flatten, List.mem_flatten]
  constructor
  · rintro ⟨rows, hrows, hrow⟩
    obtain ⟨files, hfiles, rfl⟩ := List.mem_map.1 hrows
    obtain ⟨root, hroot, hok⟩ := (hspec files).1 hfiles
    obtain ⟨listed, hlisted, hmem⟩ := (hroots root hroot).phpFiles htree
    -- a root has one list of files, so the one that was listed is the one the spec is about
    obtain rfl := Except.ok.inj (hok.symm.trans hlisted)
    obtain ⟨location, hunder, heq⟩ := (hmem row).1 hrow
    exact ⟨location, phpFileUnder_iff_exists.2 ⟨root, hroot, hunder⟩, heq⟩
  · rintro ⟨location, hunder, heq⟩
    obtain ⟨root, hroot, hunder⟩ := phpFileUnder_iff_exists.1 hunder
    obtain ⟨files, hok, hmem⟩ := (hroots root hroot).phpFiles htree
    have hfiles := (hspec files).2 ⟨root, hroot, hok⟩
    exact ⟨_, List.mem_map_of_mem hfiles, (hmem row).2 ⟨location, hunder, heq⟩⟩

/-- The PHP files of several roots make a strictly increasing row. Up to spelling, it holds the PHP
files that stand at a root or below and no others, and it is the same for the same roots in any
order and number. -/
theorem phpFilesOfRoots_collects (htree : fs.tree.Proper) {roots : List Text}
    (hroots : ∀ root ∈ roots, fs.IsRoot root) :
    ∃ files, fs.phpFilesOfRoots roots = .ok files ∧ files.Pairwise Path.Before ∧
      (∀ path, (∃ file ∈ files, Path.same file path) ↔
        ∃ location, fs.PhpFileUnder roots location ∧ Path.same location.path path) ∧
      ∀ again : List Text, (∀ root, root ∈ again ↔ root ∈ roots) →
        ∃ files', fs.phpFilesOfRoots again = .ok files' ∧
          List.Forall₂ (Path.same · ·) files files' := by
  obtain ⟨files, hfiles, hbefore, hmem⟩ := phpFilesOfRoots_rows htree hroots
  refine ⟨files, hfiles, hbefore, fun path => ?_, fun again hagain => ?_⟩
  · have hpath := hmem (Path.components path)
    rw [List.mem_map] at hpath
    simpa only [Path.same_iff] using hpath
  · obtain ⟨files', hfiles', hbefore', hmem'⟩ :=
      phpFilesOfRoots_rows htree fun root hroot => hroots root ((hagain root).1 hroot)
    refine ⟨files', hfiles', Path.forall₂_same_of_mem_iff hbefore hbefore' fun row => ?_⟩
    have hunder (location : Location) :
        fs.PhpFileUnder roots location ↔ fs.PhpFileUnder again location := by
      rw [phpFileUnder_iff_exists, phpFileUnder_iff_exists]
      simp only [hagain]
    simp only [hmem, hmem', hunder]

/-- Roots inside each other, one of them twice in two spellings, and a file beside its directory. -/
theorem phpFilesOfRoots_collects_nested :
    let fs : FileSystem := ⟨.directory [("d".toList, .directory [("a.php".toList, .file .empty),
      ("b.txt".toList, .file .empty),
      ("e".toList, .directory [("c.PHP".toList, .file .empty)])])], []⟩
    let roots := ["/d/./e/".toList, "/d/a.php".toList, "//d".toList, "/d/e".toList]
    let files := ["/d/a.php".toList, "/d/./e/c.PHP".toList]
    fs.tree.Proper ∧ (∀ root ∈ roots, fs.IsRoot root) ∧ fs.phpFilesOfRoots roots = .ok files ∧
      files.Pairwise Path.Before ∧
      (∀ path, (∃ file ∈ files, Path.same file path) ↔
        ∃ location, fs.PhpFileUnder roots location ∧ Path.same location.path path) ∧
      ∃ files', fs.phpFilesOfRoots ["/d/e".toList, "//d".toList, "/d/e".toList, "/d/a.php".toList,
        "/d/./e/".toList] = .ok files' ∧ List.Forall₂ (Path.same · ·) files files' := by
  intro fs roots files
  have htree : fs.tree.Proper := by
    refine .directory (by decide) (by decide) (List.forall_mem_singleton.2 ?_)
    refine .directory (by decide) (by decide) (List.forall_mem_cons.2 ⟨.file _, ?_⟩)
    refine List.forall_mem_cons.2 ⟨.file _, List.forall_mem_singleton.2 ?_⟩
    exact .directory (by decide) (by decide) (List.forall_mem_singleton.2 (.file _))
  have hroots : ∀ root ∈ roots, fs.IsRoot root := fun root hroot =>
    ⟨(by decide : ∀ root ∈ roots, root.head? = some '/') root hroot,
      (by decide +kernel : ∀ root ∈ roots, .up ∉ Path.components root) root hroot,
      (by decide +kernel : ∀ root ∈ roots, (fs.get? root).isSome) root hroot⟩
  have hdotted : fs.phpFiles "/d/./e/".toList = .ok ["/d/./e/c.PHP".toList] := by
    show Except.ok (List.mergeSort ["/d/./e/c.PHP".toList] Path.le) = _
    rw [List.mergeSort_singleton]
  have hdoubled : fs.phpFiles "//d".toList =
      .ok ["//d/a.php".toList, "//d/e/c.PHP".toList] := by
    show Except.ok (List.mergeSort ["//d/a.php".toList, "//d/e/c.PHP".toList] Path.le) = _
    rw [List.mergeSort_of_pairwise (by decide)]
  have hplain : fs.phpFiles "/d/e".toList = .ok ["/d/e/c.PHP".toList] := by
    show Except.ok (List.mergeSort ["/d/e/c.PHP".toList] Path.le) = _
    rw [List.mergeSort_singleton]
  have hlists : roots.mapM fs.phpFiles = .ok [["/d/./e/c.PHP".toList], ["/d/a.php".toList],
      ["//d/a.php".toList, "//d/e/c.PHP".toList], ["/d/e/c.PHP".toList]] := by
    rw [List.mapM_cons, hdotted, List.mapM_cons, List.mapM_cons, hdoubled, List.mapM_cons, hplain]
    rfl
  have hset : Path.sortedSet ["/d/./e/c.PHP".toList, "/d/a.php".toList, "//d/a.php".toList,
      "//d/e/c.PHP".toList, "/d/e/c.PHP".toList] = files := by
    have hsort : List.mergeSort ["/d/./e/c.PHP".toList, "/d/a.php".toList, "//d/a.php".toList,
        "//d/e/c.PHP".toList, "/d/e/c.PHP".toList] Path.le = ["/d/a.php".toList,
        "//d/a.php".toList, "/d/./e/c.PHP".toList, "//d/e/c.PHP".toList, "/d/e/c.PHP".toList] := by
      simp +decide [List.mergeSort]
    rw [Path.sortedSet, hsort]
    decide
  have hfiles : fs.phpFilesOfRoots roots = .ok files := by
    rw [phpFilesOfRoots, hlists, ok_bind]
    exact congrArg Except.ok hset
  obtain ⟨listed, hlisted, hbefore, hspec, hagain⟩ := phpFilesOfRoots_collects htree hroots
  obtain rfl := Except.ok.inj (hfiles.symm.trans hlisted)
  exact ⟨htree, hroots, hfiles, hbefore, hspec, hagain _ fun root => by simp [roots]; tauto⟩

end FileSystem

end Docblock
