import Docblock.FileSystem.PhpFiles
import Docblock.Proofs.Except
import Docblock.Proofs.FileSystem.Tree
import Docblock.Proofs.Path.Order
import Docblock.Proofs.Text.Cuts

/-!
# Paths of locations

A location is spelled with its names and nothing else, so the path leads back to it
(`resolve?_path`). The files below a directory that is spelled so are spelled so, too; the PHP files
of such roots are paths of files, in order and each of them once (`phpFilesOfRoots_paths`).

A path is a text that somebody wrote, and resolving it takes steps for its pieces, some of which go
up or stay. A location is the row of names that one arrives at. Here paths are only those of
locations (`Location.path`), for which resolving is looking up, and that is what the roots of a run
are once its arguments have been looked up (`Docblock.Proofs.CommandLine.Targets`). Paths in other
spellings are the subject of `Docblock.Proofs.FileSystem.Collected`.
-/

namespace Docblock

namespace Location

@[simp] theorem path_nil : path [] = ['/'] := rfl

/-- Below the root, a location is spelled as each of its names behind a slash. -/
theorem path_eq_flatMap {location : Location} (h : location ≠ []) :
    location.path = location.flatMap ('/' :: ·) := by
  cases location with
  | nil => exact absurd rfl h
  | cons name rest => rw [path, Text.intercalate_eq_append_flatMap]; rfl

/-- The path of an entry is that of its directory, a slash and its name. -/
theorem path_concat {location : Location} (h : location ≠ []) (name : Text) :
    path (location ++ [name]) = location.path ++ '/' :: name := by
  simp [path_eq_flatMap, h]

/-- Only the root's path ends with a slash. -/
theorem getLast?_path_ne {location : Location} (h : location ≠ [])
    (hnames : ∀ name ∈ location, Path.IsName name) : location.path.getLast? ≠ some '/' := by
  intro hlast
  obtain ⟨front, name, rfl⟩ := (List.eq_nil_or_concat' location).resolve_left h
  have hname := hnames name (by simp)
  rw [path_eq_flatMap h, List.flatMap_append, List.flatMap_singleton, ← List.singleton_append,
    ← List.append_assoc, List.getLast?_append_of_ne_nil _ hname.ne_nil] at hlast
  exact hname.slash_not_mem (List.mem_of_getLast? hlast)

/-- A name under the path of a location makes the path of the place that it names there. -/
theorem join_path {location : Location} {name : Text}
    (hnames : ∀ name ∈ location, Path.IsName name) (hname : Path.IsName name) :
    Path.join location.path name = path (location ++ [name]) := by
  have hrelative : name.head? ≠ some '/' := fun h =>
    hname.slash_not_mem (List.mem_of_mem_head? h)
  have hne : location.path ≠ [] := List.cons_ne_nil _ _
  unfold Path.join
  by_cases h : location = []
  · subst h
    simp [hrelative, path]
  · simp [hrelative, hne, getLast?_path_ne h hnames, path_concat h]

/-- What is below a location is spelled with the location's own path in front, and so is its path.
-/
theorem spell_path {root below : Location} (hnames : ∀ name ∈ root ++ below, Path.IsName name) :
    FileSystem.spell root.path below = path (root ++ below) := by
  induction below generalizing root with
  | nil => rw [List.append_nil]; rfl
  | cons name below ih =>
    rw [List.append_cons] at hnames ⊢
    rw [← ih hnames, ← join_path (fun n hn => hnames n (by simp [hn])) (hnames name (by simp))]
    rfl

end Location

namespace FileSystem

/-- A proper tree, with a directory where relative paths begin. -/
structure Proper (fs : FileSystem) : Prop where
  tree : fs.tree.Proper
  working : ∃ entries, fs.at? fs.working = some (.directory entries)

variable {fs : FileSystem}

/-- A location is looked up in two steps wherever it is cut. -/
theorem at?_append (fs : FileSystem) (front back : Location) :
    fs.at? (front ++ back) = (fs.at? front).bind (·.get? back) :=
  FileTree.get?_append fs.tree front back

/-- On the way to something there is something. -/
theorem isSome_at?_of_append {front back : Location} (h : (fs.at? (front ++ back)).isSome) :
    (fs.at? front).isSome :=
  FileTree.isSome_get?_of_append h

/-- Something stands at the root, and it is a directory. -/
theorem Proper.root (hfs : fs.Proper) : ∃ entries, fs.at? [] = some (.directory entries) := by
  obtain ⟨entries, hworking⟩ := hfs.working
  cases hlocation : fs.working with
  | nil => exact ⟨entries, hlocation ▸ hworking⟩
  | cons name rest =>
    rw [hlocation] at hworking
    obtain ⟨entries, -, hroot, -⟩ := FileTree.get?_cons_eq_some_iff.1 hworking
    exact ⟨entries, congrArg some hroot⟩

/-- The working directory is there. -/
theorem Proper.isSome_working (hfs : fs.Proper) : (fs.at? fs.working).isSome := by
  obtain ⟨entries, hworking⟩ := hfs.working
  exact hworking ▸ rfl

/-- Where something stands there are only names on the way. -/
theorem Proper.names (hfs : fs.Proper) {location : Location} (h : (fs.at? location).isSome) :
    ∀ name ∈ location, Path.IsName name := by
  obtain ⟨tree, htree⟩ := Option.isSome_iff_exists.1 h
  exact (hfs.tree.get? htree).2

/-! ## Where paths lead -/

/-- A piece of a path leads to something. -/
theorem isSome_at?_of_enter? {location found : Location} {piece : Text}
    (h : fs.enter? location piece = some found) : (fs.at? found).isSome := by
  unfold enter? at h
  split at h
  next entries hdirectory =>
    split at h
    · cases h
      exact hdirectory ▸ rfl
    · split at h
      · cases h
        have hparts : location.dropLast ++ location.drop (location.length - 1) = location := by
          rw [List.dropLast_eq_take, List.take_append_drop]
        exact isSome_at?_of_append (by rw [hparts, hdirectory]; rfl)
      · split at h
        next hlookup =>
          cases h
          rw [at?_append, hdirectory, Option.bind_some, FileTree.get?_singleton]
          exact hlookup
        next => cases h
  next => cases h

/-- Steps that can be taken lead to what is there. -/
theorem isSome_at?_of_foldlM_enter? {pieces : List Text} {location found : Location}
    (hlocation : (fs.at? location).isSome) (h : pieces.foldlM fs.enter? location = some found) :
    (fs.at? found).isSome := by
  induction pieces generalizing location with
  | nil =>
    cases h
    exact hlocation
  | cons piece pieces ih =>
    rw [List.foldlM_cons] at h
    obtain ⟨next, hnext, h⟩ := Option.bind_eq_some_iff.1 h
    exact ih (isSome_at?_of_enter? hnext) h

/-- A path leads to something or nowhere. -/
theorem Proper.isSome_of_resolve? (hfs : fs.Proper) {path : Text} {location : Location}
    (h : fs.resolve? path = some location) : (fs.at? location).isSome := by
  unfold resolve? at h
  split at h
  · cases h
  · exact isSome_at?_of_foldlM_enter? rfl h
  · exact isSome_at?_of_foldlM_enter? hfs.isSome_working h

/-- A name is a step down, neither nothing nor a step up. -/
theorem enter?_of_isName {location : Location} {name : Text} (hname : Path.IsName name)
    (h : (fs.at? (location ++ [name])).isSome) :
    fs.enter? location name = some (location ++ [name]) := by
  rw [at?_append] at h
  obtain ⟨tree, htree⟩ := Option.isSome_iff_exists.1 (Option.isSome_of_isSome_bind h)
  rw [htree, Option.bind_some, FileTree.get?_singleton] at h
  cases tree with
  | file content => cases h
  | directory entries =>
    have hlookup : (entries.lookup name).isSome := h
    simp [enter?, htree, hname.ne_nil, hname.ne_here, hname.ne_up, hlookup]

/-- Names lead down one after the other, as long as something is there. -/
theorem foldlM_enter?_of_isName {location names : Location}
    (hnames : ∀ name ∈ names, Path.IsName name) (h : (fs.at? (location ++ names)).isSome) :
    names.foldlM fs.enter? location = some (location ++ names) := by
  induction names generalizing location with
  | nil => rw [List.append_nil]; rfl
  | cons name names ih =>
    obtain ⟨hname, hnames⟩ := List.forall_mem_cons.1 hnames
    rw [List.append_cons] at h ⊢
    rw [List.foldlM_cons, enter?_of_isName hname (isSome_at?_of_append h)]
    exact ih hnames h

/-- The path of a location leads back to it. -/
theorem Proper.resolve?_path (hfs : fs.Proper) {location : Location}
    (h : (fs.at? location).isSome) : fs.resolve? location.path = some location := by
  have hnames := hfs.names h
  show ((['/'].intercalate location).splitOn '/').foldlM fs.enter? [] = some location
  by_cases hne : location = []
  · subst hne
    obtain ⟨entries, hroot⟩ := hfs.root
    simp [enter?, hroot]
  · rw [List.splitOn_intercalate '/' (fun name hname => (hnames name hname).slash_not_mem) hne]
    exact foldlM_enter?_of_isName hnames h

/-- What a location's path leads to is what stands there. -/
theorem Proper.get?_path (hfs : fs.Proper) {location : Location}
    (h : (fs.at? location).isSome) : fs.get? location.path = fs.at? location := by
  rw [get?, hfs.resolve?_path h, Option.bind_some]

/-! ## The PHP files under roots -/

/-- The PHP files of a root are the files below it, or the root itself, whose spelling ends as that
of a PHP file. -/
theorem mem_phpFiles {root : Text} {tree : FileTree} (h : fs.get? root = some tree) :
    ∃ files, fs.phpFiles root = .ok files ∧ ∀ file, file ∈ files ↔
      (∃ below ∈ tree.files, spell root below = file) ∧ Path.isPhp file := by
  unfold phpFiles
  rw [h]
  cases tree with
  | file content =>
    refine ⟨_, rfl, fun file => ?_⟩
    simp only [FileTree.files, List.mem_singleton, exists_eq_left, spell, List.foldl_nil]
    split
    next hphp =>
      rw [List.mem_singleton]
      exact ⟨fun heq => ⟨heq.symm, heq ▸ hphp⟩, fun heq => heq.1.symm⟩
    next hphp =>
      exact ⟨fun hmem => absurd hmem List.not_mem_nil, fun heq => absurd (heq.1 ▸ heq.2) hphp⟩
  | directory entries =>
    refine ⟨_, rfl, fun file => ?_⟩
    rw [List.mem_mergeSort, List.mem_filter, List.mem_map, FileTree.files]

/-- The PHP files of a root are the paths of the PHP files that stand there or below. -/
theorem Proper.phpFiles_path (hfs : fs.Proper) {root : Location} (hroot : (fs.at? root).isSome) :
    ∃ files, fs.phpFiles root.path = .ok files ∧ ∀ file, file ∈ files ↔
      (∃ below content, fs.at? (root ++ below) = some (.file content) ∧
        (root ++ below).path = file) ∧ Path.isPhp file := by
  obtain ⟨tree, htree⟩ := Option.isSome_iff_exists.1 hroot
  have hproper : tree.Proper := (hfs.tree.get? htree).1
  obtain ⟨files, hfiles, hmem⟩ := mem_phpFiles ((hfs.get?_path hroot).trans htree)
  refine ⟨files, hfiles, fun file => (hmem file).trans (and_congr_left fun _ => ?_)⟩
  have hat (below : Location) : fs.at? (root ++ below) = tree.get? below := by
    rw [at?_append, htree, Option.bind_some]
  constructor
  · rintro ⟨below, hbelow, hspell⟩
    obtain ⟨content, hcontent⟩ := (FileTree.mem_files_iff hproper).1 hbelow
    have hstands := (hat below).trans hcontent
    rw [Location.spell_path (hfs.names (hstands ▸ rfl))] at hspell
    exact ⟨below, content, hstands, hspell⟩
  · rintro ⟨below, content, hstands, hpath⟩
    rw [← Location.spell_path (hfs.names (hstands ▸ rfl))] at hpath
    have hbelow := (FileTree.mem_files_iff hproper).2 ⟨content, (hat below).symm.trans hstands⟩
    exact ⟨below, hbelow, hpath⟩

/-- A text that is the path of a location where something stands. -/
def Located (fs : FileSystem) (path : Text) : Prop :=
  ∃ location, (fs.at? location).isSome ∧ location.path = path

/-- A text that is the path of a location where a file stands. -/
def LocatedFile (fs : FileSystem) (path : Text) : Prop :=
  ∃ location content, fs.at? location = some (.file content) ∧ location.path = path

/-- The PHP files under several roots are paths of files, in order, and none of them twice. -/
theorem Proper.phpFilesOfRoots_paths (hfs : fs.Proper) {roots : List Text}
    (hroots : ∀ root ∈ roots, fs.Located root) :
    ∃ files, fs.phpFilesOfRoots roots = .ok files ∧ files.Pairwise Path.Before ∧
      ∀ file ∈ files, fs.LocatedFile file := by
  have hroot : ∀ root ∈ roots, ∃ files, fs.phpFiles root = .ok files ∧
      ∀ file ∈ files, fs.LocatedFile file := by
    intro root hmem
    obtain ⟨location, hsome, rfl⟩ := hroots root hmem
    obtain ⟨files, hfiles, hspec⟩ := hfs.phpFiles_path hsome
    refine ⟨files, hfiles, fun file hfile => ?_⟩
    obtain ⟨⟨below, content, hcontent, hpath⟩, -⟩ := (hspec file).1 hfile
    exact ⟨location ++ below, content, hcontent, hpath⟩
  obtain ⟨lists, hlists, hspec⟩ :=
    mapM_eq_ok fun root hmem => (hroot root hmem).imp fun _ => And.left
  refine ⟨Path.sortedSet lists.flatten, ?_, Path.pairwise_sortedSet _, fun file hfile => ?_⟩
  · rw [phpFilesOfRoots, hlists]
    rfl
  · obtain ⟨files, hfiles, hmem⟩ := List.mem_flatten.1 (Path.mem_of_mem_sortedSet hfile)
    obtain ⟨root, hroots, heq⟩ := (hspec files).1 hfiles
    obtain ⟨listed, hlisted, hlocated⟩ := hroot root hroots
    obtain rfl := Except.ok.inj (heq.symm.trans hlisted)
    exact hlocated file hmem

end FileSystem

end Docblock
