import Mathlib.Tactic.MkIffOfInductiveProp
import Docblock.FileSystem.Tree

/-!
# Locations in a file tree

What stands at a location is read off the tree one name at a time, so looking up a row of names
composes. In a tree whose directories name their entries apart (`FileTree.Proper`), the locations
that a walk lists are exactly those where a file stands, and new content for one file shows at its
location and nowhere else (`occupant?_insert`).

Entries are a row and not a set, as a directory lists them, so two things have to be shown of them:
that looking a name up finds the entry that is listed, and that what is listed is found. Both need
that no two entries share a name. Each property of trees is proved along the tree by one induction
for trees and entries together.

Links are not part of the model of a tree, and neither are permissions: what is listed can be read.
-/

namespace Docblock

/-- A text that can name an entry of a directory. -/
@[mk_iff]
structure Path.IsName (name : Text) : Prop where
  ne_nil : name ≠ []
  ne_here : name ≠ ['.']
  ne_up : name ≠ ['.', '.']
  slash_not_mem : '/' ∉ name

instance : DecidablePred Path.IsName := fun name => decidable_of_iff _ (Path.isName_iff name).symm

namespace FileTree

/-- Every directory of the tree names its entries apart, by texts that can be names. -/
inductive Proper : FileTree → Prop
  | file (content : ByteArray) : Proper (.file content)
  | directory {entries : List (Text × FileTree)} (apart : (entries.map Prod.fst).Nodup)
      (names : ∀ entry ∈ entries, Path.IsName entry.1) (below : ∀ entry ∈ entries, Proper entry.2) :
      Proper (.directory entries)

/-- What stands at a location by itself: a directory, or a file with its bytes. -/
inductive Occupant where
  | directory
  | file (content : ByteArray)

/-- What a tree is at its root. -/
def occupant : FileTree → Occupant
  | .file content => .file content
  | .directory _ => .directory

/-- What stands at a place tells a file by its content, and a directory only by being one. -/
@[simp] theorem occupant_eq_file_iff {tree : FileTree} {content : ByteArray} :
    tree.occupant = .file content ↔ tree = .file content := by
  cases tree <;> simp [occupant]

/-! ## Looking up a row of names -/

/-- A row of names is looked up in two steps wherever it is cut. -/
theorem get?_append (tree : FileTree) (front back : Location) :
    tree.get? (front ++ back) = (tree.get? front).bind (·.get? back) := by
  induction front generalizing tree with
  | nil => rfl
  | cons name front ih =>
    rw [List.cons_append, get?, get?, Option.bind_assoc]
    exact Option.bind_congr fun child _ => ih child

/-- One name is looked up among the entries; a file has none. -/
theorem get?_singleton (tree : FileTree) (name : Text) :
    tree.get? [name] = tree.entries.lookup name := by
  rw [get?]
  exact Option.bind_fun_some _

/-- Something stands behind a name just if a directory has an entry of that name and it stands
there. -/
theorem get?_cons_eq_some_iff {tree below : FileTree} {name : Text} {rest : Location} :
    tree.get? (name :: rest) = some below ↔ ∃ entries child, tree = .directory entries ∧
      entries.lookup name = some child ∧ child.get? rest = some below := by
  rw [get?, Option.bind_eq_some_iff]
  constructor
  · rintro ⟨child, hchild, hrest⟩
    cases tree with
    | file content => cases hchild
    | directory entries => exact ⟨entries, child, rfl, hchild, hrest⟩
  · rintro ⟨entries, child, rfl, hchild, hrest⟩
    exact ⟨child, hchild, hrest⟩

/-- Before something there is something, too. -/
theorem isSome_get?_of_append {tree : FileTree} {front back : Location}
    (h : (tree.get? (front ++ back)).isSome) : (tree.get? front).isSome := by
  rw [get?_append] at h
  exact Option.isSome_of_isSome_bind h

/-- What is found is an entry. -/
theorem mem_of_lookup {entries : List (Text × FileTree)} {name : Text} {child : FileTree}
    (h : entries.lookup name = some child) : (name, child) ∈ entries := by
  obtain ⟨front, back, rfl, -⟩ := List.lookup_eq_some_iff.1 h
  exact List.mem_append_right _ List.mem_cons_self

/-- Where names are apart, an entry is what its name finds. -/
theorem lookup_eq_some_of_mem {entries : List (Text × FileTree)}
    (apart : (entries.map Prod.fst).Nodup) {name : Text} {child : FileTree}
    (h : (name, child) ∈ entries) : entries.lookup name = some child := by
  obtain ⟨front, back, rfl⟩ := List.append_of_mem h
  rw [List.map_append, List.nodup_append] at apart
  refine List.lookup_eq_some_iff.2 ⟨front, back, rfl, fun entry hentry => bne_iff_ne.2 ?_⟩
  exact (apart.2.2 entry.1 (List.mem_map_of_mem hentry) name List.mem_cons_self).symm

/-- What stands somewhere in a proper tree is a proper tree, at a location of names. -/
theorem Proper.get? {tree below : FileTree} (h : tree.Proper) {location : Location}
    (hget : tree.get? location = some below) :
    below.Proper ∧ ∀ name ∈ location, Path.IsName name := by
  induction location generalizing tree with
  | nil =>
    obtain rfl : tree = below := by simpa [FileTree.get?] using hget
    exact ⟨h, fun _ hname => absurd hname List.not_mem_nil⟩
  | cons name rest ih =>
    obtain ⟨entries, child, rfl, hchild, hrest⟩ := get?_cons_eq_some_iff.1 hget
    cases h with
    | directory apart names below =>
      have hmem := mem_of_lookup hchild
      obtain ⟨hproper, hnames⟩ := ih (below _ hmem) hrest
      exact ⟨hproper, List.forall_mem_cons.2 ⟨names _ hmem, hnames⟩⟩

/-! ## What a walk lists -/

/-- The files below entries are those of each entry, behind its name. -/
theorem mem_entryFiles {entries : List (Text × FileTree)} {location : Location} :
    location ∈ entryFiles entries ↔
      ∃ entry ∈ entries, ∃ rest ∈ entry.2.files, location = entry.1 :: rest := by
  induction entries with
  | nil => simp [entryFiles]
  | cons entry entries ih =>
    rw [entryFiles, List.mem_append, ih]
    simp only [List.mem_cons, exists_eq_or_imp, List.mem_map, eq_comm (a := location)]

/-- The places below entries are those of each entry, behind its name, and the entry's own. -/
theorem mem_entryDescendants {entries : List (Text × FileTree)} {location : Location} :
    location ∈ entryDescendants entries ↔
      ∃ entry ∈ entries, ∃ rest ∈ [] :: entry.2.descendants, location = entry.1 :: rest := by
  induction entries with
  | nil => simp [entryDescendants]
  | cons entry entries ih =>
    rw [entryDescendants, List.mem_append, ih]
    simp only [List.mem_cons, exists_eq_or_imp, List.mem_map, eq_comm (a := location)]

/-- A walk lists the locations of files, and all of them. -/
theorem mem_files_iff {tree : FileTree} (h : tree.Proper) {location : Location} :
    location ∈ tree.files ↔ ∃ content, tree.get? location = some (.file content) := by
  induction h generalizing location with
  | file content =>
    cases location with
    | nil => simp [files, get?]
    | cons name rest => simp [files, get?, entries]
  | @directory entries apart names below ih =>
    rw [files, mem_entryFiles]
    constructor
    · rintro ⟨⟨name, child⟩, hentry, rest, hrest, rfl⟩
      obtain ⟨content, hcontent⟩ := (ih _ hentry).1 hrest
      exact ⟨content, get?_cons_eq_some_iff.2
        ⟨entries, child, rfl, lookup_eq_some_of_mem apart hentry, hcontent⟩⟩
    · rintro ⟨content, hcontent⟩
      cases location with
      | nil => simp [get?] at hcontent
      | cons name rest =>
        obtain ⟨_, child, heq, hchild, hrest⟩ := get?_cons_eq_some_iff.1 hcontent
        cases heq
        have hentry := mem_of_lookup hchild
        exact ⟨(name, child), hentry, rest, (ih _ hentry).2 ⟨content, hrest⟩, rfl⟩

/-- Everything that a walk passes stands where it is listed. -/
theorem isSome_get?_of_mem_descendants {tree : FileTree} (h : tree.Proper) {location : Location}
    (hmem : location ∈ tree.descendants) : (tree.get? location).isSome := by
  induction h generalizing location with
  | file content => simp [descendants] at hmem
  | @directory entries apart names below ih =>
    rw [descendants, mem_entryDescendants] at hmem
    obtain ⟨⟨name, child⟩, hentry, rest, hrest, rfl⟩ := hmem
    have hchild : entries.lookup name = some child := lookup_eq_some_of_mem apart hentry
    rw [get?, FileTree.entries, hchild, Option.bind_some]
    rcases List.mem_cons.1 hrest with rfl | hrest
    · rfl
    · exact ih _ hentry hrest

/-! ## New content for a file -/

/-- The first entry of a name is the one that counts. -/
theorem lookup_cons (name : Text) (entry : Text × FileTree) (entries : List (Text × FileTree)) :
    (entry :: entries).lookup name =
      if name = entry.1 then some entry.2 else entries.lookup name := by
  rw [List.lookup_cons]
  by_cases h : name = entry.1
  · simp [h]
  · simp [h, beq_eq_false_iff_ne.2 h]

/-- An entry that is set is found by its name, and the others by theirs. -/
theorem lookup_setEntry (name other : Text) (tree : FileTree) (entries : List (Text × FileTree)) :
    (setEntry name tree entries).lookup other =
      if other = name then some tree else entries.lookup other := by
  induction entries with
  | nil => rw [setEntry, lookup_cons]
  | cons entry entries ih =>
    obtain ⟨first, old⟩ := entry
    by_cases hfirst : first = name
    · simp only [setEntry, hfirst, if_true, lookup_cons]
      split <;> rfl
    · simp only [setEntry, hfirst, if_false, lookup_cons, ih]
      by_cases hother : other = first
      · simp [hother, hfirst]
      · simp [hother]

/-- Where a file gets new content, the rest of the tree keeps what it holds. -/
theorem occupant?_insert {tree : FileTree} {location : Location} {old : ByteArray}
    (h : tree.get? location = some (.file old)) (new : ByteArray) (other : Location) :
    ((tree.insert location (.file new)).get? other).map occupant =
      if other = location then some (.file new) else (tree.get? other).map occupant := by
  induction location generalizing tree other with
  | nil =>
    obtain rfl : tree = .file old := by simpa [get?] using h
    cases other <;> rfl
  | cons name rest ih =>
    obtain ⟨entries, child, rfl, hchild, hrest⟩ := get?_cons_eq_some_iff.1 h
    cases other with
    | nil => rfl
    | cons next other =>
      simp only [insert, get?, FileTree.entries, hchild, Option.getD_some, lookup_setEntry]
      by_cases hnext : next = name
      · subst hnext
        simpa [hchild] using ih hrest other
      · simp [hnext]

end FileTree

end Docblock
