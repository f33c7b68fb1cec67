import Docblock.Proofs.FileSystem.Locations

/-!
# Writing files

A text that is written to a file takes the place of its content. Nothing else changes, neither what
stands at another location nor where the paths of locations lead. So texts that are written to
several files, each of them once, all end up in their files (`Proper.writeAll_paths`).

Writing one file is an insertion in the tree, and the lemma about it says what stands at every
location afterwards. Writing several is a `foldl`, in which each step is one write to a file system
that has been written to already; so a write must leave alone where the paths of the other files
lead (`LocatedFile.writeText`). That the files are apart is a hypothesis here. A run has it because
its files make a strictly increasing row.

Content that is no UTF-8 cannot be read as a text, and a file with such content is never written.
-/

namespace Docblock

/-! ## Bytes -/

/-- The bytes of a text in a file. -/
def Text.utf8 (text : Text) : ByteArray := (String.ofList text).toUTF8

/-- The bytes of a text read as that text. -/
theorem Text.fromUTF8?_utf8 (text : Text) :
    (String.fromUTF8? text.utf8).map String.toList = some text := by
  have hvalid : text.utf8.IsValidUTF8 := (String.ofList text).isValidUTF8
  rw [String.fromUTF8?, dif_pos hvalid, Option.map_some]
  exact congrArg some String.toList_ofList

/-- Bytes read as a text if they are the bytes of that text. -/
theorem Text.fromUTF8?_eq_some_iff {content : ByteArray} {text : Text} :
    (String.fromUTF8? content).map String.toList = some text ↔ content = text.utf8 := by
  constructor
  · intro h
    obtain ⟨s, hs, rfl⟩ := Option.map_eq_some_iff.1 h
    unfold String.fromUTF8? at hs
    split at hs
    · cases hs
      rw [utf8, String.ofList_toList]
      rfl
    · cases hs
  · rintro rfl
    exact fromUTF8?_utf8 text

/-- Texts with the same bytes are the same, so files differ if their texts do. -/
theorem Text.utf8_inj {a b : Text} : a.utf8 = b.utf8 ↔ a = b := by
  rw [← fromUTF8?_eq_some_iff, fromUTF8?_utf8, Option.some.injEq]

/-! ## Entries that are replaced -/

namespace FileTree

/-- An entry is set and no other is made. -/
theorem mem_setEntry {name : Text} {tree : FileTree} {entries : List (Text × FileTree)}
    {entry : Text × FileTree} (h : entry ∈ setEntry name tree entries) :
    entry = (name, tree) ∨ entry ∈ entries := by
  induction entries with
  | nil => exact .inl (List.mem_singleton.1 h)
  | cons first entries ih =>
    unfold setEntry at h
    split at h
    · exact (List.mem_cons.1 h).imp_right (List.mem_cons_of_mem _)
    · rcases List.mem_cons.1 h with rfl | h
      · exact .inr List.mem_cons_self
      · exact (ih h).imp_right (List.mem_cons_of_mem _)

/-- Setting an entry that is there keeps the row of names. -/
theorem map_fst_setEntry {name : Text} {old : FileTree} {entries : List (Text × FileTree)}
    (h : entries.lookup name = some old) (tree : FileTree) :
    (setEntry name tree entries).map Prod.fst = entries.map Prod.fst := by
  induction entries with
  | nil => cases h
  | cons first entries ih =>
    rw [lookup_cons] at h
    by_cases hfirst : first.1 = name
    · simp [setEntry, hfirst]
    · rw [if_neg (Ne.symm hfirst)] at h
      simp [setEntry, hfirst, ih h]

/-- New content for a file leaves a proper tree. -/
theorem Proper.insert {tree : FileTree} (hproper : tree.Proper) {location : Location}
    {old : ByteArray} (h : tree.get? location = some (.file old)) (new : ByteArray) :
    (tree.insert location (.file new)).Proper := by
  induction location generalizing tree with
  | nil => exact .file new
  | cons name rest ih =>
    obtain ⟨entries, child, rfl, hchild, hrest⟩ := get?_cons_eq_some_iff.1 h
    have hmem := mem_of_lookup hchild
    cases hproper with
    | directory apart names below =>
      rw [FileTree.insert, FileTree.entries, hchild, Option.getD_some]
      refine .directory (by rwa [map_fst_setEntry hchild]) (fun entry hentry => ?_)
        (fun entry hentry => ?_)
      · rcases mem_setEntry hentry with rfl | hentry
        · exact names (name, child) hmem
        · exact names _ hentry
      · rcases mem_setEntry hentry with rfl | hentry
        · exact ih (below _ hmem) hrest
        · exact below _ hentry

end FileTree

namespace FileSystem

variable {fs : FileSystem}

/-- What stands at a location by itself. -/
def occupant? (fs : FileSystem) (location : Location) : Option FileTree.Occupant :=
  (fs.at? location).map FileTree.occupant

/-- A file stands at a place just if looking the place up finds it. -/
theorem occupant?_eq_some_file_iff {location : Location} {content : ByteArray} :
    fs.occupant? location = some (.file content) ↔ fs.at? location = some (.file content) := by
  simp [occupant?, Option.map_eq_some_iff]

/-- A text is read from a path that leads to a file with the bytes of that text. -/
theorem readText?_eq_some_iff {path text : Text} :
    fs.readText? path = some text ↔ ∃ location, fs.resolve? path = some location ∧
      fs.occupant? location = some (.file text.utf8) := by
  unfold readText? get?
  cases fs.resolve? path with
  | none => simp
  | some location =>
    simp only [Option.bind_some, Option.some.injEq, exists_eq_left', occupant?_eq_some_file_iff]
    cases fs.at? location with
    | none => simp
    | some tree =>
      cases tree with
      | file content => rw [Text.fromUTF8?_eq_some_iff, Option.some.injEq, FileTree.file.injEq]
      | directory entries => simp

/-! ## One file -/

/-- A text that is written to a file is what stands there afterwards, and no other place changes. -/
theorem Proper.writeText_path (hfs : fs.Proper) {location : Location} {old : ByteArray}
    (h : fs.at? location = some (.file old)) (text : Text) :
    (fs.writeText location.path text).Proper ∧ ∀ other,
      (fs.writeText location.path text).occupant? other =
        if other = location then some (.file text.utf8)
        else fs.occupant? other := by
  have hresolve : fs.resolve? location.path = some location := hfs.resolve?_path (h ▸ rfl)
  rw [writeText, hresolve]
  have hoccupant := FileTree.occupant?_insert h text.utf8
  refine ⟨⟨hfs.tree.insert h _, ?_⟩, hoccupant⟩
  obtain ⟨entries, hworking⟩ := hfs.working
  have hne : fs.working ≠ location := fun heq => by
    rw [heq, h] at hworking
    cases hworking
  have hdirectory := hoccupant fs.working
  rw [if_neg hne, show fs.tree.get? fs.working = _ from hworking, Option.map_some] at hdirectory
  obtain ⟨tree, htree, hkind⟩ := Option.map_eq_some_iff.1 hdirectory
  cases tree with
  | file content => cases hkind
  | directory entries => exact ⟨entries, htree⟩

/-- Where the path of a file leads, that is the path of the place. -/
theorem LocatedFile.path_of_resolve? (hfs : fs.Proper) {path : Text} (h : fs.LocatedFile path)
    {location : Location} (hresolve : fs.resolve? path = some location) : location.path = path := by
  obtain ⟨place, content, hcontent, rfl⟩ := h
  rw [hfs.resolve?_path (hcontent ▸ rfl)] at hresolve
  rw [Option.some.inj hresolve]

/-- A write to one file leaves the path of another one where it led. -/
theorem LocatedFile.writeText (hfs : fs.Proper) {location : Location} {old : ByteArray}
    (h : fs.at? location = some (.file old)) (text : Text) {path : Text}
    (hpath : fs.LocatedFile path) (hne : path ≠ location.path) :
    (fs.writeText location.path text).LocatedFile path ∧
      (fs.writeText location.path text).resolve? path = fs.resolve? path ∧
      fs.resolve? path ≠ some location := by
  obtain ⟨hnext, hoccupant⟩ := hfs.writeText_path h text
  obtain ⟨other, content, hcontent, rfl⟩ := hpath
  have hother : other ≠ location := fun heq => hne (heq ▸ rfl)
  have hafter : (fs.writeText location.path text).at? other = some (.file content) := by
    rw [← occupant?_eq_some_file_iff, hoccupant, if_neg hother, occupant?_eq_some_file_iff]
    exact hcontent
  have hresolve : fs.resolve? other.path = some other := hfs.resolve?_path (hcontent ▸ rfl)
  refine ⟨⟨other, content, hafter, rfl⟩, ?_, ?_⟩
  · rw [hresolve, hnext.resolve?_path (hafter ▸ rfl)]
  · rw [hresolve]
    exact fun heq => hother (Option.some.inj heq)

/-! ## Several files -/

/-- The file system with texts written to files, in order. -/
def writeAll (fs : FileSystem) (writes : List (Text × Text)) : FileSystem :=
  writes.foldl (fun fs (path, text) => fs.writeText path text) fs

/-- Texts that are written to different files end up in their files, and no other place changes. -/
theorem Proper.writeAll_paths (hfs : fs.Proper) {writes : List (Text × Text)}
    (hfiles : ∀ w ∈ writes, fs.LocatedFile w.1) (hnodup : (writes.map Prod.fst).Nodup) :
    (∀ w ∈ writes, ∀ location, fs.resolve? w.1 = some location →
      (fs.writeAll writes).occupant? location = some (.file w.2.utf8)) ∧
    ∀ location, (∀ w ∈ writes, fs.resolve? w.1 ≠ some location) →
      (fs.writeAll writes).occupant? location = fs.occupant? location := by
  induction writes generalizing fs with
  | nil => exact ⟨fun w hw => absurd hw List.not_mem_nil, fun _ _ => rfl⟩
  | cons write writes ih =>
    obtain ⟨path, text⟩ := write
    obtain ⟨⟨location, old, hold, rfl⟩, hrest⟩ := List.forall_mem_cons.1 hfiles
    obtain ⟨hfresh, hapart⟩ := List.nodup_cons.1 hnodup
    have hresolve : fs.resolve? location.path = some location := hfs.resolve?_path (hold ▸ rfl)
    obtain ⟨hnext, hoccupant⟩ := hfs.writeText_path hold text
    -- A file that comes later is another one, so the first write does not touch it.
    have hlater := fun w hw => (hrest w hw).writeText hfs hold text
      (ne_of_mem_of_not_mem (List.mem_map_of_mem hw) hfresh)
    obtain ⟨hwritten, hkept⟩ := ih hnext (fun w hw => (hlater w hw).1) hapart
    have hstep : fs.writeAll ((location.path, text) :: writes) =
        (fs.writeText location.path text).writeAll writes := rfl
    rw [hstep]
    constructor
    · intro w hw place hplace
      rcases List.mem_cons.1 hw with rfl | hw
      · obtain rfl : location = place := Option.some.inj (hresolve.symm.trans hplace)
        rw [hkept location fun w hw => ?_, hoccupant, if_pos rfl]
        rw [(hlater w hw).2.1]
        exact (hlater w hw).2.2
      · exact hwritten w hw place ((hlater w hw).2.1.trans hplace)
    · intro place hplace
      obtain ⟨hfirst, hothers⟩ := List.forall_mem_cons.1 hplace
      have hne : place ≠ location := by
        rintro rfl
        exact hfirst hresolve
      rw [hkept place fun w hw => ?_, hoccupant, if_neg hne]
      rw [(hlater w hw).2.1]
      exact hothers w hw

end FileSystem

end Docblock
