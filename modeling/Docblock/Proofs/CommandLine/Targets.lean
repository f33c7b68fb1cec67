import Docblock.CommandLine.Target
import Docblock.Proofs.FileSystem.Locations

/-!
# What a target consists of

The path of a command may be a pattern, and it may name several things. Whatever it names is there:
a pattern finds only what stands in the file system, so the roots of a target are paths of locations
(`Target.located_ofInvocation`), and its PHP files can be listed (`Located.files`).

That the roots are there is no matter of course: they are texts, spelled from locations that a
pattern found, and each reading of the pattern (one segment, any number of directories, a step up in
it) has to find what exists. The file system is one in which directories name their entries apart
and the working directory exists (`FileSystem.Proper`).

Which places a pattern matches is not specified here. Only that they exist is used of them.
-/

namespace Docblock

namespace Glob

variable {fs : FileSystem}

/-- One segment of a pattern finds entries of a directory, or takes a step that can be taken. -/
theorem isSome_at?_of_mem_enter {tokens : List Token} {location found : Location}
    (h : found ∈ enter fs tokens location) : (fs.at? found).isSome := by
  unfold enter at h
  split at h
  next name hname => exact FileSystem.isSome_at?_of_enter? (Option.mem_toList.1 h)
  next hname =>
    rcases List.mem_append.1 h with h | h
    · obtain ⟨⟨name, child⟩, hentry, rfl⟩ := List.mem_map.1 h
      have hentry := (List.mem_filter.1 hentry).1
      rw [FileSystem.at?_append]
      cases htree : fs.at? location with
      | none =>
        rw [htree] at hentry
        exact absurd hentry List.not_mem_nil
      | some tree =>
        rw [htree] at hentry
        rw [Option.bind_some, FileTree.get?_singleton]
        exact List.lookup_isSome_iff.2 ⟨(name, child), hentry, beq_self_eq_true name⟩
    · obtain ⟨name, -, hname⟩ := List.mem_filterMap.1 h
      exact FileSystem.isSome_at?_of_enter? hname

/-- What is found below a place is there. -/
theorem isSome_at?_of_mem_below (hfs : fs.Proper) {location found : Location}
    (h : found ∈ below fs location) : (fs.at? found).isSome := by
  unfold below at h
  split at h
  next tree htree =>
    obtain ⟨rest, hrest, rfl⟩ := List.mem_map.1 h
    rw [FileSystem.at?_append, htree, Option.bind_some]
    exact FileTree.isSome_get?_of_mem_descendants (hfs.tree.get? htree).1 hrest
  next => exact absurd h List.not_mem_nil

/-- A pattern finds what is there. -/
theorem isSome_at?_of_mem_find (hfs : fs.Proper) :
    ∀ (segments : List Segment) {location found : Location}, (fs.at? location).isSome →
      found ∈ find fs segments location → (fs.at? found).isSome
  | [], location, found, hlocation, h => by
    rw [find, List.mem_singleton] at h
    exact h ▸ hlocation
  | [.recursive], location, found, hlocation, h => by
    rw [find] at h
    exact isSome_at?_of_mem_below hfs (List.mem_filter.1 h).1
  | .recursive :: .recursive :: rest, location, found, hlocation, h => by
    rw [find] at h
    exact isSome_at?_of_mem_find hfs (.recursive :: rest) hlocation h
  | .recursive :: .name tokens :: rest, location, found, hlocation, h => by
    rw [find] at h
    obtain ⟨next, hnext, h⟩ := List.mem_flatMap.1 h
    exact isSome_at?_of_mem_find hfs rest
      (isSome_at?_of_mem_below hfs (List.mem_filter.1 hnext).1) h
  | .name tokens :: rest, location, found, hlocation, h => by
    rw [find] at h
    obtain ⟨next, hnext, h⟩ := List.mem_flatMap.1 h
    exact isSome_at?_of_mem_find hfs rest (isSome_at?_of_mem_enter hnext) h

/-- What a whole pattern finds is there, from the root or from the working directory. -/
theorem isSome_at?_of_expand? (hfs : fs.Proper) {pattern : Text} {locations : List Location}
    (h : expand? fs pattern = some locations) :
    ∀ location ∈ locations, (fs.at? location).isSome := by
  unfold expand? at h
  obtain ⟨segments, -, h⟩ := Option.bind_eq_some_iff.1 h
  obtain rfl := Option.some.inj h
  intro location hmem
  have hfind : location ∈
      find fs segments (if pattern.head? = some '/' then [] else fs.working) := by
    split at hmem
    · exact (List.mem_filter.1 hmem).1
    · exact hmem
  -- a pattern starts where there is something: at the root or in the working directory
  refine isSome_at?_of_mem_find hfs segments ?_ hfind
  split
  · rfl
  · exact hfs.isSome_working

end Glob

namespace CommandLine

variable {fs : FileSystem}

/-- What the path of a command names is there. -/
theorem isSome_at?_of_locate (hfs : fs.Proper) {path : Text} {locations : List Location}
    (h : locate fs path = .ok locations) : ∀ location ∈ locations, (fs.at? location).isSome := by
  unfold locate at h
  split at h
  · split at h
    · cases h
    · cases h
    next found hfound =>
      cases h
      exact Glob.isSome_at?_of_expand? hfs hfound
  · split at h
    · cases h
    next location hlocation =>
      cases h
      exact List.forall_mem_singleton.2 (hfs.isSome_of_resolve? hlocation)

namespace Target

/-- The roots of a target are paths of what is there. -/
def Located (fs : FileSystem) (t : Target) : Prop := ∀ root ∈ t.roots, fs.Located root

/-- The target of every invocation has its roots in the file system. -/
theorem located_ofInvocation (hfs : fs.Proper) {i : Invocation} {t : Target}
    (h : ofInvocation fs i = .ok t) : t.Located fs := by
  obtain ⟨locations, hlocations, h⟩ := bind_eq_ok.1 h
  obtain ⟨options, -, h⟩ := bind_eq_ok.1 h
  obtain rfl := Except.ok.inj h
  intro root hroot
  obtain ⟨location, hlocation, rfl⟩ := List.mem_map.1 (Path.mem_of_mem_sortedSet hroot)
  exact ⟨location, isSome_at?_of_locate hfs hlocations location hlocation, rfl⟩

/-- The PHP files of a target whose roots are there can be listed. They are paths of files, in
order, and none of them stands there twice. -/
theorem Located.files {t : Target} (ht : t.Located fs) (hfs : fs.Proper) :
    ∃ files, t.files fs = .ok files ∧ files.Pairwise Path.Before ∧
      ∀ file ∈ files, fs.LocatedFile file := by
  obtain ⟨files, hfiles, hspec⟩ := hfs.phpFilesOfRoots_paths ht
  refine ⟨files, ?_, hspec⟩
  rw [Target.files, hfiles]

end Target

end CommandLine

end Docblock
