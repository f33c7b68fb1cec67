import Docblock.CommandLine.Run
import Docblock.Proofs.CommandLine.Targets
import Docblock.Proofs.FileSystem.Writing
import Docblock.Proofs.Source.Splice

/-!
# One run in three modes

Formatting a target makes one summary, whatever the mode. The mode decides what becomes of it: its
changed files are written, or lead to a failing exit code, or are shown. So the three modes agree on
the files that change, and what the writing mode leaves behind is told by the summary alone
(`formatTarget_modes`).

That the modes agree is not stated as three equations. It is one summary that all outcomes follow
from (`Outcome.Follows`), in any format of output: what is kept, what is formatted, which places are
touched, what is told and which code the run ends with. The summary itself accounts for the files
(`Summary.AccountsFor`): every one of them has a report or a failure, in order, and the report is
that of the text which stands in the file.

A run with no PHP files has an outcome of its own, which follows from the summary of no files. Time
is a text that the outcome prints, and no law depends on it. Failures to write are not modelled.
-/

namespace Docblock

/-- Formatting a file's text always gives a report. -/
theorem Report.ofSource_ok (o : Options) (path source : Text) :
    ∃ r, ofSource o path source = .ok r ∧ r.path = path ∧ r.source = source :=
  ⟨_, by rw [ofSource, apply_editsOf]; rfl, rfl, rfl⟩

namespace CommandLine

variable {fs : FileSystem}

namespace Summary

/-- A summary accounts for files. Each of them is formatted and stands among the reports, or it
cannot be read and stands among the failures, both in the order of the files. -/
structure AccountsFor (s : Summary) (fs : FileSystem) (o : Options) (files : List Text) : Prop where
  reports : s.reports.map Report.path = files.filter fun file => (fs.readText? file).isSome
  failures : s.failures.map Diagnostic.file = files.filter fun file => (fs.readText? file).isNone
  formatted : ∀ report ∈ s.reports, fs.readText? report.path = some report.source ∧
    Report.ofSource o report.path report.source = .ok report

/-! ## The summary of several files -/

/-- A file that can be read has a report. -/
theorem formatFile_of_readText?_eq_some {o : Options} {path source : Text}
    (h : fs.readText? path = some source) : ∃ report, formatFile fs o path = .ok report ∧
      Report.ofSource o path source = .ok report ∧ report.path = path ∧ report.source = source := by
  obtain ⟨report, hreport, hpath, hsource⟩ := Report.ofSource_ok o path source
  refine ⟨report, ?_, hreport, hpath, hsource⟩
  rw [formatFile, h]
  simp only [hreport]

/-- A file that cannot be read has a diagnostic that names it. -/
theorem formatFile_of_readText?_eq_none {o : Options} {path : Text}
    (h : fs.readText? path = none) : ∃ d, formatFile fs o path = .error d ∧ d.file = path :=
  ⟨_, by rw [formatFile, h], rfl⟩

/-- A report is put in front of those of the later files. -/
theorem ofFiles_cons_of_ok {o : Options} {file : Text} {report : Report}
    (h : formatFile fs o file = .ok report) (files : List Text) :
    ofFiles fs o (file :: files) =
      { ofFiles fs o files with reports := report :: (ofFiles fs o files).reports } := by
  simp [ofFiles, h]

/-- A failure is put in front of those of the later files, and the run goes on. -/
theorem ofFiles_cons_of_error {o : Options} {file : Text} {d : Diagnostic}
    (h : formatFile fs o file = .error d) (files : List Text) :
    ofFiles fs o (file :: files) =
      { ofFiles fs o files with failures := d :: (ofFiles fs o files).failures } := by
  simp [ofFiles, h]

/-- The summary that is made for files accounts for them. -/
theorem accountsFor_ofFiles (fs : FileSystem) (o : Options) (files : List Text) :
    (ofFiles fs o files).AccountsFor fs o files := by
  induction files with
  | nil => exact ⟨rfl, rfl, fun _ h => absurd h List.not_mem_nil⟩
  | cons file files ih =>
    cases hread : fs.readText? file with
    | some source =>
      obtain ⟨report, hformat, hreport, rfl, rfl⟩ :=
        formatFile_of_readText?_eq_some (o := o) hread
      rw [ofFiles_cons_of_ok hformat]
      exact {
        reports := by simp [hread, ih.reports]
        failures := by simp [hread, ih.failures]
        formatted := List.forall_mem_cons.2 ⟨⟨hread, hreport⟩, ih.formatted⟩ }
    | none =>
      obtain ⟨d, hformat, hfile⟩ := formatFile_of_readText?_eq_none (o := o) hread
      rw [ofFiles_cons_of_error hformat]
      exact {
        reports := by simp [hread, ih.reports]
        failures := by simp [hread, ih.failures, hfile]
        formatted := ih.formatted }

/-- A file counts as changed if its formatted text is another one. -/
theorem mem_changed_iff {s : Summary} {report : Report} :
    report ∈ s.changed ↔ report ∈ s.reports ∧ report.formatted ≠ report.source := by
  rw [changed, List.mem_filter, Report.changed, bne_iff_ne]

namespace AccountsFor

variable {s : Summary} {o : Options} {files : List Text}

/-- Reports are about the files of the run. -/
theorem path_mem (h : s.AccountsFor fs o files) {report : Report} (hreport : report ∈ s.reports) :
    report.path ∈ files := by
  have hpath : report.path ∈ s.reports.map Report.path := List.mem_map_of_mem hreport
  rw [h.reports] at hpath
  exact (List.mem_filter.1 hpath).1

/-- No two reports are about one file. -/
theorem eq_of_path (h : s.AccountsFor fs o files) {a b : Report} (ha : a ∈ s.reports)
    (hb : b ∈ s.reports) (hpath : a.path = b.path) : a = b := by
  obtain ⟨hread, hformat⟩ := h.formatted a ha
  obtain ⟨hread', hformat'⟩ := h.formatted b hb
  have hsource : a.source = b.source := by
    rw [hpath, hread'] at hread
    exact (Option.some.inj hread).symm
  rw [hpath, hsource, hformat'] at hformat
  exact (Except.ok.inj hformat).symm

/-- No file is written twice. -/
theorem nodup_written (h : s.AccountsFor fs o files) (hnodup : files.Nodup) :
    ((s.written .write).map Prod.fst).Nodup := by
  have hreports : (s.reports.map Report.path).Nodup := h.reports ▸ hnodup.filter _
  have hsub : ((s.written .write).map Prod.fst).Sublist (s.reports.map Report.path) := by
    rw [written, List.map_map]
    exact List.filter_sublist.map Report.path
  exact hreports.sublist hsub

/-- Before writing, the place of a report's file holds the source of the report. -/
theorem occupant?_of_resolve? (h : s.AccountsFor fs o files) {report : Report}
    (hreport : report ∈ s.reports) {location : Location}
    (hresolve : fs.resolve? report.path = some location) :
    fs.occupant? location = some (.file report.source.utf8) := by
  obtain ⟨place, hplace, hoccupant⟩ :=
    FileSystem.readText?_eq_some_iff.1 (h.formatted report hreport).1
  rw [hresolve] at hplace
  rwa [Option.some.inj hplace]

/-! ## Writing what a summary says -/

section Writing

variable (h : s.AccountsFor fs o files) (hfs : fs.Proper) (hnodup : files.Nodup)
  (hfiles : ∀ file ∈ files, fs.LocatedFile file)
include h hfiles

/-- What is written are files of the run. -/
theorem locatedFile_of_mem_written : ∀ w ∈ s.written .write, fs.LocatedFile w.1 := by
  intro w hw
  obtain ⟨report, hreport, rfl⟩ := List.mem_map.1 hw
  exact hfiles _ (h.path_mem (mem_changed_iff.1 hreport).1)

include hfs

/-- Two reports whose files stand in one place are the same. -/
theorem eq_of_resolve? {a b : Report} (ha : a ∈ s.reports) (hb : b ∈ s.reports)
    {location : Location} (hla : fs.resolve? a.path = some location)
    (hlb : fs.resolve? b.path = some location) : a = b :=
  h.eq_of_path ha hb <|
    ((hfiles _ (h.path_mem ha)).path_of_resolve? hfs hla).symm.trans
      ((hfiles _ (h.path_mem hb)).path_of_resolve? hfs hlb)

include hnodup

/-- What the writing mode leaves in the places of the changed files and in all other places. -/
theorem writeAll_written :
    (∀ report ∈ s.changed, ∀ location, fs.resolve? report.path = some location →
      (fs.writeAll (s.written .write)).occupant? location = some (.file report.formatted.utf8)) ∧
    ∀ location, (∀ report ∈ s.changed, fs.resolve? report.path ≠ some location) →
      (fs.writeAll (s.written .write)).occupant? location = fs.occupant? location := by
  obtain ⟨hwritten, hkept⟩ :=
    hfs.writeAll_paths (h.locatedFile_of_mem_written hfiles) (h.nodup_written hnodup)
  exact ⟨fun report hreport => hwritten _ (List.mem_map_of_mem hreport),
    fun location hnone => hkept location (List.forall_mem_map.2 hnone)⟩

/-- After writing, each file that has a report holds its formatted text, changed or not. -/
theorem formatted_of_writeAll {report : Report} (hreport : report ∈ s.reports)
    {location : Location} (hresolve : fs.resolve? report.path = some location) :
    (fs.writeAll (s.written .write)).occupant? location =
      some (.file report.formatted.utf8) := by
  obtain ⟨hwritten, hkept⟩ := h.writeAll_written hfs hnodup hfiles
  by_cases hchanged : report.formatted = report.source
  · -- No text is written here, and what stands here is the formatted text already.
    rw [hkept location fun other hother heq => ?_, h.occupant?_of_resolve? hreport hresolve,
      hchanged]
    obtain ⟨hmem, hne⟩ := mem_changed_iff.1 hother
    rw [h.eq_of_resolve? hfs hfiles hmem hreport heq hresolve] at hne
    exact hne hchanged
  · exact hwritten report (mem_changed_iff.2 ⟨hreport, hchanged⟩) location hresolve

/-- Writing changes what stands in the places of the changed files, and nothing else. -/
theorem writeAll_ne_iff (location : Location) :
    (fs.writeAll (s.written .write)).occupant? location ≠ fs.occupant? location ↔
      ∃ report ∈ s.changed, fs.resolve? report.path = some location := by
  obtain ⟨hwritten, hkept⟩ := h.writeAll_written hfs hnodup hfiles
  constructor
  · contrapose!
    exact hkept location
  · rintro ⟨report, hreport, hresolve⟩ hsame
    obtain ⟨hmem, hne⟩ := mem_changed_iff.1 hreport
    rw [hwritten report hreport location hresolve, h.occupant?_of_resolve? hmem hresolve,
      Option.some.injEq, FileTree.Occupant.file.injEq, Text.utf8_inj] at hsame
    exact hne hsame

end Writing

end AccountsFor

end Summary

/-! ## The outcome of a mode -/

/-- A text that tells of the changed files of a summary, in order, with at most a line before and a
line after. -/
def TellsChanges (s : Summary) (mode : WriteMode) (text : Text) : Prop :=
  ∃ before after : Option Text, text = outputLines before.toList ++
    s.changed.flatMap (Summary.changeText mode) ++ outputLines after.toList

/-- A text that is one JSON object, in which the changed files of a summary are a field. -/
def EncodesChanges (s : Summary) (mode : WriteMode) (text : Text) : Prop :=
  ∃ fields, text = (Json.object fields).pretty 0 ++ ['\n'] ∧
    fields.lookup "changed".toList = some (.array (s.changed.map (Summary.changeJson mode)))

/-- What a run in a mode leaves behind follows from a summary. -/
structure Outcome.Follows (r : Outcome) (fs : FileSystem) (s : Summary) (mode : WriteMode)
    (output : OutputFormat) : Prop where
  /-- The other modes leave all files as they are. -/
  kept : mode ≠ .write → r.apply fs = fs
  /-- After writing, each file with a report holds its formatted text. -/
  formatted : mode = .write → ∀ report ∈ s.reports, ∀ location,
    fs.resolve? report.path = some location →
      (r.apply fs).occupant? location = some (.file report.formatted.utf8)
  /-- Writing changes the files that the summary counts as changed, and no other place. -/
  touched : mode = .write → ∀ location,
    (r.apply fs).occupant? location ≠ fs.occupant? location ↔
      ∃ report ∈ s.changed, fs.resolve? report.path = some location
  /-- The text for a terminal tells of the changed files. -/
  told : output = .text → TellsChanges s mode r.stdout
  /-- The JSON for a summary of any files holds the changed ones. -/
  encoded : output = .json → s.reports ≠ [] ∨ s.failures ≠ [] → EncodesChanges s mode r.stdout
  /-- Only a check fails, and it does if a file would change. -/
  code : r.code = if mode = .check ∧ s.changed ≠ [] then 1 else 0

/-- Applying an outcome writes its files in order. -/
theorem Outcome.apply_eq_writeAll (r : Outcome) (fs : FileSystem) :
    r.apply fs = fs.writeAll r.written := rfl

namespace Summary

/-- The text for a terminal tells of the changed files in every mode. -/
theorem tellsChanges_text (s : Summary) (mode : WriteMode) (elapsed : Elapsed) :
    TellsChanges s mode (s.text mode elapsed) := by
  unfold text
  split
  · exact ⟨none, none, (List.append_nil _).symm⟩
  · exact ⟨some _, some _, rfl⟩

variable {s : Summary} {o : Options} {files : List Text}

/-- An outcome follows from a summary if it writes, tells and answers what the summary says. -/
theorem AccountsFor.follows (h : s.AccountsFor fs o files) (hfs : fs.Proper) (hnodup : files.Nodup)
    (hfiles : ∀ file ∈ files, fs.LocatedFile file) {r : Outcome} {mode : WriteMode}
    {output : OutputFormat} (hwritten : r.written = s.written mode)
    (htold : output = .text → TellsChanges s mode r.stdout)
    (hencoded : output = .json → s.reports ≠ [] ∨ s.failures ≠ [] → EncodesChanges s mode r.stdout)
    (hcode : r.code = if mode = .check ∧ s.changed ≠ [] then 1 else 0) :
    r.Follows fs s mode output where
  kept hmode := by
    rw [Outcome.apply_eq_writeAll, hwritten]
    cases mode with
    | write => exact absurd rfl hmode
    | check => rfl
    | dryRun => rfl
  formatted hmode report hreport location hresolve := by
    subst hmode
    rw [Outcome.apply_eq_writeAll, hwritten]
    exact h.formatted_of_writeAll hfs hnodup hfiles hreport hresolve
  touched hmode location := by
    subst hmode
    rw [Outcome.apply_eq_writeAll, hwritten]
    exact h.writeAll_ne_iff hfs hnodup hfiles location
  told := htold
  encoded := hencoded
  code := hcode

/-- The outcome that a summary has in a mode follows from it. -/
theorem AccountsFor.follows_outcome (h : s.AccountsFor fs o files) (hfs : fs.Proper)
    (hnodup : files.Nodup) (hfiles : ∀ file ∈ files, fs.LocatedFile file) (mode : WriteMode)
    (output : OutputFormat) (elapsed : Elapsed) :
    (s.outcome mode output elapsed).Follows fs s mode output := by
  refine h.follows hfs hnodup hfiles rfl ?told ?encoded ?code
  case told =>
    rintro rfl
    exact s.tellsChanges_text mode elapsed
  case encoded =>
    rintro rfl _
    exact ⟨_, rfl, rfl⟩
  case code => cases mode <;> simp [outcome]

/-- The outcome for no files follows from the summary of no files. -/
theorem follows_nothingFound (hfs : fs.Proper) (mode : WriteMode) (output : OutputFormat)
    (root : Text) : (nothingFound output root).Follows fs (ofFiles fs o []) mode output := by
  refine (accountsFor_ofFiles fs o []).follows hfs .nil (fun _ h => absurd h List.not_mem_nil)
    ?written ?told ?encoded ?code
  case written => cases output <;> cases mode <;> rfl
  case told =>
    rintro rfl
    refine ⟨some ("No PHP files found under ".toList ++ root), none, ?_⟩
    simp [nothingFound, ofFiles, changed, outputLines]
  case encoded => exact fun _ h => absurd h (by simp [ofFiles])
  case code => cases output <;> simp [nothingFound, ofFiles, changed]

end Summary

/-- Formatting a target gives one summary, and in every mode an outcome that follows from it. The
targets of invocations have their roots in the file system, as is asked here
(`Target.located_ofInvocation`). -/
theorem formatTarget_modes (hfs : fs.Proper) {t : Target} (ht : t.Located fs) (elapsed : Elapsed) :
    ∃ files summary, t.files fs = .ok files ∧ files.Nodup ∧
      summary.AccountsFor fs t.options files ∧
      ∀ mode output, ∃ outcome, formatTarget fs elapsed mode output t = .ok outcome ∧
        outcome.Follows fs summary mode output := by
  obtain ⟨files, hfiles, hsorted, hlocated⟩ := ht.files hfs
  have hnodup : files.Nodup := hsorted.imp Path.Before.ne
  have haccounts := Summary.accountsFor_ofFiles fs t.options files
  refine ⟨files, _, hfiles, hnodup, haccounts, fun mode output => ?_⟩
  rw [formatTarget, hfiles, ok_bind]
  cases files with
  | nil => exact ⟨_, rfl, Summary.follows_nothingFound hfs mode output t.root⟩
  | cons file files =>
    exact ⟨_, rfl, haccounts.follows_outcome hfs hnodup hlocated mode output elapsed⟩

/-- A directory with a file whose bytes are no text, one to be formatted, and one that is no PHP. -/
def mixedSources : FileSystem where
  tree := .directory [("src".toList, .directory [
    ("a.PHP".toList, .file ⟨#[0xff]⟩),
    ("b.php".toList, .file (Text.utf8 "<?php\n/**   Adds. */\n".toList)),
    ("c.txt".toList, .file (Text.utf8 "/**   Adds. */".toList))])]
  working := ["src".toList]

/-- That directory, and the file in it once more. -/
def overlappingRoots : Target where
  roots := ["/src".toList, "/src/b.php".toList]
  root := "/src".toList
  options := {}

/-- Its directories name their entries apart, and the working directory is there. -/
theorem proper_mixedSources : mixedSources.Proper where
  tree := by
    refine .directory (by decide) (by decide) (List.forall_mem_singleton.2 ?_)
    refine .directory (by decide) (by decide) ?_
    simp only [List.forall_mem_cons, FileTree.Proper.file, true_and]
    exact fun _ h => absurd h List.not_mem_nil
  working := ⟨_, rfl⟩

/-- Both roots are there, as the theorem asks of a target. -/
theorem located_overlappingRoots : overlappingRoots.Located mixedSources :=
  List.forall_mem_cons.2 ⟨⟨["src".toList], rfl, rfl⟩,
    List.forall_mem_singleton.2 ⟨["src".toList, "b.php".toList], rfl, rfl⟩⟩

/-- The file below the directory is found once, though both roots lead to it, and the file that is
no PHP is not found. -/
theorem files_overlappingRoots : overlappingRoots.files mixedSources =
    .ok ["/src/a.PHP".toList, "/src/b.php".toList] := by
  have hdirectory : mixedSources.phpFiles "/src".toList =
      .ok ["/src/a.PHP".toList, "/src/b.php".toList] := by
    show Except.ok (List.mergeSort ["/src/a.PHP".toList, "/src/b.php".toList] Path.le) = _
    rw [List.mergeSort_of_pairwise (by decide)]
  have hfile : mixedSources.phpFiles "/src/b.php".toList = .ok ["/src/b.php".toList] := rfl
  have hset : Path.sortedSet ["/src/a.PHP".toList, "/src/b.php".toList, "/src/b.php".toList] =
      ["/src/a.PHP".toList, "/src/b.php".toList] := by
    unfold Path.sortedSet
    rw [List.mergeSort_of_pairwise (by decide)]
    decide
  have hroots : overlappingRoots.roots.mapM mixedSources.phpFiles =
      .ok [["/src/a.PHP".toList, "/src/b.php".toList], ["/src/b.php".toList]] := by
    show ["/src".toList, "/src/b.php".toList].mapM mixedSources.phpFiles = _
    rw [List.mapM_cons, hdirectory, List.mapM_cons, hfile]
    rfl
  rw [Target.files, FileSystem.phpFilesOfRoots, hroots, ok_bind]
  show Except.ok (Path.sortedSet _) = _
  exact congrArg Except.ok hset

/-- Of a directory and a file in it, two PHP files are found, each of them once. One cannot be read
and one would change, and in all three modes, for a terminal or as JSON, the outcome follows from
the one summary of the two. -/
theorem formatTarget_modes_overlapping :
    mixedSources.Proper ∧ overlappingRoots.Located mixedSources ∧
    ∃ summary : Summary,
      summary.AccountsFor mixedSources {} ["/src/a.PHP".toList, "/src/b.php".toList] ∧
      ∀ mode output, ∃ outcome,
        formatTarget mixedSources ⟨[], []⟩ mode output overlappingRoots = .ok outcome ∧
        outcome.Follows mixedSources summary mode output := by
  obtain ⟨files, summary, hfiles, -, haccounts, hmodes⟩ :=
    formatTarget_modes proper_mixedSources located_overlappingRoots ⟨[], []⟩
  obtain rfl := Except.ok.inj (files_overlappingRoots.symm.trans hfiles)
  exact ⟨proper_mixedSources, located_overlappingRoots, summary, haccounts, hmodes⟩

end CommandLine

end Docblock
