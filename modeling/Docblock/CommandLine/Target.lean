import Docblock.CommandLine.Arguments
import Docblock.ConfigFile
import Docblock.FileSystem.Glob
import Docblock.FileSystem.PhpFiles

/-!
# What a command works on

The path of a command names a file, a directory, or by a pattern several of them. From these follow
the directory in which a configuration is looked for, and the options in force.

The roots of a target are there, and its files can be listed, in any file system whose directories
name their entries apart (`Docblock.Proofs.CommandLine.Targets`). The directory for the
configuration is the greatest one that holds all of them (`Docblock.Proofs.Path.CommonDirectory`).
-/

namespace Docblock.CommandLine

/-- Why a command cannot begin its work. -/
inductive Error where
  | invalidPattern (pattern : Text)
  | noMatch (pattern : Text)
  | inaccessible (path : Text)
  | config (error : ConfigFile.Error)
  | walk (error : WalkError)
deriving DecidableEq

/-- The text of an error. -/
def Error.message : Error → Text
  | .invalidPattern pattern => "invalid glob pattern \"".toList ++ pattern ++ ['"']
  | .noMatch pattern => "no files matched \"".toList ++ pattern ++ ['"']
  | .inaccessible path => "failed to access ".toList ++ path
  | .config e => e.message
  | .walk e => e.message

/-- The locations that the path of a command names. -/
def locate (fs : FileSystem) (path : Text) : Except Error (List Location) :=
  if Glob.isPattern path then
    match Glob.expand? fs path with
    | none => .error (.invalidPattern path)
    | some [] => .error (.noMatch path)
    | some locations => .ok locations
  else
    match fs.resolve? path with
    | none => .error (.inaccessible path)
    | some location => .ok [location]

/-- The directory at a location, or around the file there. -/
def directoryOf (fs : FileSystem) (location : Location) : Location :=
  match fs.at? location with
  | some (.file _) => location.dropLast
  | _ => location

/-- What a command works on. -/
structure Target where
  /-- The roots under which files are looked for. -/
  roots : List Text
  /-- The directory that holds them all. -/
  root : Text
  options : Options

namespace Target

/-- The options in force: those of the configuration, with the overrides. -/
def optionsFor (fs : FileSystem) (config : Option Text) (root : Text) (overrides : Overrides) :
    Except Error Options :=
  match ConfigFile.find? fs config root with
  | none => .ok (overrides.apply {})
  | some path =>
    match ConfigFile.load fs path with
    | .ok options => .ok (overrides.apply options)
    | .error e => .error (.config e)

/-- What an invocation works on. -/
def ofInvocation (fs : FileSystem) (i : Invocation) : Except Error Target := do
  let locations ← locate fs i.path
  let directories := locations.map fun location => (directoryOf fs location).path
  let root := (Path.longestCommon? directories).getD []
  let options ← optionsFor fs i.config root i.overrides
  return { roots := Path.sortedSet (locations.map Location.path), root, options }

/-- The PHP files of a target. -/
def files (fs : FileSystem) (t : Target) : Except Error (List Text) :=
  match fs.phpFilesOfRoots t.roots with
  | .ok files => .ok files
  | .error e => .error (.walk e)

end Target

end Docblock.CommandLine
