import Docblock.Options
import Docblock.Text.Decimal

/-!
# Arguments of the command

The command is given a task and its options: `format` or `watch`, then a path, with the options
before or after it. An option with a value takes it from the next argument or behind a `=`. No
option may be given twice, and after `--` every argument is a path. In place of a task the version
can be asked for.

Arguments that are not well formed are refused as a whole, whatever is wrong with them: the reader
says that they are, and not where. What an invocation works on is found out afterwards, in
`Docblock.CommandLine.Target`, so nothing here depends on the file system.
-/

namespace Docblock.CommandLine

/-- What is done with a file that formatting would change. -/
inductive WriteMode where
  | write
  | check
  | dryRun
deriving DecidableEq

/-- The form of the output. -/
inductive OutputFormat where
  | text
  | json
deriving DecidableEq

/-- Options that win over the configuration file. -/
structure Overrides where
  printWidth : Option UInt64 := none
  tabWidth : Option UInt64 := none
  useTabs : Bool := false
  wrapText : Bool := false
  expandNull : Bool := false
deriving DecidableEq

/-- The options with the overrides in place. A flag can only be switched on. -/
def Overrides.apply (v : Overrides) (o : Options) : Options :=
  { o with
    printWidth := v.printWidth.getD o.printWidth
    tabWidth := v.tabWidth.getD o.tabWidth
    useTabs := o.useTabs || v.useTabs
    wrapText := o.wrapText || v.wrapText
    expandNull := o.expandNull || v.expandNull }

/-- What the command is asked to do. -/
inductive Task where
  | format (mode : WriteMode) (output : OutputFormat)
  | watch
deriving DecidableEq

/-- The command as it is called. -/
structure Invocation where
  task : Task
  path : Text
  overrides : Overrides
  config : Option Text
deriving DecidableEq

/-- What the arguments ask for. -/
inductive Request where
  /-- To say which version of the program this is. -/
  | version
  | run (invocation : Invocation)
deriving DecidableEq

/-! ## Reading the arguments -/

/-- What has been read of the arguments after the task. -/
structure Partial where
  isFormat : Bool
  path : Option Text := none
  config : Option Text := none
  check : Bool := false
  dryRun : Bool := false
  output : Option OutputFormat := none
  overrides : Overrides := {}

/-- An option as it is written: its name, and the value behind a `=`. -/
def splitOption (argument : Text) : Text × Option Text :=
  let name := argument.takeWhile (· != '=')
  match argument.drop name.length with
  | [] => (name, none)
  | _ :: value => (name, some value)

/-- Whether an argument is an option rather than a value. -/
def isOption (argument : Text) : Bool := argument.head? = some '-' && argument != ['-']

/-- A path may not be empty. -/
def readPath? (t : Text) : Option Text := if t.isEmpty then none else some t

/-- The form of output that a word names. -/
def readOutput? (t : Text) : Option OutputFormat :=
  if t = "text".toList then some .text
  else if t = "json".toList then some .json
  else none

/-- What is read after a flag that may be given once and has no value. -/
def setFlag? (isSet : Bool) (inline : Option Text) (result : Partial) : Option Partial :=
  if isSet || inline.isSome then none else some result

/-- What is read after an option without a value. -/
def readFlag? (p : Partial) (name : Text) (inline : Option Text) : Option Partial :=
  let v := p.overrides
  if name = "--check".toList && p.isFormat then setFlag? p.check inline { p with check := true }
  else if name = "--dry-run".toList && p.isFormat then
    setFlag? p.dryRun inline { p with dryRun := true }
  else if name = "--use-tabs".toList then
    setFlag? v.useTabs inline { p with overrides := { v with useTabs := true } }
  else if name = "--wrap-text".toList then
    setFlag? v.wrapText inline { p with overrides := { v with wrapText := true } }
  else if name = "--expand-null".toList then
    setFlag? v.expandNull inline { p with overrides := { v with expandNull := true } }
  else none

/-- Whether an option takes a value. -/
def takesValue (p : Partial) (name : Text) : Bool :=
  name ∈ ["--config".toList, "--print-width".toList, "--tab-width".toList] ||
    (p.isFormat && name = "--format".toList)

/-- What is read after an option with a value. -/
def readValue? (p : Partial) (name value : Text) : Option Partial :=
  let v := p.overrides
  if name = "--config".toList then
    if p.config.isSome then none
    else (readPath? value).map fun path => { p with config := some path }
  else if name = "--print-width".toList then
    if v.printWidth.isSome then none
    else (Text.readWord? value).map fun n => { p with overrides := { v with printWidth := some n } }
  else if name = "--tab-width".toList then
    if v.tabWidth.isSome then none
    else (Text.readWord? value).map fun n => { p with overrides := { v with tabWidth := some n } }
  else if p.output.isSome then none
  else (readOutput? value).map fun output => { p with output := some output }

/-- What is read after a path; there is one. -/
def readPosition? (p : Partial) (argument : Text) : Option Partial :=
  if p.path.isSome then none
  else (readPath? argument).map fun path => { p with path := some path }

/-- Reads the arguments after the task. -/
def readRest? (p : Partial) (arguments : List Text) : Option Partial :=
  match arguments with
  | [] => some p
  | argument :: rest =>
    if argument = "--".toList then rest.foldlM readPosition? p
    else if isOption argument then
      let (name, inline) := splitOption argument
      if takesValue p name then
        match inline with
        | some value => do readRest? (← readValue? p name value) rest
        | none =>
          match rest with
          | [] => none
          | value :: after =>
            if isOption value then none else do readRest? (← readValue? p name value) after
      else do readRest? (← readFlag? p name inline) rest
    else do readRest? (← readPosition? p argument) rest
termination_by arguments.length

/-- The invocation that has been read, if nothing is missing and no two options exclude each
other. The configuration named last counts. -/
def finish? (config : Option Text) (p : Partial) : Option Invocation := do
  let path ← p.path
  if p.check && p.dryRun then none
  let mode : WriteMode := if p.check then .check else if p.dryRun then .dryRun else .write
  let task : Task := if p.isFormat then .format mode (p.output.getD .text) else .watch
  return { task, path, overrides := p.overrides, config := p.config <|> config }

/-- Whether an argument asks for the version. What follows the short form is not read. -/
def isVersion (argument : Text) : Bool :=
  argument = "--version".toList || "-V".toList.isPrefixOf argument

/-- Reads the arguments of the command; before the task only the configuration may be named. -/
def readFrom? (config : Option Text) (arguments : List Text) : Option Request :=
  match arguments with
  | [] => none
  | argument :: rest =>
    if argument = "format".toList then do
      return .run (← finish? config (← readRest? { isFormat := true } rest))
    else if argument = "watch".toList then do
      return .run (← finish? config (← readRest? { isFormat := false } rest))
    else if isVersion argument then some .version
    else
      let (name, inline) := splitOption argument
      if name = "--config".toList && config.isNone then
        match inline with
        | some value => do readFrom? (some (← readPath? value)) rest
        | none =>
          match rest with
          | [] => none
          | value :: after =>
            if isOption value then none else do readFrom? (some (← readPath? value)) after
      else none
termination_by arguments.length

/-- What the arguments ask for, if they are well formed. -/
def read? (arguments : List Text) : Option Request := readFrom? none arguments

end Docblock.CommandLine
