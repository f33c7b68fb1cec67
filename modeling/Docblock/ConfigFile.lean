import Docblock.FileSystem.Tree
import Docblock.Options
import Docblock.Text.Decimal
import Docblock.Yaml.Document

/-!
# Configuration files

Options may be kept in a file: a YAML mapping from their names to their values. A name that is not
an option is ignored; an option that is given twice, or whose value is not of its kind, makes the
file invalid.

An option that a file does not set has its default, and a file that sets none is a mapping without
entries or a document without a node. The values are read as YAML reads them:
`Docblock.Yaml.Document` gives the tree, and what a scalar means is decided here, by its style, its
tag and its text.
-/

namespace Docblock.ConfigFile

/-- The names that a configuration file may have, the preferred one first. -/
def candidates : List Text := ["phpdoc_fmt.yaml".toList, "phpdoc_fmt.yml".toList]

/-- Why a configuration cannot be used. -/
inductive Error where
  /-- There is no file, or it does not hold text. -/
  | unreadable (path : Text)
  | invalid (path : Text)
deriving DecidableEq

/-- The text of an error. -/
def Error.message : Error → Text
  | .unreadable path => "failed to read config ".toList ++ path
  | .invalid path => "failed to parse ".toList ++ path

/-! ## Values of options -/

/-- A number in decimal without leading zeros, or with a mark for base sixteen, eight or two. -/
def readNumber? (t : Text) : Option UInt64 :=
  let body := (Text.dropStart? ['+'] t).getD t
  let inBase (base : Nat) (digits : Text) : Option UInt64 :=
    if digits.isEmpty then none else (Yaml.digits? base digits).bind Text.wordOf?
  match body with
  | '0' :: 'x' :: digits => inBase 16 digits
  | '0' :: 'o' :: digits => inBase 8 digits
  | '0' :: 'b' :: digits => inBase 2 digits
  | '0' :: _ :: _ => none
  | digits => inBase 10 digits

/-- The truth value that a plain word names. -/
def readFlag? (t : Text) : Option Bool :=
  if t ∈ ["true".toList, "True".toList, "TRUE".toList] then some true
  else if t ∈ ["false".toList, "False".toList, "FALSE".toList] then some false
  else none

/-- The words for the absence of a value. -/
def nullWords : List Text := [['~'], "null".toList, "Null".toList, "NULL".toList]

/-- The tag of a kind of scalar. -/
def tagOf (kind : String) : Text := ("tag:yaml.org,2002:" ++ kind).toList

/-- The text of a scalar that may say more than its text: a plain one, or lines with the tag of its
kind. -/
def meaning? (kind : String) : Yaml.Node → Option Text
  | .scalar .plain _ text => some text
  | .scalar .literal tag text => if tag = some (tagOf kind) then some text else none
  | _ => none

/-- A value that has to be a number. -/
def width? (value : Yaml.Node) : Option UInt64 := (meaning? "int" value).bind readNumber?

/-- A value that has to be a truth value. -/
def flag? (value : Yaml.Node) : Option Bool := (meaning? "bool" value).bind readFlag?

/-- A value that has to be a scalar; its text is what is written. -/
def text? : Yaml.Node → Option Text
  | .scalar _ _ text => some text
  | _ => none

/-- A value that may be absent, and else is read by `read`. A plain scalar is absent if it has no
text or a word for it, and no other tag; with the tag of its kind it has to be such a word. -/
def optional? {α : Type} (read : Yaml.Node → Option α) (value : Yaml.Node) : Option (Option α) :=
  match value with
  | .scalar .plain none text =>
    if text.isEmpty || text ∈ nullWords then some none else (read value).map some
  | .scalar .plain (some tag) text =>
    if tag ≠ tagOf "null" then (read value).map some
    else if text ∈ nullWords then some none
    else none
  | _ => (read value).map some

/-- The value of an option, or its default. The option may be given once. -/
def option? {α : Type} (entries : List (Text × Yaml.Node)) (name : String)
    (read : Yaml.Node → Option α) (default : α) : Option α :=
  match entries.filter fun (key, _) => key = name.toList with
  | [] => some default
  | [(_, value)] => read value
  | _ => none

/-- The entries of a document that is a mapping with scalars for keys. A document without a node has
none. -/
def entries? (d : Yaml.Document) : Option (List (Text × Yaml.Node)) :=
  match d.resolve d.root with
  | .mapping entries =>
    entries.mapM fun (key, value) => (text? (d.resolve key)).map fun name => (name, d.resolve value)
  | .scalar .plain _ [] => some []
  | _ => none

/-- The options that a text sets. -/
def parse? (text : Text) : Option Options := do
  let document ← Yaml.Document.parse? text
  let entries ← entries? document
  let defaults : Options := {}
  return {
    printWidth := ← option? entries "print_width" width? defaults.printWidth
    docPrintWidth := ← option? entries "phpdoc_print_width" (optional? width?) none
    tabWidth := ← option? entries "tab_width" width? defaults.tabWidth
    useTabs := ← option? entries "use_tabs" flag? defaults.useTabs
    indent := ← option? entries "indent" (optional? text?) none
    wrapText := ← option? entries "wrap_text" flag? defaults.wrapText
    expandNull := ← option? entries "expand_null" flag? defaults.expandNull }

/-- The options in the file at a path. -/
def load (fs : FileSystem) (path : Text) : Except Error Options :=
  match fs.readText? path with
  | none => .error (.unreadable path)
  | some document =>
    match parse? document with
    | some options => .ok options
    | none => .error (.invalid path)

/-- The configuration file to use: the given one, or one of the usual names under the root. -/
def find? (fs : FileSystem) (given : Option Text) (root : Text) : Option Text :=
  match given with
  | some path => some path
  | none => (candidates.map (Path.join root)).find? fs.isFile

end Docblock.ConfigFile
