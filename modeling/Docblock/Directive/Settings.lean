import Docblock.Options
import Docblock.Text.Decimal
import Docblock.Text.Line

/-!
# Settings in a file

A file may set options for itself in its first lines, each by a comment of the form
`// phpdoc-fmt-test: key=value key=value`. For each key the last setting counts; one whose value
cannot be read takes back what was set before.

The settings are exactly known for every file: each field is what the last value of its key reads as
(`Docblock.Proofs.Directive.Settings`), and there it is also told when this is not the last value
that can be read.
-/

namespace Docblock

/-- The options that a file sets. -/
structure Settings where
  printWidth : Option UInt64 := none
  docPrintWidth : Option UInt64 := none
  tabWidth : Option UInt64 := none
  useTabs : Option Bool := none
  wrapText : Option Bool := none
  expandNull : Option Bool := none
deriving DecidableEq

namespace Settings

/-- What a comment begins with to set options. -/
def directive : Text := "// phpdoc-fmt-test:".toList

/-- The number of lines at the front of a file that may set options. -/
def searchedLines : Nat := 20

/-- The truth value that a word names. -/
def readBool? (t : Text) : Option Bool :=
  if t = "true".toList then some true
  else if t = "false".toList then some false
  else none

/-- The settings after one more `key=value`. -/
def set (s : Settings) (key value : Text) : Settings :=
  if key = "print_width".toList then { s with printWidth := Text.readWord? value }
  else if key = "phpdoc_print_width".toList then { s with docPrintWidth := Text.readWord? value }
  else if key = "tab_width".toList then { s with tabWidth := Text.readWord? value }
  else if key = "use_tabs".toList then { s with useTabs := readBool? value }
  else if key = "wrap_text".toList then { s with wrapText := readBool? value }
  else if key = "expand_null".toList then { s with expandNull := readBool? value }
  else s

/-- The settings after one more word of a directive; a word without `=` sets nothing. -/
def setWord (s : Settings) (word : Text) : Settings :=
  match word.dropWhile (· != '=') with
  | _ :: value => s.set (word.takeWhile (· != '=')) value
  | [] => s

/-- The words of the directives in a file, in order. -/
def directiveWords (source : Text) : List Text :=
  ((Text.lines source).take searchedLines).flatMap fun line =>
    match Text.dropStart? directive (Text.trim line) with
    | some words => Text.words words
    | none => []

/-- The settings of a file. -/
def ofSource (source : Text) : Settings := (directiveWords source).foldl setWord {}

/-- Whether a file sets anything. -/
def isSet (s : Settings) : Bool := s != {}

/-- The options with what is set in place of what they say. -/
def override (s : Settings) (o : Options) : Options :=
  { o with
    printWidth := s.printWidth.getD o.printWidth
    docPrintWidth := s.docPrintWidth <|> o.docPrintWidth
    tabWidth := s.tabWidth.getD o.tabWidth
    useTabs := s.useTabs.getD o.useTabs
    wrapText := s.wrapText.getD o.wrapText
    expandNull := s.expandNull.getD o.expandNull }

end Settings

end Docblock
