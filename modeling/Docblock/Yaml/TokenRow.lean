import Docblock.Yaml.Property
import Docblock.Yaml.Token

/-!
# From glyphs to tokens

The tokens of a document in the order in which they stand. Two things are known only later than they
begin: that a node is a key, which shows at the colon after it, and that a mapping begins with that
key. So the place of every token that may be a key is kept, one for each pair of brackets around it,
and when the colon comes the tokens for the key and for its mapping are put in there. A key has to
stand in one line, with its colon no more than 1024 characters after its beginning.
-/

namespace Docblock.Yaml

/-- A place at which a key may have begun. -/
structure KeyStart where
  /-- The number of tokens before it. -/
  position : Nat
  first : Glyph
  /-- Whether it has to be a key, since it stands in the column of its block. -/
  isRequired : Bool

/-- The tokens that have been read of a document, and what the next one depends on. -/
structure TokenRow where
  tokens : List Token := []
  /-- One more than the column of the innermost block; zero outside of all blocks. -/
  level : Nat := 0
  /-- The levels of the blocks around the innermost, from the inside out. -/
  outerLevels : List Nat := []
  /-- Where a key may have begun inside the innermost brackets. -/
  keyStart : Option KeyStart := none
  /-- The same for the brackets around them, from the inside out. -/
  outerKeyStarts : List (Option KeyStart) := []
  /-- Whether a key may begin here. -/
  allowsKey : Bool := true
  /-- The names of nodes and their numbers. -/
  names : List (Text × Nat) := []
  /-- What handles stand for. -/
  handles : List (Text × Text) := []
  hasVersion : Bool := false

namespace TokenRow

/-- Whether the next token stands between brackets. -/
def inFlow (row : TokenRow) : Bool := !row.outerKeyStarts.isEmpty

/-- One more token. -/
def emit (row : TokenRow) (token : Token) : TokenRow := { row with tokens := row.tokens ++ [token] }

/-- One more token at an earlier place. -/
def insert (row : TokenRow) (position : Nat) (token : Token) : TokenRow :=
  { row with tokens := row.tokens.take position ++ token :: row.tokens.drop position }

/-! ## Keys -/

/-- Forgets the place of a key that did not come; it must not be required. -/
def forgetKey? (row : TokenRow) : Option TokenRow :=
  if row.keyStart.any (·.isRequired) then none else some { row with keyStart := none }

/-- Keeps the place of a token that may be a key. -/
def keepKey? (row : TokenRow) (g : Glyph) : Option TokenRow :=
  if row.allowsKey then do
    let row ← row.forgetKey?
    let isRequired := !row.inFlow && row.level = g.column + 1
    return { row with keyStart := some ⟨row.tokens.length, g, isRequired⟩ }
  else some row

/-- The greatest number of characters from the beginning of a key to its colon. -/
def keyReach : Nat := 1024

/-- A place of a key, if a colon at `g` may still come for it. -/
def fresh? (g : Glyph) (start : Option KeyStart) : Option (Option KeyStart) :=
  match start with
  | none => some none
  | some key =>
    if key.first.line = g.line && g.index ≤ key.first.index + keyReach then some (some key)
    else if key.isRequired then none
    else some none

/-- Forgets the places of keys for which a colon at `g` would come too late. -/
def forgetStale? (row : TokenRow) (g : Glyph) : Option TokenRow := do
  let keyStart ← fresh? g row.keyStart
  let outerKeyStarts ← row.outerKeyStarts.mapM (fresh? g)
  return { row with keyStart, outerKeyStarts }

/-! ## Blocks -/

/-- Begins a block at a column, with its token at a position, unless the innermost block stands
there. -/
def openBlock (row : TokenRow) (column position : Nat) (token : Token) : TokenRow :=
  if !row.inFlow && row.level ≤ column then
    { row.insert position token with
      level := column + 1, outerLevels := row.level :: row.outerLevels }
  else row

/-- The levels that remain when all above `floor` end, and the number of those. -/
def levelsFrom (floor level : Nat) : List Nat → Nat × List Nat × Nat
  | [] => (level, [], 0)
  | outer :: rest =>
    if floor < level then
      let (level, levels, count) := levelsFrom floor outer rest
      (level, levels, count + 1)
    else (level, outer :: rest, 0)

/-- Ends the blocks above a level. -/
def closeBlocks (row : TokenRow) (floor : Nat) : TokenRow :=
  if row.inFlow then row
  else
    let (level, outerLevels, count) := levelsFrom floor row.level row.outerLevels
    { row with level, outerLevels, tokens := row.tokens ++ List.replicate count .blockEnd }

/-! ## Tokens -/

/-- What a step leads to, and what is left of the document. -/
abbrev Next := Option (TokenRow × List Glyph)

/-- A token in front of which no key may end and after which one may begin if `allowsKey`. -/
def punctuation (row : TokenRow) (allowsKey : Bool) (token : Token) (rest : List Glyph) : Next := do
  let row ← row.forgetKey?
  return ({ row.emit token with allowsKey }, rest)

/-- A mark between documents. -/
def documentMark (row : TokenRow) (token : Token) (rest : List Glyph) : Next :=
  (row.closeBlocks 0).punctuation false token rest

/-- A directive after its percent sign. -/
def directive (row : TokenRow) (r : List Glyph) : Next := do
  let (directive, rest) ← directive? r
  let row ←
    match directive with
    | .version major minor =>
      if row.hasVersion || major ≠ 1 || (minor ≠ 1 && minor ≠ 2) then none
      else some { row with hasVersion := true }
    | .handle handle text =>
      if (row.handles.lookup handle).isSome then none
      else some { row with handles := (handle, text) :: row.handles }
  row.documentMark .directive rest

/-- An opening bracket. -/
def opening (row : TokenRow) (g : Glyph) (bracket : Bracket) (rest : List Glyph) : Next := do
  let row ← row.keepKey? g
  return ({ row.emit (.opening bracket) with
    keyStart := none
    outerKeyStarts := row.keyStart :: row.outerKeyStarts
    allowsKey := true }, rest)

/-- A closing bracket. -/
def closing (row : TokenRow) (bracket : Bracket) (rest : List Glyph) : Next := do
  let (row, rest) ← row.punctuation false (.closing bracket) rest
  match row.outerKeyStarts with
  | [] => return (row, rest)
  | outer :: others => return ({ row with keyStart := outer, outerKeyStarts := others }, rest)

/-- The hyphen before an item in lines. Between brackets it is left to be refused later. -/
def blockEntry (row : TokenRow) (g : Glyph) (rest : List Glyph) : Next :=
  if !row.inFlow && !row.allowsKey then none
  else
    (row.openBlock g.column row.tokens.length .blockSequence).punctuation true .blockEntry rest

/-- The question mark before a key. -/
def key (row : TokenRow) (g : Glyph) (rest : List Glyph) : Next :=
  if !row.inFlow && !row.allowsKey then none
  else
    (row.openBlock g.column row.tokens.length .blockMapping).punctuation (!row.inFlow) .key rest

/-- The colon before a value. If a key may have begun before it, that was one. -/
def value (row : TokenRow) (g : Glyph) (rest : List Glyph) : Next :=
  match row.keyStart with
  | some start =>
    let row := row.insert start.position .key
    let row := row.openBlock start.first.column start.position .blockMapping
    some ({ row.emit .value with keyStart := none, allowsKey := false }, rest)
  | none =>
    if !row.inFlow && !row.allowsKey then none
    else
      let row := row.openBlock g.column row.tokens.length .blockMapping
      some ({ row.emit .value with allowsKey := !row.inFlow }, rest)

/-- A token that may be a key, or the first of one. -/
def content (row : TokenRow) (g : Glyph) (token : Token) (rest : List Glyph) : Next := do
  let row ← row.keepKey? g
  return ({ row.emit token with allowsKey := false }, rest)

/-- A name for the next node. A name that is set again gets a new number, which is the number of
names so far. -/
def anchor (row : TokenRow) (g : Glyph) (r : List Glyph) : Next := do
  let (name, rest) ← name? r
  let number := row.names.length
  let names := (name, number) :: row.names.filter fun (other, _) => other != name
  { row with names }.content g (.anchor number) rest

/-- A node that has a name, again. -/
def reference (row : TokenRow) (g : Glyph) (r : List Glyph) : Next := do
  let (name, rest) ← name? r
  row.content g (.reference (← row.names.lookup name)) rest

/-- What a handle stands for if no directive sets it. -/
def defaultHandles : List (Text × Text) :=
  [("!".toList, "!".toList), ("!!".toList, "tag:yaml.org,2002:".toList)]

/-- A tag after its exclamation mark. -/
def tag (row : TokenRow) (g : Glyph) (r : List Glyph) : Next := do
  let tag ← tag? row.inFlow r
  let start ←
    if tag.handle.isEmpty then some [] else (row.handles ++ defaultHandles).lookup tag.handle
  row.content g (.tag (start ++ tag.suffix)) tag.rest

/-- A scalar between quotes, after its first quote. -/
def quoted (row : TokenRow) (g : Glyph) (style : ScalarStyle) (r : List Glyph) : Next := do
  let (text, rest) ← quotedBody? (style = .doubleQuoted) r
  row.content g (.scalar style text) rest

/-- A scalar in lines of its own, after its bar or angle bracket. It is never a key. -/
def block (row : TokenRow) (style : ScalarStyle) (r : List Glyph) : Next := do
  let scalar ← block? (style = .folded) row.level r
  row.punctuation true (.scalar style scalar.text) scalar.rest

/-- A plain scalar. If its line ended, a key may begin after it. -/
def plain (row : TokenRow) (g : Glyph) (r : List Glyph) : Next := do
  let scalar ← plain? row.inFlow row.level (g :: r)
  let (row, rest) ← row.content g (.scalar .plain scalar.text) scalar.rest
  return ({ row with allowsKey := scalar.endsLine }, rest)

/-- The token that begins with `g`. -/
def token (row : TokenRow) (g : Glyph) (r : List Glyph) : Next :=
  if g.column = 0 && g.char = '%' then row.directive r
  else if isMarker startMarker (g :: r) then row.documentMark .documentStart (r.drop 2)
  else if isMarker endMarker (g :: r) then row.documentMark .documentEnd (r.drop 2)
  else
    match g.char with
    | '[' => row.opening g .square r
    | '{' => row.opening g .brace r
    | ']' => row.closing .square r
    | '}' => row.closing .brace r
    | ',' => row.punctuation true .comma r
    | '-' => if endsWord r then row.blockEntry g r else row.plain g r
    | '?' => if row.inFlow || endsWord r then row.key g r else row.plain g r
    | ':' => if row.inFlow || endsWord r then row.value g r else row.plain g r
    | '*' => row.reference g r
    | '&' => row.anchor g r
    | '!' => row.tag g r
    | '|' => if row.inFlow then none else row.block .literal r
    | '>' => if row.inFlow then none else row.block .folded r
    | '\'' => row.quoted g .singleQuoted r
    | '"' => row.quoted g .doubleQuoted r
    | '\t' => none
    | '%' => none
    | '@' => none
    | '`' => none
    | _ => row.plain g r

/-! ## The whole document -/

/-- Whether a key may begin after the white space and comments at the front, and what follows them.
A new line allows a key unless it stands between brackets; where a key may begin no tab may stand
before it. A byte order mark is passed over, but what follows it in its line stands one column to
the right for it. -/
def skip (flow allowsKey inComment : Bool) : List Glyph → Bool × List Glyph
  | [] => (allowsKey, [])
  | g :: r =>
    if g.isBreak then skip flow (allowsKey || !flow) false r
    else if inComment then skip flow allowsKey true r
    else if g.isByteOrderMark then skip flow allowsKey false r
    else if g.char = ' ' || ((flow || !allowsKey) && g.char = '\t') then skip flow allowsKey false r
    else if g.char = '#' then skip flow allowsKey true r
    else (allowsKey, g :: r)

/-- The tokens at the end of a document. -/
def finish? (row : TokenRow) : Option (List Token) := (row.closeBlocks 0).forgetKey?.map (·.tokens)

/-- The tokens of a document of which `s` is left. -/
def tokensFrom? (row : TokenRow) (s : List Glyph) : Option (List Token) :=
  match skip row.inFlow row.allowsKey false s with
  | (_, []) => row.finish?
  | (allowsKey, g :: r) => do
    let row ← { row with allowsKey }.forgetStale? g
    let (row, rest) ← (row.closeBlocks (g.column + 1)).token g r
    if rest.length < s.length then row.tokensFrom? rest else none
termination_by s.length

end TokenRow

/-- The tokens of a document. -/
def tokens? (document : Text) : Option (List Token) := do
  let glyphs ← glyphs? document
  TokenRow.tokensFrom? {} glyphs

end Docblock.Yaml
