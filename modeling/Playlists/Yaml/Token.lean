import Playlists.Yaml.Scalar

/-!
# `Yaml/Token.lean` — the parts of a settings document

The cells of a document are cut into tokens: scalars, the marks of flow collections, the indicators
of entries, keys and values, and, read off the columns, where block collections begin and end.

A key gives itself away only by the colon behind it. Whatever may turn out to be a key is therefore
remembered with its place, and when the colon comes, the tokens for the key and perhaps for the
mapping it begins are put in front of it. A key has to stand on one line with its colon and may not
be longer than 1024 bytes. In a block, something that stands where only a key can stand has to
become one.
-/

set_option autoImplicit false

namespace Playlists.Yaml

/-- The parts of a document. -/
inductive Token where
  | documentStart
  | documentEnd
  | blockSequence
  | blockMapping
  | blockEnd
  | openSequence
  | closeSequence
  | openMapping
  | closeMapping
  /-- The hyphen in front of an item of a block sequence. -/
  | entry
  | comma
  | key
  | value
  | scalar (s : Scalar)
  deriving DecidableEq

/-- Something that becomes a key if a colon follows. -/
structure PossibleKey where
  /-- How many tokens come before it. -/
  position : Nat
  cell : Cell
  /-- Whether nothing but a key can stand there. -/
  isRequired : Bool

/-- Whether it is too late for a possible key to become one. -/
def PossibleKey.isStale (k : PossibleKey) (now : Cell) : Bool :=
  k.cell.line < now.line || k.cell.index + 1024 < now.index

/-- How far the cutting has come. -/
structure Cutting where
  tokens : List Token
  rest : List Cell
  /-- The columns of the open block collections, innermost first. -/
  indents : List Nat
  /-- Whether a key may begin here without an indicator. -/
  keyAllowed : Bool
  /-- What may become a key in the innermost collection. -/
  possible : Option PossibleKey
  /-- The same for the collections around each open flow collection, innermost first. -/
  outer : List (Option PossibleKey)

namespace Cutting

def inFlow (c : Cutting) : Bool :=
  !c.outer.isEmpty

def emit (c : Cutting) (t : Token) : Cutting :=
  { c with tokens := c.tokens ++ [t] }

def insert (c : Cutting) (position : Nat) (t : Token) : Cutting :=
  { c with tokens := c.tokens.take position ++ t :: c.tokens.drop position }

/-- Whether something at a column is further to the right than the innermost block collection. -/
def isDeeper (c : Cutting) (column : Nat) : Bool :=
  match c.indents with
  | [] => true
  | indent :: _ => indent < column

/-- How far to the left a plain scalar may stand. -/
def scalarIndent (c : Cutting) : Nat :=
  match c.indents with
  | [] => 0
  | indent :: _ => indent + 1

/-- Opens a block collection at a column, unless one is open there already. Flow collections hold no
block collections. -/
def openBlock (c : Cutting) (column position : Nat) (t : Token) : Cutting :=
  if !c.inFlow && c.isDeeper column then
    { c.insert position t with indents := column :: c.indents }
  else c

/-- Closes the block collections that are open further to the right than `column`. -/
def closeBlocks (c : Cutting) (column : Nat) : Cutting :=
  if c.inFlow then c
  else
    let closed := c.indents.takeWhile (column < ·)
    { c with
      indents := c.indents.drop closed.length
      tokens := c.tokens ++ List.replicate closed.length .blockEnd }

def closeAllBlocks (c : Cutting) : Cutting :=
  if c.inFlow then c
  else
    { c with
      indents := []
      tokens := c.tokens ++ List.replicate c.indents.length .blockEnd }

/-- Gives up what may become a key here. Something that has to become one cannot be given up. -/
def dropKey (c : Cutting) : Option Cutting :=
  match c.possible with
  | some k => if k.isRequired then none else some { c with possible := none }
  | none => some c

/-- Remembers that something that begins with `cell` may become a key. -/
def saveKey (c : Cutting) (cell : Cell) : Option Cutting :=
  if c.keyAllowed then do
    -- In the column of an open block mapping, nothing but a further key can stand.
    let isRequired := !c.inFlow && c.indents.head? == some cell.column
    let dropped ← c.dropKey
    return { dropped with possible := some ⟨c.tokens.length, cell, isRequired⟩ }
  else some c

/-- Forgets a possible key that it is too late for. -/
def refresh (now : Cell) : Option PossibleKey → Option (Option PossibleKey)
  | some k =>
    if k.isStale now then if k.isRequired then none else some none
    else some (some k)
  | none => some none

/-- Forgets all possible keys that it is too late for. -/
def refreshKeys (c : Cutting) (now : Cell) : Option Cutting := do
  let possible ← refresh now c.possible
  let outer ← c.outer.mapM (refresh now)
  return { c with possible, outer }

/-! ## One token -/

def documentMark (c : Cutting) (t : Token) (rest : List Cell) : Option Cutting := do
  let c ← c.closeAllBlocks.dropKey
  return { c with rest, keyAllowed := false }.emit t

def openFlow (c : Cutting) (cell : Cell) (t : Token) (rest : List Cell) : Option Cutting := do
  let c ← c.saveKey cell
  let inside := { c with keyAllowed := true, possible := none, outer := c.possible :: c.outer }
  return { inside with rest }.emit t

/-- The closing mark of a flow collection. Where none is open the mark is a token all the same:
whether it has a meaning there is a question of the grammar. -/
def closeFlow (c : Cutting) (t : Token) (rest : List Cell) : Option Cutting := do
  let c ← c.dropKey
  let around := match c.outer with
    | [] => c
    | possible :: outer => { c with possible, outer }
  return { around with rest, keyAllowed := false }.emit t

def comma (c : Cutting) (rest : List Cell) : Option Cutting := do
  let c ← c.dropKey
  return { c with rest, keyAllowed := true }.emit .comma

def entry (c : Cutting) (cell : Cell) (rest : List Cell) : Option Cutting := do
  guard (c.inFlow || c.keyAllowed)
  let c := c.openBlock cell.column c.tokens.length .blockSequence
  let c ← c.dropKey
  return { c with rest, keyAllowed := true }.emit .entry

def explicitKey (c : Cutting) (cell : Cell) (rest : List Cell) : Option Cutting := do
  guard (c.inFlow || c.keyAllowed)
  let c := c.openBlock cell.column c.tokens.length .blockMapping
  let c ← c.dropKey
  return { c with rest, keyAllowed := !c.inFlow }.emit .key

/-- The colon in front of a value, and behind a key if there is something that may be one. -/
def value (c : Cutting) (cell : Cell) (rest : List Cell) : Option Cutting := do
  match c.possible with
  | some k =>
    -- The mapping begins where its first key does, so its token goes in front of the key's.
    let c := (c.insert k.position .key).openBlock k.cell.column k.position .blockMapping
    return { c with rest, keyAllowed := false, possible := none }.emit .value
  | none =>
    guard (c.inFlow || c.keyAllowed)
    let c := c.openBlock cell.column c.tokens.length .blockMapping
    return { c with rest, keyAllowed := !c.inFlow }.emit .value

def quotedScalar (c : Cutting) (cell : Cell) (scanned : Option (String × List Cell)) :
    Option Cutting := do
  let c ← c.saveKey cell
  let (text, rest) ← scanned
  return { c with rest, keyAllowed := false }.emit (.scalar ⟨false, text⟩)

/-- Whether a plain scalar can begin with a cell. The indicators cannot begin one, except a hyphen,
a question mark or a colon with no gap behind it. -/
def beginsPlain (c : Cutting) (cell : Cell) (rest : List Cell) : Bool :=
  if cell.char = '-' then !endsWord rest
  else if cell.char = '?' || cell.char = ':' then !c.inFlow && !endsWord rest
  else !cell.isBlank &&
    !"?:,[]\x7b\x7d#&*!|>'\"%@\x60".toList.contains cell.char

/-- A plain scalar. If a line ends behind it, a key may begin on the next one. -/
def plainScalar (c : Cutting) (cell : Cell) (rest : List Cell) : Option Cutting := do
  guard (c.beginsPlain cell rest)
  let c ← c.saveKey cell
  let scanned ← plain c.inFlow c.scalarIndent [] .none (cell :: rest)
  return { c with rest := scanned.rest, keyAllowed := scanned.lineEnded }.emit
    (.scalar ⟨true, scanned.text⟩)

/-- Skips blanks, comments and line ends, and says whether a key may begin behind them. A tab may
stand where no key can begin. -/
def skip (inFlow keyAllowed comment : Bool) : List Cell → List Cell × Bool
  | [] => ([], keyAllowed)
  | c :: rest =>
    if c.isLineEnd then skip inFlow (keyAllowed || !inFlow) false rest
    else if comment then skip inFlow keyAllowed true rest
    else if c.char = ' ' || c.char = '\t' && (inFlow || !keyAllowed) then
      skip inFlow keyAllowed false rest
    -- A byte order mark at the beginning of a line is passed over, but it takes up a column.
    else if c.char = '\ufeff' && c.column = 0 then skip inFlow keyAllowed false rest
    else if c.char = '#' then skip inFlow keyAllowed true rest
    else (c :: rest, keyAllowed)

/-- Takes the token that begins with `cell`. -/
def token (c : Cutting) (cell : Cell) (rest : List Cell) : Option Cutting :=
  if isDocumentMark '-' (cell :: rest) then c.documentMark .documentStart (rest.drop 2)
  else if isDocumentMark '.' (cell :: rest) then c.documentMark .documentEnd (rest.drop 2)
  else
    match cell.char with
    | '[' => c.openFlow cell .openSequence rest
    | '{' => c.openFlow cell .openMapping rest
    | ']' => c.closeFlow .closeSequence rest
    | '}' => c.closeFlow .closeMapping rest
    | ',' => c.comma rest
    | '"' => c.quotedScalar cell (doubleQuoted .text [] .none rest)
    | '\'' => c.quotedScalar cell (singleQuoted [] .none rest)
    | '-' => if endsWord rest then c.entry cell rest else c.plainScalar cell rest
    | '?' =>
      if c.inFlow || endsWord rest then c.explicitKey cell rest else c.plainScalar cell rest
    | ':' => if c.inFlow || endsWord rest then c.value cell rest else c.plainScalar cell rest
    | _ => c.plainScalar cell rest

/-- Cuts what is left into tokens. Every token takes a cell at least; a step that took none would
end the cutting. -/
def finish (c : Cutting) : Option (List Token) :=
  let (rest, keyAllowed) := skip c.inFlow c.keyAllowed false c.rest
  match rest with
  | [] => do
    let c ← { c with rest, keyAllowed }.closeAllBlocks.dropKey
    return c.tokens
  | cell :: behind => do
    let current ← { c with rest, keyAllowed }.refreshKeys cell
    let next ← (current.closeBlocks cell.column).token cell behind
    if next.rest.length < c.rest.length then next.finish else none
termination_by c.rest.length

end Cutting

def tokens? (s : String) : Option (List Token) := do
  let cells ← cells? s
  Cutting.finish ⟨[], cells, [], true, none, []⟩

end Playlists.Yaml
