/-!
# `Yaml/Basic.lean` — values of a settings document, and its characters

Settings are kept in a small YAML document: block and flow collections, plain and quoted scalars,
comments and the marks around a document. Anchors, tags, block scalars and directives have no use
there and are not read.

`Yaml` is the type of the values. A scalar keeps its text and whether it was written plainly, since
only a plain scalar can be anything else than a text.

The second half of the module prepares the text for reading. Where a character stands decides much
in YAML, so each one is put into a `Cell` with its line and column before anything is read. Line
ends are brought to one form on the way.
-/

set_option autoImplicit false

namespace Playlists

/-- A scalar as it was written. -/
structure Scalar where
  isPlain : Bool
  text : String
  deriving DecidableEq, Inhabited

inductive Yaml where
  | scalar (s : Scalar)
  | sequence (items : List Yaml)
  | mapping (pairs : List (Yaml × Yaml))
  deriving Inhabited

namespace Yaml

/-- What stands where nothing was written. -/
def nothing : Yaml :=
  .scalar ⟨true, ""⟩

/-! ## Characters with their places -/

/-- A character of a document and where it stands. Columns count characters, the index counts the
bytes of their UTF-8 forms. -/
structure Cell where
  char : Char
  line : Nat
  column : Nat
  index : Nat

/-- Whether a document may hold a character: the tab, the line ends, and whatever is not a control
character or a noncharacter of the basic plane. -/
def isAllowed (c : Char) : Bool :=
  c = '\t' || c = '\n' || c = '\r' || c = '\u0085' ||
    (0x20 ≤ c.toNat && c.toNat ≤ 0x7E) || (0xA0 ≤ c.toNat && c.toNat ≤ 0xFFFD) ||
    0x10000 ≤ c.toNat

def isLineEnd (c : Char) : Bool :=
  c = '\n' || c = '\r' || c = '\u0085' || c = '\u2028' || c = '\u2029'

/-- The line end that is read for a line end: a line feed, or one of the two separators. -/
def lineEnd (c : Char) : Char :=
  if c = '\u2028' || c = '\u2029' then c else '\n'

/-- The cells of a text that begins at the given place. A carriage return and a line feed are one
line end. -/
def cellsFrom (line column index : Nat) : List Char → List Cell
  | [] => []
  | '\r' :: '\n' :: rest => ⟨'\n', line, column, index⟩ :: cellsFrom (line + 1) 0 (index + 2) rest
  | c :: rest =>
    if isLineEnd c then
      ⟨lineEnd c, line, column, index⟩ :: cellsFrom (line + 1) 0 (index + c.utf8Size) rest
    else ⟨c, line, column, index⟩ :: cellsFrom line (column + 1) (index + c.utf8Size) rest

/-- The cells of a document, if it holds no character that must not be there. -/
def cells? (s : String) : Option (List Cell) :=
  if s.toList.all isAllowed then some (cellsFrom 0 0 0 s.toList) else none

namespace Cell

def isBlank (c : Cell) : Bool :=
  c.char = ' ' || c.char = '\t'

def isLineEnd (c : Cell) : Bool :=
  Yaml.isLineEnd c.char

end Cell

/-- Whether a word is over: a blank, a line end or nothing follows. -/
def endsWord : List Cell → Bool
  | [] => true
  | c :: _ => c.isBlank || c.isLineEnd

/-- Whether the cells begin with three marks at the beginning of a line, as a document does. -/
def isDocumentMark (mark : Char) : List Cell → Bool
  | a :: b :: c :: rest =>
    a.column = 0 && a.char = mark && b.char = mark && c.char = mark && endsWord rest
  | _ => false

end Yaml

end Playlists
