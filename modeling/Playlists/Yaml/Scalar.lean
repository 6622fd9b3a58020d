import Playlists.Text.Numeral
import Playlists.Yaml.Basic

/-!
# `Yaml/Scalar.lean` — plain and quoted scalars

A scalar is made of words with gaps between them. A gap within a line is kept as it is; a gap that
runs over a line end is folded, into a blank if one line ends in it and into the further line ends
otherwise. A gap is only known to belong to a scalar when another word follows, so it is collected
apart from the text.

A plain scalar ends where something else begins; a quoted one at its quotation mark. Both may run
over several lines.
-/

set_option autoImplicit false

namespace Playlists.Yaml

/-! ## Gaps -/

/-- What stands between two words. Blanks and further line ends are collected in reverse. -/
inductive Gap where
  | none
  | blanks (blanks : List Char)
  /-- A gap over line ends. The first of them may be escaped, and is not there then. -/
  | lines (first : Option Char) (more : List Char)

namespace Gap

def endsLine : Gap → Bool
  | lines .. => true
  | _ => false

def isEmpty : Gap → Bool
  | none => true
  | _ => false

def addBlank (c : Char) : Gap → Gap
  | none => blanks [c]
  | blanks cs => blanks (c :: cs)
  | lines first more => lines first more

def addLineEnd (c : Char) : Gap → Gap
  | lines first more => lines first (c :: more)
  | _ => lines (some c) []

/-- What the gap stands for in the text, in reverse. -/
def folded : Gap → List Char
  | none => []
  | blanks cs => cs
  | lines (some '\n') [] => [' ']
  | lines (some '\n') more => more
  | lines (some c) more => more ++ [c]
  | lines .none more => more

end Gap

/-! ## Plain scalars -/

/-- A scalar that was read, with the cells behind it and whether a line has ended behind its last
word. -/
structure Scanned where
  text : String
  rest : List Cell
  lineEnded : Bool

def nextIsOneOf (chars : List Char) : List Cell → Bool
  | [] => false
  | c :: _ => chars.contains c.char

/-- Whether a cell behind a gap no longer belongs to a plain scalar: it begins a comment or marks a
document, or it stands further to the left than the scalar may. -/
def endsBehindGap (flow : Bool) (indent : Nat) (cells : List Cell) (c : Cell) : Bool :=
  c.char = '#' || isDocumentMark '-' cells || isDocumentMark '.' cells ||
    (!flow && c.column < indent)

/-- Whether a cell ends the word of a plain scalar: a colon in front of a gap does, and so do the
marks of a flow collection inside one. -/
def endsPlain (flow : Bool) (c : Cell) (rest : List Cell) : Bool :=
  c.char = ':' && endsWord rest || flow && [',', '[', ']', '{', '}'].contains c.char

/-- Reads a plain scalar that may not stand further to the left than `indent`. The text so far is
collected in reverse. -/
def plain (flow : Bool) (indent : Nat) (text : List Char) (gap : Gap) : List Cell → Option Scanned
  | [] => some ⟨String.ofList text.reverse, [], gap.endsLine⟩
  | c :: rest =>
    if c.isBlank then
      if gap.endsLine && c.char = '\t' && c.column < indent then none
      else plain flow indent text (gap.addBlank c.char) rest
    else if c.isLineEnd then plain flow indent text (gap.addLineEnd c.char) rest
    else if !gap.isEmpty && endsBehindGap flow indent (c :: rest) c then
      some ⟨String.ofList text.reverse, c :: rest, gap.endsLine⟩
    else if flow && c.char = ':' && nextIsOneOf [',', '?', '[', ']', '{', '}'] rest then none
    else if endsPlain flow c rest then
      some ⟨String.ofList text.reverse, c :: rest, gap.endsLine⟩
    else plain flow indent (c.char :: (gap.folded ++ text)) .none rest

/-! ## Quoted scalars -/

/-- The character that a letter after a backslash stands for. -/
def shortEscape? : Char → Option Char
  | '0' => some '\x00'
  | 'a' => some '\x07'
  | 'b' => some '\x08'
  | 't' | '\t' => some '\t'
  | 'n' => some '\n'
  | 'v' => some '\x0b'
  | 'f' => some '\x0c'
  | 'r' => some '\r'
  | 'e' => some '\x1b'
  | ' ' => some ' '
  | '"' => some '"'
  | '/' => some '/'
  | '\\' => some '\\'
  | 'N' => some '\u0085'
  | '_' => some '\u00a0'
  | 'L' => some '\u2028'
  | 'P' => some '\u2029'
  | _ => none

/-- How many hexadecimal digits follow a letter after a backslash. -/
def escapeDigits? : Char → Option Nat
  | 'x' => some 2
  | 'u' => some 4
  | 'U' => some 8
  | _ => none

def characterAt? (n : Nat) : Option Char :=
  if n.isValidChar then some (Char.ofNat n) else none

/-- Where the reading of a text between double quotation marks stands. -/
inductive Quoting where
  | text
  | backslash
  /-- In the hexadecimal digits of an escape, with the value so far. -/
  | digits (left value : Nat)

/-- Reads a scalar in double quotation marks, behind the first of them. The text so far is collected
in reverse. -/
def doubleQuoted (quoting : Quoting) (text : List Char) (gap : Gap) :
    List Cell → Option (String × List Cell)
  | [] => none
  | c :: rest =>
    match quoting with
    | .digits left value => do
      let value := value * 16 + (← Text.hexValue? c.char)
      if left = 1 then
        let character ← characterAt? value
        doubleQuoted .text (character :: text) .none rest
      else doubleQuoted (.digits (left - 1) value) text .none rest
    | .backslash =>
      if c.isLineEnd then doubleQuoted .text text (.lines none []) rest
      else
        match escapeDigits? c.char with
        | some count => doubleQuoted (.digits count 0) text .none rest
        | none => do
          let character ← shortEscape? c.char
          doubleQuoted .text (character :: text) .none rest
    | .text =>
      if c.isBlank then doubleQuoted .text text (gap.addBlank c.char) rest
      else if c.isLineEnd then doubleQuoted .text text (gap.addLineEnd c.char) rest
      else if isDocumentMark '-' (c :: rest) || isDocumentMark '.' (c :: rest) then none
      else if c.char = '"' then some (String.ofList (gap.folded ++ text).reverse, rest)
      else if c.char = '\\' then doubleQuoted .backslash (gap.folded ++ text) .none rest
      else doubleQuoted .text (c.char :: (gap.folded ++ text)) .none rest

/-- Reads a scalar in single quotation marks, behind the first of them. A quotation mark inside it
is written twice. -/
def singleQuoted (text : List Char) (gap : Gap) : List Cell → Option (String × List Cell)
  | [] => none
  | [c] => if c.char = '\'' then some (String.ofList (gap.folded ++ text).reverse, []) else none
  | c :: d :: rest =>
    if c.isBlank then singleQuoted text (gap.addBlank c.char) (d :: rest)
    else if c.isLineEnd then singleQuoted text (gap.addLineEnd c.char) (d :: rest)
    else if isDocumentMark '-' (c :: d :: rest) || isDocumentMark '.' (c :: d :: rest) then none
    else if c.char = '\'' then
      if d.char = '\'' then singleQuoted ('\'' :: (gap.folded ++ text)) .none rest
      else some (String.ofList (gap.folded ++ text).reverse, d :: rest)
    else singleQuoted (c.char :: (gap.folded ++ text)) .none (d :: rest)

end Playlists.Yaml
