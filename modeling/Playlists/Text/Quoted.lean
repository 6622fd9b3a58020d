import Playlists.Text.Unprintable

/-!
# `Text/Quoted.lean` — foreign text inside a message

A message about a bad label shows the label and the character that spoils it. Both come from
outside, so both are written in a quoted form in which every character can be told apart: a text
stands between double quotation marks, a single character between single ones, and inside them

* the tab, the carriage return, the line feed, the backslash and the null character have a letter
  after a backslash,
* the quotation mark that closes this form is escaped and the other one is not, and
* a character of `isUnprintable` is written by its number in hexadecimal.

Everything else stands as it is, whatever its script.
-/

set_option autoImplicit false

namespace Playlists.Text

/-- The number of a character in braces: lower-case hexadecimal without leading zeros. -/
def escapedNumber (c : Char) : List Char :=
  ['\\', 'u', '{'] ++ Nat.toDigits 16 c.toNat ++ ['}']

/-- One character inside the quotation mark `mark`. -/
def quotedCharacter (mark c : Char) : List Char :=
  if c = '\x00' then ['\\', '0']
  else if c = '\t' then ['\\', 't']
  else if c = '\r' then ['\\', 'r']
  else if c = '\n' then ['\\', 'n']
  else if c = '\\' || c = mark then ['\\', c]
  else if isUnprintable c then escapedNumber c
  else [c]

/-- A text between double quotation marks. -/
def quoted (s : String) : String :=
  String.ofList ('"' :: s.toList.flatMap (quotedCharacter '"') ++ ['"'])

def quotedAlone (c : Char) : String :=
  String.ofList ('\'' :: quotedCharacter '\'' c ++ ['\''])

/-- Of the two quotation marks only the closing one is escaped. -/
example :
    quoted "a\"b'" = "\"a\\\"b'\"" ∧ quotedAlone '\'' = "'\\''" ∧ quotedAlone '"' = "'\"'" := by
  decide +kernel

/-- A combining mark is written by its number, a letter of any script as itself. -/
example : quoted "é\u0301日" = "\"é\\u\x7b301\x7d日\"" := by decide +kernel

end Playlists.Text
