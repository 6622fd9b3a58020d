import Playlists.Json.Basic

/-!
# `Json/Reader.lean` — JSON values from text

Reading goes in three passes, each of them one sweep over a list: the characters are cut into
tokens, the tokens are fed one by one to a machine with a stack of unfinished arrays and objects,
and the machine's last state is the value or no value at all. No pass looks back, so none of them
needs a bound on its depth.

A key that an object holds twice counts once, with the later value.
-/

set_option autoImplicit false

namespace Playlists.Json

/-! ## Texts -/

/-- A piece of a quoted text: a character, or a code unit that was written by number. -/
inductive Piece where
  | char (c : Char)
  | codeUnit (n : Nat)

/-- The character that a letter after a backslash stands for. -/
def shortEscape? : Char → Option Char
  | '"' => some '"'
  | '\\' => some '\\'
  | '/' => some '/'
  | 'b' => some '\x08'
  | 'f' => some '\x0c'
  | 'n' => some '\n'
  | 'r' => some '\r'
  | 't' => some '\t'
  | _ => none

/-- The pieces between the quotation marks of a text. -/
def pieces? : List Char → Option (List Piece)
  | [] => some []
  | '\\' :: 'u' :: a :: b :: c :: d :: rest => do
    let a ← Text.hexValue? a
    let b ← Text.hexValue? b
    let c ← Text.hexValue? c
    let d ← Text.hexValue? d
    let rest ← pieces? rest
    return .codeUnit (((a * 16 + b) * 16 + c) * 16 + d) :: rest
  | '\\' :: letter :: rest => do
    let c ← shortEscape? letter
    let rest ← pieces? rest
    return .char c :: rest
  | c :: rest => do
    guard (c ≠ '\\' ∧ 0x20 ≤ c.toNat)
    let rest ← pieces? rest
    return .char c :: rest

/-- Joins the code units that were written by number: two halves of a pair make one character, and
a half on its own makes none. -/
def characters? : List Piece → Option (List Char)
  | [] => some []
  | .char c :: rest => (characters? rest).map (c :: ·)
  | .codeUnit high :: .codeUnit low :: rest => do
    -- The first half of a pair needs the second one at its side.
    if 0xD800 ≤ high ∧ high < 0xDC00 then
      guard (0xDC00 ≤ low ∧ low < 0xE000)
      let rest ← characters? rest
      return Char.ofNat (0x10000 + (high - 0xD800) * 0x400 + (low - 0xDC00)) :: rest
    else
      guard (high < 0xD800 ∨ 0xE000 ≤ high)
      let rest ← characters? (.codeUnit low :: rest)
      return Char.ofNat high :: rest
  | .codeUnit n :: rest => do
    guard (n < 0xD800 ∨ 0xE000 ≤ n)
    let rest ← characters? rest
    return Char.ofNat n :: rest

/-- The text whose form between quotation marks is given. -/
def text? (raw : List Char) : Option String := do
  let pieces ← pieces? raw
  let letters ← characters? pieces
  return String.ofList letters

/-! ## Numbers -/

/-- What follows the digits at the front of a list. There has to be one digit at least. -/
def afterDigits? (letters : List Char) : Option (List Char) :=
  match letters with
  | d :: rest => if d.isDigit then some (rest.dropWhile Char.isDigit) else none
  | [] => none

def isExponent : List Char → Bool
  | [] => true
  | e :: rest =>
    (e == 'e' || e == 'E') &&
      match rest with
      | '+' :: digits | '-' :: digits => afterDigits? digits == some []
      | digits => afterDigits? digits == some []

/-- Whether a list is what may follow the whole part of a number. -/
def isFraction : List Char → Bool
  | '.' :: rest =>
    match afterDigits? rest with
    | some rest => isExponent rest
    | none => false
  | rest => isExponent rest

/-- Whether a list is a number literal. The whole part has no leading zero. -/
def isNumber (letters : List Char) : Bool :=
  let unsigned := match letters with
    | '-' :: rest => rest
    | rest => rest
  match unsigned with
  | '0' :: rest => isFraction rest
  | rest =>
    match afterDigits? rest with
    | some rest => isFraction rest
    | none => false

/-! ## Tokens -/

/-- The parts a document is cut into. -/
inductive Token where
  | openArray
  | closeArray
  | openObject
  | closeObject
  | comma
  | colon
  | text (s : String)
  /-- A number, or one of the three words. -/
  | scalar (value : Json)

/-- Where the sweep over the characters stands. Letters are collected in reverse. -/
inductive Lexing where
  | between
  | word (letters : List Char)
  | text (letters : List Char)
  /-- Just after the backslash of a text. -/
  | backslash (letters : List Char)

def wordToken? (letters : List Char) : Option Token :=
  if letters = "null".toList then some (.scalar .null)
  else if letters = "true".toList then some (.scalar (.bool true))
  else if letters = "false".toList then some (.scalar (.bool false))
  else if isNumber letters then some (.scalar (.number (String.ofList letters)))
  else none

/-- What a character does between two tokens: it may be a token by itself, and it may begin one. -/
def begins? (c : Char) : Option (List Token × Lexing) :=
  match c with
  | ' ' | '\t' | '\n' | '\r' => some ([], .between)
  | '[' => some ([.openArray], .between)
  | ']' => some ([.closeArray], .between)
  | '{' => some ([.openObject], .between)
  | '}' => some ([.closeObject], .between)
  | ',' => some ([.comma], .between)
  | ':' => some ([.colon], .between)
  | '"' => some ([], .text [])
  | c => if c.isAlphanum || c == '-' then some ([], .word [c]) else none

def isWordCharacter (c : Char) : Bool :=
  c.isAlphanum || c == '-' || c == '+' || c == '.'

def tokens? : Lexing → List Char → Option (List Token)
  | .between, [] => some []
  | .word letters, [] => (wordToken? letters.reverse).map ([·])
  | .text _, [] | .backslash _, [] => none
  | .between, c :: rest => do
    let (tokens, lexing) ← begins? c
    let rest ← tokens? lexing rest
    return tokens ++ rest
  | .word letters, c :: rest =>
    if isWordCharacter c then tokens? (.word (c :: letters)) rest
    else do
      let token ← wordToken? letters.reverse
      let (tokens, lexing) ← begins? c
      let rest ← tokens? lexing rest
      return token :: tokens ++ rest
  | .text letters, c :: rest =>
    if c = '\\' then tokens? (.backslash (c :: letters)) rest
    else if c = '"' then do
      let s ← text? letters.reverse
      let rest ← tokens? .between rest
      return .text s :: rest
    else tokens? (.text (c :: letters)) rest
  | .backslash letters, c :: rest => tokens? (.text (c :: letters)) rest

/-! ## Values -/

/-- An array or an object that is not finished, with what it holds so far in reverse. The value of
an object's last key is still missing. -/
inductive Frame where
  | array (items : List Json)
  | object (members : List (String × Json)) (key : String)

/-- Where the sweep over the tokens stands, with the unfinished arrays and objects around it. -/
inductive Reading where
  /-- A value has to follow. -/
  | value (outer : List Frame)
  /-- A first item or the end of the array has to follow. -/
  | firstItem (outer : List Frame)
  /-- A first key or the end of the object has to follow. -/
  | firstKey (outer : List Frame)
  | key (members : List (String × Json)) (outer : List Frame)
  | colon (members : List (String × Json)) (key : String) (outer : List Frame)
  /-- A value has ended. -/
  | complete (value : Json) (outer : List Frame)

/-- Adds a member to an object; the later of two values of one key stays. -/
def addMember (key : String) (value : Json) (members : List (String × Json)) :
    List (String × Json) :=
  (key, value) :: members.filter (·.1 != key)

def beginValue? (outer : List Frame) : Token → Option Reading
  | .scalar value => some (.complete value outer)
  | .text s => some (.complete (.string s) outer)
  | .openArray => some (.firstItem outer)
  | .openObject => some (.firstKey outer)
  | _ => none

def read? : Reading → Token → Option Reading
  | .value outer, token => beginValue? outer token
  | .firstItem outer, .closeArray => some (.complete (.array []) outer)
  | .firstItem outer, token => beginValue? (.array [] :: outer) token
  | .firstKey outer, .closeObject => some (.complete (.object []) outer)
  | .firstKey outer, .text key => some (.colon [] key outer)
  | .key members outer, .text key => some (.colon members key outer)
  | .colon members key outer, .colon => some (.value (.object members key :: outer))
  | .complete value (.array items :: outer), .comma =>
    some (.value (.array (value :: items) :: outer))
  | .complete value (.array items :: outer), .closeArray =>
    some (.complete (.array (value :: items).reverse) outer)
  | .complete value (.object members key :: outer), .comma =>
    some (.key (addMember key value members) outer)
  | .complete value (.object members key :: outer), .closeObject =>
    some (.complete (.object (addMember key value members).reverse) outer)
  | _, _ => none

def parse? (s : String) : Option Json := do
  let tokens ← tokens? .between s.toList
  match ← tokens.foldlM read? (.value []) with
  | .complete value [] => some value
  | _ => none

end Playlists.Json
