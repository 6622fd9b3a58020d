import Playlists.Text.Numeral

/-!
# `Json/Basic.lean` — values of a JSON document

Requests, answers and configuration records travel as JSON. `Json` is the type of their values, and
this module holds what is asked of a value: a member of an object, a text, a whole number.

A number keeps its literal. What a record accepts depends on the spelling: `1` is a position and
`1.0`, `1e0` and `-0` are not, though all of them are the same or nearly the same number.
-/

set_option autoImplicit false

namespace Playlists

/-- A JSON value. The keys of an object are pairwise different. -/
inductive Json where
  | null
  | bool (value : Bool)
  | number (literal : String)
  | string (text : String)
  | array (items : List Json)
  | object (members : List (String × Json))
  deriving Inhabited

namespace Json

def ofNat (n : Nat) : Json :=
  .number (String.ofList (Text.numeral n))

def ofOption {α : Type} (f : α → Json) : Option α → Json
  | some a => f a
  | none => .null

def member? (key : String) : Json → Option Json
  | .object members => (members.find? (·.1 == key)).map (·.2)
  | _ => none

def string? : Json → Option String
  | .string s => some s
  | _ => none

def bool? : Json → Option Bool
  | .bool b => some b
  | _ => none

def array? : Json → Option (List Json)
  | .array items => some items
  | _ => none

/-- The machine word that a number literal spells. Only digits count: a sign, a fraction or an
exponent makes another kind of number of the same value. -/
def word? : Json → Option Nat
  | .number literal =>
    if Text.isNumeral literal.toList && Text.numeralValue literal.toList < UInt64.size then
      some (Text.numeralValue literal.toList)
    else none
  | _ => none

end Json

end Playlists
