import Playlists.Config
import Playlists.Json.Basic
import Playlists.Node

/-!
# `Json/Record.lean` — records of the service as JSON

Kinds, nodes, requested items and settings can be read from JSON and written to it. A record is
written as an object with its fields in a fixed order, an absent optional field as null. It is read
from such an object, whatever the order of its members and whatever else it holds, or from an array
of the values alone, in the same fixed order.

Nothing is converted while reading: a text that spells a number is a text, and a number with a
fraction is no position. Names are not checked here, so a node or an item may be read whose names
are not labels; whoever stores it finds that out.
-/

set_option autoImplicit false

namespace Playlists

/-- The values of the named fields of a record, each of them if it is there. An array that is longer
than the record is no record. -/
def Json.fields? (names : List String) : Json → Option (List (Option Json))
  | .object members => some (names.map fun name => (Json.object members).member? name)
  | .array items =>
    if items.length ≤ names.length then
      some (items.map some ++ List.replicate (names.length - items.length) none)
    else none
  | _ => none

def Json.nullable? {α : Type} (read : Json → Option α) : Json → Option (Option α)
  | .null => some none
  | value => (read value).map some

/-- Reads a field that takes `default` when it is absent. -/
def Json.field? {α : Type} (read : Json → Option α) (default : α) : Option Json → Option α
  | some value => read value
  | none => some default

namespace Kind

/-- A kind is its name, or an object that holds nothing but null under the name. -/
def ofJson? : Json → Option Kind
  | .string s => ofName? s
  | .object [(name, .null)] => ofName? name
  | _ => none

def toJson (k : Kind) : Json :=
  .string k.name

theorem ofJson?_toJson (k : Kind) : ofJson? k.toJson = some k := by
  simp [ofJson?, toJson]

end Kind

namespace Node

def ofJson? (value : Json) : Option Node := do
  match ← value.fields? ["id", "parent_id", "kind", "position"] with
  | [some id, some parent, some kind, some position] =>
    return ⟨← id.string?, ← parent.string?, ← Kind.ofJson? kind, ← position.word?⟩
  | _ => none

def toJson (n : Node) : Json :=
  .object [("id", .string n.id), ("parent_id", .string n.parentId), ("kind", n.kind.toJson),
    ("position", .ofNat n.position)]

end Node

namespace NewItem

def ofJson? (value : Json) : Option NewItem := do
  match ← value.fields? ["kind", "id", "parent"] with
  | [some kind, some id, parent] =>
    let parent ← Json.field? (Json.nullable? Json.string?) none parent
    return ⟨← Kind.ofJson? kind, ← id.string?, parent⟩
  | _ => none

def toJson (item : NewItem) : Json :=
  .object [("kind", item.kind.toJson), ("id", .string item.id),
    ("parent", .ofOption .string item.parent)]

end NewItem

namespace Config

/-- Every setting that is absent has its default. -/
def ofJson? (value : Json) : Option Config := do
  match ← value.fields? ["rebalance_on_remove", "lock_playlists", "max_playlist_items"] with
  | [rebalance, lock, limit] =>
    let limit ← Json.field? (Json.nullable? Json.word?) none limit
    return ⟨← Json.field? Json.bool? true rebalance, ← Json.field? Json.bool? true lock,
      limit.map UInt64.ofNat⟩
  | _ => none

def toJson (c : Config) : Json :=
  .object [("rebalance_on_remove", .bool c.rebalanceOnRemove),
    ("lock_playlists", .bool c.lockPlaylists),
    ("max_playlist_items", .ofOption (fun limit => .ofNat limit.toNat) c.maxPlaylistItems)]

end Config

end Playlists
