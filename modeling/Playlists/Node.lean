import Playlists.Path

/-!
# `Node.lean` — entries and requested items

A node is what is known of one entry of a playlist: its item, the playlist that holds it, what it
points at and its position. A node that was read from a path agrees with it; a node from elsewhere
may not, and its names need not even be labels. `Node.agrees` tells the two apart.
-/

set_option autoImplicit false

namespace Playlists

/-- One entry of a playlist. -/
structure Node where
  id : String
  parentId : String
  kind : Kind
  position : Nat
  deriving DecidableEq, Repr

namespace Node

def ofPath (p : Path) : Node :=
  ⟨p.item.text, p.root.text, p.kind, p.position⟩

/-- Whether a node says of its entry what the path says. -/
def agrees (n : Node) (p : Path) : Bool :=
  n == ofPath p

@[simp] theorem agrees_ofPath (p : Path) : (ofPath p).agrees p = true := by
  simp [Node.agrees]

theorem agrees_iff {n : Node} {p : Path} : n.agrees p = true ↔ n = ofPath p := by
  simp [Node.agrees]

end Node

/-- An item that somebody asks to add: what it points at, its name, and the nested playlist it is
to be added to, or none for the playlist itself. -/
structure NewItem where
  kind : Kind
  id : String
  parent : Option String
  deriving DecidableEq, Repr

end Playlists
