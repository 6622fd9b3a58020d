import Playlists.Tree.References

/-!
# `Tree/Growth.lean` — adding entries to a tree

Items are added one after another, each behind the last child of the playlist it goes to, so the
items of one batch that go to the same playlist stand in their order. A playlist that is nested by
an earlier item of the batch may already receive the later ones. A single item may be given a
position instead; an entry of the same path makes room for it then.

Items are refused for a playlist that is not nested in this one, and for nestings that would close
a cycle. Whether an item exists anywhere is nobody's concern here.
-/

set_option autoImplicit false

namespace Playlists.Tree

/-- The position that the next child of `parent` takes. -/
def nextPosition (t : Tree) (parent : String) : Except Failure Nat :=
  positionAfter (t.maxChildPosition parent) parent

/-- The path that an item takes when it is added to the tree of `playlist`. -/
def pathFor (t : Tree) (playlist : String) (explicit : Option UInt64) (item : NewItem) :
    Except Failure Path := do
  let parent := item.parent.getD playlist
  unless parent = playlist ∨ t.nests parent do
    throw (.unknownParent parent playlist)
  t.checkAcyclic playlist parent item.kind item.id
  let position ← match explicit with
    | some position => pure position.toNat
    | none => t.nextPosition parent
  Path.create parent item.kind item.id position

def addOne (playlist : String) (explicit : Option UInt64) (item : NewItem) :
    EStateM Failure Tree Path := do
  match (← get).pathFor playlist explicit item with
  | .ok path =>
    modify fun t => t.put (Entry.ofPath path)
    return path
  | .error failure => throw failure

/-- Adds items to the tree of `playlist` and returns their paths in order. A position is taken into
account for a single item only. The items before one that is refused stay in the tree. -/
def add (playlist : String) (items : List NewItem) (explicit : Option UInt64) :
    EStateM Failure Tree (List Path) :=
  items.mapM (addOne playlist (if items.length = 1 then explicit else none))

end Playlists.Tree
