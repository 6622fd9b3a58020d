import Playlists.Tree.Basic

/-!
# `Tree/Numbering.lean` — giving siblings the positions one to n

Positions may have gaps and may repeat. Two operations number siblings afresh: `rebalance` does it
for every playlist of a tree and keeps the order in which the siblings are played; `reorder` does it
for the children of one playlist and takes the order from its argument.

Both report which entries changed their path, as `Moves` from the old path to the new one. Entries
that keep their path are not among them. The moves are what the store is told later, so that only
the rows that really changed are written.
-/

set_option autoImplicit false

namespace Playlists

/-- A change of path of one entry. -/
structure Move where
  old : Path
  new : Path
  deriving DecidableEq

/-- Changes of path, listed by the new path. -/
abbrev Moves := KeyedList Move fun m => m.new.text

namespace Moves

/-- The path that the entry now under `p` had before. -/
def origin (moves : Moves) (p : Path) : Path :=
  match moves.find? p.text with
  | some m => m.old
  | none => p

/-- The path that the entry formerly under `p` has now. -/
def destination (moves : Moves) (p : Path) : Path :=
  match moves.toList.find? (·.old == p) with
  | some m => m.new
  | none => p

end Moves

namespace Tree

/-- Siblings with the entries that they become at the positions one to n. -/
def numbered (siblings : List Entry) : List (Entry × Entry) :=
  (siblings.zipIdx 1).map fun (e, position) => (e, e.withPosition position)

/-- The changes of path among renumbered entries. -/
def movesAmong (steps : List (Entry × Entry)) : Moves :=
  .ofList (steps.filterMap fun (before, after) =>
    if after.path = before.path then none else some ⟨before.path, after.path⟩)

def roots (t : Tree) : Texts :=
  .ofList (t.paths.map (·.root.text))

def group (t : Tree) (root : String) : List Entry :=
  t.toList.filter (·.path.root.text == root)

/-- A group in the order of the positions. The sort is stable, so entries at one position stay in
the order of their rows. -/
def byPosition (group : List Entry) : List Entry :=
  group.mergeSort fun a b => a.node.position ≤ b.node.position

/-- Every entry of a tree with the entry it becomes when all siblings are numbered afresh. -/
def renumbering (t : Tree) : List (Entry × Entry) :=
  t.roots.toList.flatMap fun root => numbered (byPosition (t.group root))

/-- Numbers the children of every playlist from one on, in the order in which they are played. -/
def rebalance (t : Tree) : Tree × Moves :=
  (.ofList (t.renumbering.map Prod.snd), movesAmong t.renumbering)

/-- Takes one child of `parent` out of the tree. -/
def takeChild (parent : String) (p : Path) : EStateM Failure Tree Entry := do
  unless p.isUnder parent do
    throw (.notAChild p.text parent)
  match (← get).find? p.text with
  | some e =>
    modify fun t => t.erase p.text
    return e
  | none => throw (.unknownPath p.text)

/-- Numbers the children of `parent` from one on in the order of `ordered`, which has to list each
of them once. The children are taken out one by one, so a refusal half-way leaves them out of the
tree. -/
def reorder (parent : String) (ordered : List Path) : EStateM Failure Tree Moves := do
  let expected := ((← get).childrenOf parent).length
  unless ordered.length = expected do
    throw (.orderLength parent ordered.length expected)
  let siblings ← ordered.mapM (takeChild parent)
  let steps := numbered siblings
  modify fun t => t.putAll (steps.map Prod.snd)
  return movesAmong steps

end Tree

end Playlists
