import Playlists.Work

/-!
# `Edit/WriteBack.lean` — writing a tree back to the rows

A tree that was changed in memory is written back in two steps: entries that moved are re-keyed, and
entries that are new are inserted. Each step takes a tree of only those entries and refuses it
before a row is touched if it is empty, if a node disagrees with its path, or if an entry stands
under a label that the playlist does not know. Which labels it knows is read off the full tree of
the playlist beforehand. A move, moreover, may change nothing but the position.
-/

set_option autoImplicit false

namespace Playlists

/-- A playlist with the labels its entries may stand under. -/
structure WriteBack where
  playlist : String
  roots : Texts

namespace WriteBack

def forTree (playlist : String) (full : Tree) : WriteBack :=
  ⟨playlist, full.knownRoots playlist⟩

def checkRoot (w : WriteBack) (e : Entry) : Except Failure Unit :=
  if w.roots.contains e.path.root.text then .ok ()
  else .error (.foreignRoot e.path.text w.playlist)

/-- Refuses a tree that must not be written. -/
def check (w : WriteBack) (t : Tree) : Except Failure Unit := do
  if t.isEmpty then throw .nothingToWrite
  t.validate
  t.forEach w.checkRoot

/-- The move that brought an entry to its path. -/
def moveTo (moves : Moves) (p : Path) : Except Failure Move :=
  let old := moves.origin p
  if old.sameEntry p then .ok ⟨old, p⟩ else .error (.changedIdentity old.text p.text)

/-- The moves that brought the entries of a tree to their paths. Entries that stayed where they were
are left out. -/
def movesTo (moves : Moves) (t : Tree) : Except Failure (List Move) := do
  let all ← t.paths.mapM (moveTo moves)
  return all.filter fun m => m.old != m.new

section

open Staging (within)

variable {σ : Type} [Staging σ]

def insertAll (w : WriteBack) (backend : Backend) (t : Tree) : Work σ Nat := do
  attempt (w.check t)
  within w.playlist (Edit.insert backend w.playlist t.paths)
  return t.size

/-- Moves the rows of the entries of a tree from where `moves` says they were, and counts those that
really move. -/
def updateAll (w : WriteBack) (backend : Backend) (t : Tree) (moves : Moves) : Work σ Nat := do
  attempt (w.check t)
  let changed ← attempt (movesTo moves t)
  -- A batch of no moves is not written at all.
  unless changed.isEmpty do
    within w.playlist (Edit.rekey backend w.playlist changed)
  return changed.length

end

end WriteBack

end Playlists
