import Playlists.Config
import Playlists.Edit.Append
import Playlists.Edit.WriteBack
import Playlists.Operation.Read
import Playlists.Tree.Growth

/-!
# `Operation/Add.lean` — adding entries to a playlist

Items are added in one of two ways. `addItems` loads the playlist as a tree, adds a batch of items
to it, numbers the siblings afresh if that is wanted, and writes the difference back. `appendItem`
adds one item behind its siblings and looks at no more rows than it has to; only where a playlist is
nested does it load the tree, to refuse a cycle.

Both refuse to let a playlist grow past its limit, which counts all rows, nested ones included.
-/

set_option autoImplicit false

namespace Playlists.Operation

open Staging (within begin commit)

variable {σ : Type} [Staging σ]

/-- The entries of a changed tree that have to be written, as two trees: those that are new and
those that moved. An entry is new if the path it was created with did not exist before; an entry of
an existing path was written over and needs no row. -/
def difference (before : Tree) (created : List Path) (after : Tree) (moves : Moves) : Tree × Tree :=
  let fresh := created.filter fun p => !before.contains p.text
  let isFresh := fun (e : Entry) => fresh.contains (moves.origin e.path)
  (after.filter isFresh,
    after.filter fun e => !isFresh e && moves.origin e.path != e.path)

/-- Adds items to a playlist and returns their paths, in order and as they are in the end. -/
def addItems (backend : Backend) (config : Config) (playlist : Label) (items : List NewItem)
    (explicit : Option UInt64) (rebalance : Bool) : Work σ (List Path) := do
  if items.isEmpty then throw .nothingToWrite
  begin
  let before ← load config playlist
  -- Asked before any item has a place, so an item counts even where it will write over an entry.
  attempt (config.checkRoom playlist.text before.size items.length)
  -- The tree grows in memory. No row is touched before all of the batch is accepted.
  match (Tree.add playlist.text items explicit) before with
  | .error failure _ => throw failure
  | .ok created grown =>
    let (after, moves) := if rebalance then grown.rebalance else (grown, .empty)
    let (inserted, moved) := difference before created after moves
    let writeBack := WriteBack.forTree playlist.text after
    -- Moved rows go first, since a new row may take a path that one of them has left.
    unless moved.isEmpty do
      discard (writeBack.updateAll backend moved moves)
    unless inserted.isEmpty do
      discard (writeBack.insertAll backend inserted)
    commit
    return created.map moves.destination

/-- Refuses a playlist that has no place left for one row more. The rows are looked at only where
there is a limit. -/
def checkPlace (config : Config) (playlist : Label) : Work σ Unit :=
  match config.maxPlaylistItems with
  | some limit => do
    if (← within playlist.text Edit.rows).length ≥ limit.toNat then
      throw (.tooManyItems playlist.text limit.toNat)
  | none => return ()

/-- Adds one item behind the last child of `parent`, or of the playlist itself. -/
def appendItem (backend : Backend) (config : Config) (playlist : Label) (parent : Option String)
    (kind : Kind) (item : String) : Work σ Path := do
  begin
  lock config playlist
  checkPlace config playlist
  let parent := parent.getD playlist.text
  unless parent = playlist.text do
    unless ← within playlist.text (Edit.pointsAt backend.dialect .playlist parent) do
      throw (.unknownParent parent playlist.text)
  -- Only a playlist can close a circle, so for a track the tree is never read.
  if kind = .playlist then
    let tree ← fetchTree playlist
    attempt (tree.checkAcyclic playlist.text parent kind item)
  let path ← Edit.append backend playlist.text parent kind item
  commit
  return path

end Playlists.Operation
