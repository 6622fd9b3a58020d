import Playlists.Config
import Playlists.Edit.Removal
import Playlists.Operation.Reorder

/-!
# `Operation/Remove.lean` — removing an item from a playlist

All entries of the item go, and with them everything that was nested in them alone. What is left is
numbered afresh if the settings say so. The labels that may stand in the rows are read off the tree
before it is numbered; numbering changes none of them.
-/

set_option autoImplicit false

namespace Playlists.Operation

open Staging (begin commit)

variable {σ : Type} [Staging σ]

/-- Numbers the siblings of all rows afresh. -/
def renumber (backend : Backend) (playlist : Label) : Work σ Unit := do
  let tree ← fetchTree playlist
  unless tree.isEmpty do
    let (balanced, moves) := tree.rebalance
    unless moves.isEmpty do
      -- The labels are those of the tree as it was read. Numbering brings no new ones.
      discard ((WriteBack.forTree playlist.text tree).updateAll backend (moved balanced moves) moves)

/-- Removes an item with everything inside it and counts the removed rows. -/
def removeItem (backend : Backend) (config : Config) (playlist : Label) (item : String) :
    Work σ Nat := do
  discard (attempt (Label.read item))
  begin
  lock config playlist
  let removed ← Edit.removeSubtree backend.dialect playlist.text item
  -- Nothing is kept of a removal that removed nothing: the transaction is dropped.
  if removed = 0 then throw (.notPartOf item playlist.text)
  if config.rebalanceOnRemove then renumber backend playlist
  commit
  return removed

end Playlists.Operation
