import Playlists.Edit.WriteBack
import Playlists.Operation.Read

/-!
# `Operation/Reorder.lean` — bringing entries to the front

A new order names items, not entries, and need not name all of them. Each mention of an item claims
the first of its entries that is not claimed yet, in the order the playlist is played. The claimed
entries come first, in the order they are mentioned, and the others follow as they were. Only the
direct entries of the playlist take part.
-/

set_option autoImplicit false

namespace Playlists.Operation

open Staging (begin commit)

variable {σ : Type} [Staging σ]

/-- Splits off the first path of an item, if there is one. -/
def claim? (item : String) : List Path → Option (Path × List Path)
  | [] => none
  | p :: rest =>
    if p.item.text = item then some (p, rest)
    else (claim? item rest).map fun (claimed, others) => (claimed, p :: others)

/-- The paths that the mentioned items claim, followed by the paths nobody claims. -/
def arrange (playlist : String) (claimed : List Path) (unclaimed : List Path) :
    List String → Except Failure (List Path)
  | [] => .ok (claimed ++ unclaimed)
  | item :: rest =>
    match claim? item unclaimed with
    | some (p, others) => arrange playlist (claimed ++ [p]) others rest
    | none =>
      if claimed.any (·.item.text == item) then .error (.listedTooOften item playlist)
      else .error (.notPartOf item playlist)

def moved (tree : Tree) (moves : Moves) : Tree :=
  tree.filter fun e => moves.contains e.key

/-- Brings the mentioned items to the front of a playlist. -/
def setOrder (backend : Backend) (config : Config) (playlist : Label) (items : List String) :
    Work σ Unit := do
  begin
  let tree ← load config playlist
  -- Claims go by the order of what is heard, not by the order of the rows.
  let current := (tree.siblings playlist.text).map Entry.path
  let ordered ← attempt (arrange playlist.text [] current items)
  match (Tree.reorder playlist.text ordered) tree with
  | .error failure _ => throw failure
  | .ok moves reordered =>
    -- An order that the playlist is in already writes nothing.
    unless moves.isEmpty do
      discard ((WriteBack.forTree playlist.text reordered).updateAll backend
        (moved reordered moves) moves)
    commit

end Playlists.Operation
