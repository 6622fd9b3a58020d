import Playlists.Config
import Playlists.Label
import Playlists.Tree.Playback
import Playlists.Work

/-!
# `Operation/Read.lean` — looking at a playlist, and clearing it

A playlist can be listed, entry by entry in the order of its rows, or played, track by track in the
order they are heard. Both need every row to be readable. Clearing needs none to be.

Each operation is a transaction of its own. It begins one as soon as it knows that what it was given
can be meant, and the last thing that it does to rows is to commit.
-/

set_option autoImplicit false

namespace Playlists.Operation

open Staging (within begin commit)

variable {σ : Type} [Staging σ]

/-- Locks a playlist, if the settings say so. -/
def lock (config : Config) (playlist : Label) : Work σ Unit :=
  if config.lockPlaylists then within playlist.text Edit.lock else return ()

def fetchTree (playlist : Label) : Work σ Tree := do
  attempt (Tree.ofRows (← within playlist.text Edit.rows))

/-- The tree of all rows, for an operation that is going to change it. -/
def load (config : Config) (playlist : Label) : Work σ Tree := do
  lock config playlist
  fetchTree playlist

/-- The entries of a playlist in the order of its rows. -/
def listItems (playlist : Label) : Work σ (List Node) := do
  begin
  let paths ← attempt ((← within playlist.text Edit.rows).mapM Path.decode)
  commit
  return paths.map Node.ofPath

/-- The tracks of a playlist in the order they are heard. -/
def playbackOrder (playlist : Label) : Work σ (List Node) := do
  begin
  let tree ← fetchTree playlist
  commit
  return tree.playbackOrder playlist.text

def clearPlaylist (config : Config) (playlist : Label) : Work σ Nat := do
  begin
  lock config playlist
  let removed ← within playlist.text Edit.clear
  commit
  return removed

end Playlists.Operation
