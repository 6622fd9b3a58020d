import Playlists.Work

/-!
# `Edit/Append.lean` — adding one row behind its siblings

To append an entry it is enough to look at the rows of its siblings. The rest of the playlist is
neither read nor has it to be readable.
-/

set_option autoImplicit false

namespace Playlists.Edit

open Staging (within)

variable {σ : Type} [Staging σ]

/-- Adds an entry behind the last child of `parent`. -/
def append (backend : Backend) (playlist parent : String) (kind : Kind) (item : String) :
    Work σ Path := do
  let last ← within playlist (lastPosition backend.dialect parent)
  let position ← attempt (positionAfter last parent)
  let path ← attempt (Path.create parent kind item position)
  within playlist (insert backend playlist [path])
  return path

end Playlists.Edit
