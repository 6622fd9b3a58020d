import Playlists.Backend

/-!
# `Edit/Basic.lean` — working on the rows of one playlist

Inside a transaction the rows of a playlist are worked on in a staged copy. An `Edit` is such a
piece of work: it reads and changes the staged rows and may fail on the way, and what it has staged
by then stays staged. Whether staged rows ever become the rows of the store is not decided here.

All reading and writing of rows is made up of the operations of this module. They take the name of
the playlist where a refusal has to mention it, and the medium where media differ.
-/

set_option autoImplicit false

namespace Playlists

/-- The rows of a playlist, in the order of their texts. -/
abbrev Rows := Texts

/-- Work on staged rows. -/
abbrev Edit (α : Type) := EStateM Failure Rows α

/-- Does in an edit what needs no state. -/
def attempt {σ α : Type} (outcome : Except Failure α) : EStateM Failure σ α := fun s =>
  match outcome with
  | .ok a => .ok a s
  | .error failure => .error failure s

namespace Edit

/-! ## Reading -/

/-- Takes the lock of the playlist. A transaction holds the whole store to itself anyway. -/
def lock : Edit Unit :=
  return ()

def rows : Edit (List String) :=
  return (← get).toList

def rowsUnder (dialect : Dialect) (lead : String) : Edit (List String) :=
  return (← get).toList.filter (dialect.isUnder lead)

/-- The last position among the rows under `parent`. -/
def lastPosition (dialect : Dialect) (parent : String) : Edit (Option Nat) := do
  let fetched := (← get).toList.filter (dialect.searches (Path.childPrefix parent))
  -- What was fetched may still hold rows of others, in memory it holds all of them.
  attempt (Playlists.lastPosition fetched parent)

/-- Going through all rows finds what asking for the rows under the label would, whether or not the
other rows can be read. -/
theorem lastPosition_memory (parent : String) :
    lastPosition .memory parent = (do
      attempt (Playlists.lastPosition (← rowsUnder .memory (Path.childPrefix parent)) parent)) := by
  funext rows
  show attempt (Playlists.lastPosition (rows.toList.filter fun _ => true) parent) rows
    = attempt (Playlists.lastPosition
        (rows.toList.filter (Text.hasPrefix (Path.childPrefix parent))) parent) rows
  rw [lastPosition_filter fun _ _ _ => rfl, lastPosition_filter fun _ _ hunder => hunder]

/-- Whether some row points at an item of a given kind. -/
def pointsAt (dialect : Dialect) (kind : Kind) (item : String) : Edit Bool :=
  return (← get).toList.any (dialect.pointsAt kind item)

/-! ## Writing -/

/-- Changes one row. A row that is to go has to be there, a row that is to come must not. -/
def change (dialect : Dialect) (playlist : String) : RowChange → Edit Unit
  | .add path => do
    if (← get).contains path.text then throw (dialect.repeated path.text playlist)
    modify fun rows => rows.put path.text
  | .remove path => do
    unless (← get).contains path.text do throw (.missingPath path.text playlist)
    modify fun rows => rows.erase path.text

/-- Writes a batch of rows, one after another, up to the first that cannot be changed or up to where
the medium breaks off. -/
def write (backend : Backend) (playlist : String) (batch : Write) : Edit Unit :=
  match backend.faults batch with
  | none => batch.changes.forM (change backend.dialect playlist)
  | some interruption => do
    -- What was written before the medium broke off stays staged.
    interruption.made.forM (change backend.dialect playlist)
    throw interruption.failure

def insert (backend : Backend) (playlist : String) (paths : List Path) : Edit Unit :=
  write backend playlist (.insert paths)

/-- Moves rows from old to new paths, all at once: the old ones go before a new one comes. -/
def rekey (backend : Backend) (playlist : String) (moves : List Move) : Edit Unit :=
  write backend playlist (.rekey moves)

/-! ## Removing -/

/-- Removes the rows that pass a test and reports them. -/
def removeWhere (dialect : Dialect) (doomed : String → Bool) : Edit (List String) := do
  let gone := (← get).filter doomed
  modify fun rows => rows.filter fun row => !doomed row
  return dialect.report gone.toList

def removeItem (dialect : Dialect) (item : String) : Edit (List String) :=
  removeWhere dialect (dialect.isOfItem item)

def removeUnder (dialect : Dialect) (lead : String) : Edit (List String) :=
  removeWhere dialect (dialect.isUnder lead)

def clear : Edit Nat := do
  let count := (← get).size
  set (KeyedList.empty : Rows)
  return count

end Edit

end Playlists
