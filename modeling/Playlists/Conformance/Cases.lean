import Playlists.Conformance.Scenario

/-!
# `Conformance/Cases.lean` — what every medium must get right

Each case works on a playlist of its own, which has no rows when it begins. `runAll` goes through
all of them, on playlists whose names are made from a common beginning, so that it can be run again
and again on a store that holds other things.
-/

set_option autoImplicit false

namespace Playlists.Conformance

open Scenario
open Staging (within)

/-- A track to be added to the playlist itself. -/
def track (id : String) : NewItem :=
  ⟨.track, id, none⟩

/-- A playlist to be nested in the playlist itself. -/
def nested (id : String) : NewItem :=
  ⟨.playlist, id, none⟩

/-- The same item for a nested playlist. -/
def under (parent : String) (item : NewItem) : NewItem :=
  { item with parent := some parent }

def ids : Response → List String
  | .nodes nodes => nodes.map Node.id
  | _ => []

def positions : Response → List Nat
  | .nodes nodes => nodes.map Node.position
  | _ => []

section

variable (backend : Backend) (playlist : String)

def addThenRebalance : Scenario Unit := do
  discard (request backend (.addItems playlist [track "T1", track "T2"] none false))
  discard (request backend (.addItems playlist [track "T3"] none true))
  expect ((← rows playlist) ==
    [playlist ++ ".track.T1.1", playlist ++ ".track.T2.2", playlist ++ ".track.T3.3"])

def deleteKeepsNeighbours : Scenario Unit := do
  seed backend playlist
    [playlist ++ ".track.A.1", playlist ++ ".track.B.2", playlist ++ ".track.C.3"]
  let config : Config := { rebalanceOnRemove := false }
  let removed ← requestUnder config backend (.removeItem playlist "B")
  expect (removed == .count 1)
  let listed ← requestUnder config backend (.listItems playlist)
  expect (ids listed == ["A", "C"])

/-- A nested playlist goes with everything inside it, also where stored rows make it contain
itself. -/
def nestedRemoval : Scenario Unit := do
  discard (request backend (.addItems playlist [track "A", nested "Q", track "C"] none false))
  discard (request backend
    (.addItems playlist [under "Q" (track "X"), under "Q" (nested "R")] none false))
  discard (request backend (.addItems playlist [under "R" (track "Y")] none false))
  refuse backend .invalidOperation (.addItems playlist [under "R" (nested "Q")] none false)
  seed backend playlist ["R.playlist.Q.2"]
  let removed ← request backend (.removeItem playlist "Q")
  expect (removed == .count 5)
  expect ((← rows playlist) == [playlist ++ ".track.A.1", playlist ++ ".track.C.2"])

/-- Entries are listed in the order of their rows and played in the order of their positions. -/
def listingUsesRowOrder : Scenario Unit := do
  discard (request backend (.addItems playlist (List.replicate 10 (track "t")) none false))
  let listed ← request backend (.listItems playlist)
  expect (positions listed == [1, 10, 2, 3, 4, 5, 6, 7, 8, 9])
  let played ← request backend (.playbackOrder playlist)
  expect (positions played == [1, 2, 3, 4, 5, 6, 7, 8, 9, 10])

/-- Mentioned items come to the front; an item that is not there is refused. -/
def setOrder : Scenario Unit := do
  discard (request backend (.addItems playlist [track "A", track "B", track "C"] none false))
  discard (request backend (.setOrder playlist ["C", "A"]))
  let played ← request backend (.playbackOrder playlist)
  expect (ids played == ["C", "A", "B"])
  refuse backend .unknownItem (.setOrder playlist ["missing"])

/-- A transaction whose second write is refused leaves nothing of its first one. -/
def failedTransactionRollsBack : Scenario Unit := do
  let existing := playlist ++ ".track.A.1"
  seed backend playlist [existing]
  let first ← succeed (Path.decode (playlist ++ ".track.B.2"))
  let second ← succeed (Path.decode existing)
  rollBack
    (do
      within playlist (Edit.insert backend playlist [first])
      -- The refusal of the second write is looked at and does not end the work.
      fun staged => .ok (within playlist (Edit.insert backend playlist [second]) staged) staged)
    fun
      | .ok (.error failure _) _ => failure.category == .storage
      | _ => false
  expect ((← rows playlist) == [existing])

def updateSwapsPositions : Scenario Unit := do
  seed backend playlist [playlist ++ ".track.A.1", playlist ++ ".track.B.2"]
  let a1 ← succeed (Path.decode (playlist ++ ".track.A.1"))
  let a2 ← succeed (Path.decode (playlist ++ ".track.A.2"))
  let b2 ← succeed (Path.decode (playlist ++ ".track.B.2"))
  let b1 ← succeed (Path.decode (playlist ++ ".track.B.1"))
  commit (within playlist (Edit.rekey backend playlist [⟨a1, a2⟩, ⟨b2, b1⟩])) fun _ => true
  expect ((← rows playlist) == [playlist ++ ".track.A.2", playlist ++ ".track.B.1"])

/-- Looks for the last positions and for what nests `Q`, and appends a track to `Q`. -/
def lookAndAppend {σ : Type} [Staging σ] :
    Work σ (Option Nat × Option Nat × Option Nat × Bool × Bool × String) := do
  let own ← within playlist (Edit.lastPosition backend.dialect playlist)
  let inQ ← within playlist (Edit.lastPosition backend.dialect "Q")
  let inR ← within playlist (Edit.lastPosition backend.dialect "R")
  let isPlaylist ← within playlist (Edit.pointsAt backend.dialect .playlist "Q")
  let isTrack ← within playlist (Edit.pointsAt backend.dialect .track "Q")
  let path ← Edit.append backend playlist "Q" .track "Y"
  return (own, inQ, inR, isPlaylist, isTrack, path.text)

/-- The largest position of each playlist is found, and an append goes behind it. -/
def appendAndContains : Scenario Unit := do
  seed backend playlist
    [playlist ++ ".track.A.9", playlist ++ ".playlist.Q.10", "Q.track.X.2"]
  commit (lookAndAppend backend playlist)
    fun found => found == (some 10, some 2, none, true, false, "Q.track.Y.3")
  match ← request backend (.appendItem playlist none .track "B") with
  | .path path => expect (path.text == playlist ++ ".track.B.11")
  | _ => throw .unmet

/-- Looks under `Q_` and removes it. -/
def lookAndRemove {σ : Type} [Staging σ] : Work σ (List String × Nat) := do
  let inside ← within playlist (Edit.rowsUnder backend.dialect "Q_.")
  let removed ← Edit.removeSubtree backend.dialect playlist "Q_"
  return (inside, removed)

/-- An underscore in a label stands for itself alone. -/
def underscoreIsNoWildcard : Scenario Unit := do
  seed backend playlist
    [playlist ++ ".playlist.Q_.1", playlist ++ ".playlist.QA.2", "Q_.track.X.1", "QA.track.Y.1"]
  commit (lookAndRemove backend playlist) fun found => found == (["Q_.track.X.1"], 2)
  let left : Rows := .ofList [playlist ++ ".playlist.QA.2", "QA.track.Y.1"]
  expect ((← rows playlist) == left.toList)

def playlistsAreIsolated : Scenario Unit := do
  let other := playlist ++ "-other"
  discard (request backend (.addItems playlist [track "A"] none false))
  discard (request backend (.addItems other [track "A"] none false))
  let cleared ← request backend (.clearPlaylist playlist)
  expect (cleared == .count 1)
  expect ((← request backend (.listItems playlist)) == .nodes [])
  let listed ← request backend (.listItems other)
  expect ((ids listed).length == 1)

/-- A nested playlist that points back at the playlist goes without taking the playlist along. -/
def rootCycleKeepsSiblings : Scenario Unit := do
  seed backend playlist
    [playlist ++ ".track.A.1", playlist ++ ".playlist.Q.2", playlist ++ ".track.C.3",
      "Q.playlist." ++ playlist ++ ".1"]
  let removed ← request backend (.removeItem playlist "Q")
  expect (removed == .count 2)
  expect ((← rows playlist) == [playlist ++ ".track.A.1", playlist ++ ".track.C.2"])

def sharedPlaylistSurvives : Scenario Unit := do
  seed backend playlist
    [playlist ++ ".playlist.Q.1", "Q.track.X.1", "Q.playlist.R.2", "R.track.Y.1",
      "R.playlist.Q.2"]
  commit (Edit.removeSubtree backend.dialect playlist "R") fun removed => removed == 3
  let left : Rows := .ofList [playlist ++ ".playlist.Q.1", "Q.track.X.1"]
  expect ((← rows playlist) == left.toList)

/-- Nothing is added behind the largest position there is. -/
def overflowingAppendIsRefused : Scenario Unit := do
  let last := playlist ++ ".track.A." ++ String.ofList (Text.numeral (UInt64.size - 1))
  seed backend playlist [last]
  refuse backend .invalidOperation (.appendItem playlist none .track "B")
  refuse backend .invalidOperation (.addItems playlist [track "B"] none false)
  expect ((← rows playlist) == [last])

end

inductive Case where
  | addThenRebalance
  | deleteKeepsNeighbours
  | nestedRemoval
  | listingUsesRowOrder
  | setOrder
  | failedTransactionRollsBack
  | updateSwapsPositions
  | appendAndContains
  | underscoreIsNoWildcard
  | playlistsAreIsolated
  | rootCycleKeepsSiblings
  | sharedPlaylistSurvives
  | overflowingAppendIsRefused
  deriving DecidableEq, Repr

namespace Case

def all : List Case :=
  [addThenRebalance, deleteKeepsNeighbours, nestedRemoval, listingUsesRowOrder, setOrder,
    failedTransactionRollsBack, updateSwapsPositions, appendAndContains, underscoreIsNoWildcard,
    playlistsAreIsolated, rootCycleKeepsSiblings, sharedPlaylistSurvives,
    overflowingAppendIsRefused]

/-- What the playlist of a case is called after the common beginning. -/
def suffix : Case → String
  | addThenRebalance => "add"
  | deleteKeepsNeighbours => "delete"
  | nestedRemoval => "nested"
  | listingUsesRowOrder => "order"
  | setOrder => "reorder"
  | failedTransactionRollsBack => "rollback"
  | updateSwapsPositions => "swap"
  | appendAndContains => "append"
  | underscoreIsNoWildcard => "wild"
  | playlistsAreIsolated => "iso"
  | rootCycleKeepsSiblings => "rootcycle"
  | sharedPlaylistSurvives => "shared"
  | overflowingAppendIsRefused => "overflow"

def scenario (backend : Backend) (playlist : String) : Case → Scenario Unit
  | addThenRebalance => Conformance.addThenRebalance backend playlist
  | deleteKeepsNeighbours => Conformance.deleteKeepsNeighbours backend playlist
  | nestedRemoval => Conformance.nestedRemoval backend playlist
  | listingUsesRowOrder => Conformance.listingUsesRowOrder backend playlist
  | setOrder => Conformance.setOrder backend playlist
  | failedTransactionRollsBack => Conformance.failedTransactionRollsBack backend playlist
  | updateSwapsPositions => Conformance.updateSwapsPositions backend playlist
  | appendAndContains => Conformance.appendAndContains backend playlist
  | underscoreIsNoWildcard => Conformance.underscoreIsNoWildcard backend playlist
  | playlistsAreIsolated => Conformance.playlistsAreIsolated backend playlist
  | rootCycleKeepsSiblings => Conformance.rootCycleKeepsSiblings backend playlist
  | sharedPlaylistSurvives => Conformance.sharedPlaylistSurvives backend playlist
  | overflowingAppendIsRefused => Conformance.overflowingAppendIsRefused backend playlist

end Case

/-- Runs all cases, each on the playlist named for it. -/
def runAll (backend : Backend) (space : String) : Scenario Unit :=
  Case.all.forM fun c => c.scenario backend (space ++ "-" ++ c.suffix)

end Playlists.Conformance
