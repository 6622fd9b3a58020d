import Playlists.Edit.Append
import Playlists.Edit.Removal
import Playlists.Service

/-!
# `Conformance/Scenario.lean` — scripts that a store has to get through

A scenario works on a store through requests and transactions and states what has to come out of
them. It ends at the first thing that does not come out so. A transaction that is open at that
moment is dropped; what was committed before stays in the store.
-/

set_option autoImplicit false

namespace Playlists.Conformance

/-- Why a scenario ends early. -/
inductive Violation where
  /-- Something that had to succeed was refused. -/
  | refused (failure : Failure)
  /-- Something came out otherwise than it had to. -/
  | unmet

/-- A script on the committed rows of a store. -/
abbrev Scenario (α : Type) := EStateM Violation Store α

namespace Scenario

open Staging (within)

def expect (holds : Bool) : Scenario Unit :=
  unless holds do throw .unmet

def succeed {α : Type} : Except Failure α → Scenario α
  | .ok a => return a
  | .error failure => throw (.refused failure)

/-- Makes a request and hands on the outcome. -/
def tryRequest (backend : Backend) (config : Config) (r : Request) :
    Scenario (Except Failure Response) := do
  let (outcome, s) := Service.handle backend config r (← get)
  set s
  return outcome

/-- Makes a request that has to succeed, under the given settings. -/
def requestUnder (config : Config) (backend : Backend) (r : Request) : Scenario Response := do
  succeed (← tryRequest backend config r)

def request (backend : Backend) (r : Request) : Scenario Response :=
  requestUnder {} backend r

/-- Makes a request that has to be refused, in the given category. -/
def refuse (backend : Backend) (category : Category) (r : Request) : Scenario Unit := do
  match ← tryRequest backend {} r with
  | .ok _ => throw .unmet
  | .error failure => expect (failure.category == category)

/-- Does work in one transaction. It has to succeed and its outcome to be accepted; otherwise the
transaction is dropped. -/
def commit {α : Type} (work : Work Session α) (accepts : α → Bool) : Scenario Unit := do
  match work (.fresh (← get)) with
  | .ok a t =>
    expect (accepts a)
    set t.kept.committed
  | .error failure _ => throw (.refused failure)

/-- Does work in a transaction that is dropped in the end, and demands something of how it came
out. -/
def rollBack {α : Type} (work : Work Session α)
    (accepts : EStateM.Result Failure Session α → Bool) : Scenario Unit := do
  expect (accepts (work (.fresh (← get))))

def rows (playlist : String) : Scenario (List String) :=
  return ((← get).rows playlist).toList

/-- Adds rows to a playlist. All of them have to be paths. -/
def seed (backend : Backend) (playlist : String) (raw : List String) : Scenario Unit := do
  let paths ← succeed (raw.mapM Path.decode)
  commit (within playlist (Edit.insert backend playlist paths)) fun _ => true

end Scenario

end Playlists.Conformance
