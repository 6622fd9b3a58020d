import Playlists.Edit.Append
import Playlists.Edit.Removal
import Playlists.Edit.WriteBack
import Playlists.Session

/-!
# `Transaction.lean` — the actions a transaction is made of

Whoever works on a store directly does so in transactions: a sequence of actions, each on the rows
of one playlist, at the end of which all that was staged is kept or all of it is dropped. An action
that fails does not end the transaction; what it staged before it failed is staged.
-/

set_option autoImplicit false

namespace Playlists

/-- One action on the rows of a playlist. -/
inductive Action where
  | lock
  | rows
  | rowsUnder (lead : String)
  | insert (paths : List Path)
  | rekey (moves : List Move)
  | removeItem (item : String)
  | removeUnder (lead : String)
  | lastPosition (parent : String)
  | pointsAt (kind : Kind) (item : String)
  | clear
  | removeSubtree (item : String)
  | append (parent : String) (kind : Kind) (item : String)
  /-- Inserts the entries of a tree, for a playlist whose full tree is given. -/
  | insertTree (full tree : Tree)
  /-- Re-keys the entries of a tree, for a playlist whose full tree is given. -/
  | updateTree (full tree : Tree) (moves : Moves)

inductive Answer where
  | done
  | rows (rows : List String)
  | count (n : Nat)
  | position (position : Option Nat)
  | flag (b : Bool)
  | path (path : Path)
  deriving DecidableEq

namespace Action

open Staging (within)

/-- The work that an action does on a playlist. -/
def work {σ : Type} [Staging σ] (backend : Backend) (playlist : String) : Action → Work σ Answer
  | lock => do
    within playlist Edit.lock
    return .done
  | rows => return .rows (← within playlist Edit.rows)
  | rowsUnder lead => return .rows (← within playlist (Edit.rowsUnder backend.dialect lead))
  | insert paths => do
    within playlist (Edit.insert backend playlist paths)
    return .done
  | rekey moves => do
    within playlist (Edit.rekey backend playlist moves)
    return .done
  | removeItem item => return .rows (← within playlist (Edit.removeItem backend.dialect item))
  | removeUnder lead => return .rows (← within playlist (Edit.removeUnder backend.dialect lead))
  | lastPosition parent =>
    return .position (← within playlist (Edit.lastPosition backend.dialect parent))
  | pointsAt kind item => return .flag (← within playlist (Edit.pointsAt backend.dialect kind item))
  | clear => return .count (← within playlist Edit.clear)
  -- The others are made up of calls like these and pass the name on to each of them.
  | removeSubtree item => return .count (← Edit.removeSubtree backend.dialect playlist item)
  | append parent kind item => return .path (← Edit.append backend playlist parent kind item)
  | insertTree full tree =>
    return .count (← (WriteBack.forTree playlist full).insertAll backend tree)
  | updateTree full tree moves =>
    return .count (← (WriteBack.forTree playlist full).updateAll backend tree moves)

end Action

/-- The outcome of an action with the session after it. -/
structure Step where
  outcome : Except Failure Answer
  session : Session

def Step.staged (step : Step) : Store :=
  step.session.staged

namespace Session

/-- Does one action. What it staged before it failed is staged. -/
def step (backend : Backend) (playlist : String) (action : Action) (t : Session) : Step :=
  match action.work backend playlist t with
  | .ok answer t => ⟨.ok answer, t⟩
  | .error failure t => ⟨.error failure, t⟩

/-- Does actions one after another, each on a medium that is given with it. A medium may choose
every time anew in which order it reports removed rows. -/
def stepsOn : List (Backend × String × Action) → Session → List Step
  | [], _ => []
  | (backend, playlist, action) :: rest, t =>
    let done := t.step backend playlist action
    done :: stepsOn rest done.session

def afterSteps (t : Session) (steps : List Step) : Session :=
  (steps.getLast?.map Step.session).getD t

end Session

namespace Store

/-- A transaction whose actions come with their media: its steps, and the store after it. -/
def transactionOn (actions : List (Backend × String × Action)) (commit : Bool) (s : Store) :
    List Step × Store :=
  let steps := (Session.fresh s).stepsOn actions
  let last := (Session.fresh s).afterSteps steps
  (steps, (if commit then last.kept else last).committed)

def transaction (backend : Backend) (actions : List (String × Action)) (commit : Bool) (s : Store) :
    List Step × Store :=
  s.transactionOn (actions.map fun action => (backend, action)) commit

end Store

end Playlists
