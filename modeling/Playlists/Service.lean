import Playlists.Operation.Add
import Playlists.Operation.Remove
import Playlists.Session

/-!
# `Service.lean` — requests on playlists

A request names a playlist and what is to be done to it. `handle` answers it on the store: it looks
at the name of the playlist before anything else and then does the work in a session, where the
operation itself begins a transaction and commits it. What was staged without a commit is gone.

`run` answers requests one after another, each with the settings that hold when it comes.
-/

set_option autoImplicit false

namespace Playlists

/-- What can be asked of the service. -/
inductive Request where
  | addItems (playlist : String) (items : List NewItem) (explicit : Option UInt64)
      (rebalance : Bool)
  | appendItem (playlist : String) (parent : Option String) (kind : Kind) (item : String)
  | setOrder (playlist : String) (items : List String)
  | removeItem (playlist item : String)
  | listItems (playlist : String)
  | playbackOrder (playlist : String)
  | clearPlaylist (playlist : String)
  deriving DecidableEq

inductive Response where
  | paths (paths : List Path)
  | path (path : Path)
  | done
  | count (n : Nat)
  | nodes (nodes : List Node)
  deriving DecidableEq

namespace Request

def playlist : Request → String
  | addItems playlist .. | appendItem playlist .. | setOrder playlist .. | removeItem playlist ..
  | listItems playlist | playbackOrder playlist | clearPlaylist playlist => playlist

/-- The work that a request asks for. -/
def work {σ : Type} [Staging σ] (backend : Backend) (config : Config) (playlist : Label) :
    Request → Work σ Response
  | addItems _ items explicit rebalance =>
    return .paths (← Operation.addItems backend config playlist items explicit rebalance)
  | appendItem _ parent kind item =>
    return .path (← Operation.appendItem backend config playlist parent kind item)
  | setOrder _ items => do
    Operation.setOrder backend config playlist items
    return .done
  | removeItem _ item => return .count (← Operation.removeItem backend config playlist item)
  | listItems _ => return .nodes (← Operation.listItems playlist)
  | playbackOrder _ => return .nodes (← Operation.playbackOrder playlist)
  | clearPlaylist _ => return .count (← Operation.clearPlaylist config playlist)

end Request

namespace Service

/-- Answers a request. What is in the store afterwards is what its work has committed. -/
def handle (backend : Backend) (config : Config) (r : Request) (s : Store) :
    Except Failure Response × Store :=
  match Label.read r.playlist with
  | .error failure => (.error failure, s)
  | .ok playlist =>
    match r.work backend config playlist (Session.fresh s) with
    | .ok response t => (.ok response, t.committed)
    | .error failure t => (.error failure, t.committed)

/-- Answers requests one after another, each under its own settings. -/
def run (backend : Backend) : List (Config × Request) → Store →
    List (Except Failure Response) × Store
  | [], s => ([], s)
  | (config, r) :: rest, s =>
    let (response, s) := handle backend config r s
    let (responses, s) := run backend rest s
    (response :: responses, s)

end Service

end Playlists
