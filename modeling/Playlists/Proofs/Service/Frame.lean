import Playlists.Proofs.Session.Frame
import Playlists.Service

/-!
# `Proofs/Service/Frame.lean` — what an operation does is done to one playlist, and committed

Every operation of the service begins a transaction, makes its calls on the playlist that it is asked
about, and commits. Put together that is the work on the rows of this playlist as a single call with
a commit behind it (`committing`), provided that each call gives the name of the playlist and that
nothing touches rows after the commit. `Operation.addItems_transacts` and its likes say so, one
operation after another.

So a request is answered by its work on the rows of its playlist. If that succeeds, its rows are in
the store, and otherwise the store is what it was (`Service.handle_eq_keep`).
-/

set_option autoImplicit false

namespace Playlists

open Staging (within begin commit within_rows commit_rows)

open Session

/-- Work on the rows of a playlist in a session, the outcome of which is committed. -/
def Session.committing {α : Type} (playlist : String) (work : Edit α) : Work Session α := do
  let a ← within playlist work
  commit
  return a

namespace Session

variable {α β : Type} {playlist : String}

theorem committing_pure (a : α) :
    committing playlist (pure a) = (do
      commit
      return a) := by
  rw [committing, within_pure, pure_bind]

theorem committing_throw (failure : Failure) :
    committing playlist (throw failure : Edit α) = throw failure := by
  rw [committing, within_throw]
  rfl

theorem committing_bind (x : Edit α) (next : α → Edit β) :
    committing playlist (x >>= next)
      = within playlist x >>= fun a => committing playlist (next a) := by
  simp only [committing, within_bind, bind_assoc]

/-- A step within the playlist comes before what is committed. -/
theorem bind_eq_committing {x : Work Session α} {y : Edit α} {next : α → Work Session β}
    {next' : α → Edit β} (hx : x = within playlist y)
    (hnext : ∀ a, next a = committing playlist (next' a)) :
    x >>= next = committing playlist (y >>= next') := by
  rw [committing_bind, hx, funext hnext]

theorem committing_ite {c : Prop} [Decidable c] (x y : Edit α) :
    committing playlist (if c then x else y)
      = if c then committing playlist x else committing playlist y :=
  apply_ite _ c x y

/-- Begun on a fresh session, work does to one playlist what it does to the rows alone, and commits
it. -/
def Transacts (playlist : String) (x : Work Session α) (y : Edit α) : Prop :=
  ∀ s, x (fresh s) = committing playlist y (fresh s)

namespace Transacts

variable {x : Work Session α} {y : Edit α}

theorem throw (failure : Failure) : Transacts playlist (throw failure) (throw failure : Edit α) :=
  fun s => congrFun (committing_throw failure).symm (fresh s)

/-- On a fresh session there is nothing to begin with that `begin` would drop. -/
theorem begin (h : x = committing playlist y) :
    Transacts playlist (begin >>= fun _ => x) (begin >>= fun _ => y) := by
  intro s
  rw [h]
  rfl

theorem ite {c : Prop} [Decidable c] {x' : Work Session α} {y' : Edit α}
    (h : Transacts playlist x y) (h' : Transacts playlist x' y') :
    Transacts playlist (if c then x else x') (if c then y else y') := by
  split
  · exact h
  · exact h'

/-- What is looked at before a transaction begins needs no rows. -/
theorem discard_attempt (c : Except Failure β) (h : Transacts playlist x y) :
    Transacts playlist (discard (attempt c) >>= fun _ => x) (discard (attempt c) >>= fun _ => y) := by
  cases c with
  | ok b => exact h
  | error failure => exact throw failure

theorem map {f : α → β} (h : Transacts playlist x y) :
    Transacts playlist (do return f (← x)) (do return f (← y)) := by
  intro s
  have hrun : (do return f (← x) : Work Session β) (fresh s)
      = (do return f (← committing playlist y) : Work Session β) (fresh s) := by
    show EStateM.bind _ _ _ = EStateM.bind _ _ _
    rw [EStateM.bind, EStateM.bind, h s]
  rw [hrun]
  simp only [committing, within_bind, within_pure, bind_assoc, pure_bind]

end Transacts

end Session

namespace Operation

variable (backend : Backend) (config : Config) (playlist : Label)

theorem lock_eq_within :
    lock config playlist = (within playlist.text (lock config playlist) : Work Session Unit) := by
  simp only [lock, within_ite, within_pure, within_rows]

theorem fetchTree_eq_within :
    fetchTree playlist = (within playlist.text (fetchTree playlist) : Work Session Tree) := by
  simp only [fetchTree, within_bind, within_attempt, within_rows]

theorem load_eq_within :
    load config playlist = (within playlist.text (load config playlist) : Work Session Tree) := by
  simp only [load, within_bind, ← lock_eq_within, ← fetchTree_eq_within]

theorem listItems_transacts :
    Transacts playlist.text (listItems playlist) (listItems playlist) := by
  refine .begin ?_
  simp only [committing_bind, within_attempt, within_rows, commit_rows, pure_bind, committing_pure]

theorem playbackOrder_transacts :
    Transacts playlist.text (playbackOrder playlist) (playbackOrder playlist) := by
  refine .begin ?_
  simp only [committing_bind, ← fetchTree_eq_within, commit_rows, pure_bind, committing_pure]

theorem clearPlaylist_transacts :
    Transacts playlist.text (clearPlaylist config playlist) (clearPlaylist config playlist) := by
  refine .begin ?_
  simp only [committing_bind, ← lock_eq_within, within_rows, commit_rows, pure_bind,
    committing_pure]

theorem addItems_transacts (items : List NewItem) (explicit : Option UInt64) (rebalance : Bool) :
    Transacts playlist.text (addItems backend config playlist items explicit rebalance)
      (addItems backend config playlist items explicit rebalance) := by
  refine .ite (.throw _) (.begin ?_)
  refine bind_eq_committing (load_eq_within config playlist) fun before => ?_
  refine bind_eq_committing (within_attempt _).symm fun _ => ?_
  cases Tree.add playlist.text items explicit before with
  | error failure t => exact (committing_throw failure).symm
  | ok created grown =>
    simp only [committing_bind, committing_ite, within_discard, ← WriteBack.updateAll_eq_within,
      ← WriteBack.insertAll_eq_within, commit_rows, pure_bind, committing_pure]

theorem checkPlace_eq_within :
    checkPlace config playlist
      = (within playlist.text (checkPlace config playlist) : Work Session Unit) := by
  unfold checkPlace
  cases config.maxPlaylistItems with
  | none => simp only [within_pure]
  | some limit => simp only [within_bind, within_ite, within_pure, within_throw, within_rows]

theorem appendItem_transacts (parent : Option String) (kind : Kind) (item : String) :
    Transacts playlist.text (appendItem backend config playlist parent kind item)
      (appendItem backend config playlist parent kind item) := by
  refine .begin ?_
  simp only [committing_bind, committing_ite, ← lock_eq_within, ← checkPlace_eq_within,
    ← fetchTree_eq_within, ← Edit.append_eq_within, within_attempt, within_throw, within_rows,
    commit_rows, pure_bind, committing_pure]

theorem setOrder_transacts (items : List String) :
    Transacts playlist.text (setOrder backend config playlist items)
      (setOrder backend config playlist items) := by
  refine .begin (bind_eq_committing (load_eq_within config playlist) fun tree => ?_)
  refine bind_eq_committing (within_attempt _).symm fun ordered => ?_
  cases Tree.reorder playlist.text ordered tree with
  | error failure t => exact (committing_throw failure).symm
  | ok moves reordered =>
    simp only [committing_bind, committing_ite, within_discard, ← WriteBack.updateAll_eq_within,
      commit_rows, committing_pure]
    -- The commit is the last thing to do, so nothing is handed on behind it.
    simp only [bind_pure_unit]

theorem renumber_eq_within :
    renumber backend playlist
      = (within playlist.text (renumber backend playlist) : Work Session Unit) := by
  simp only [renumber, within_bind, within_ite, within_pure, within_discard, ← fetchTree_eq_within,
    ← WriteBack.updateAll_eq_within]

theorem removeItem_transacts (item : String) :
    Transacts playlist.text (removeItem backend config playlist item)
      (removeItem backend config playlist item) := by
  refine .discard_attempt _ (.begin ?_)
  simp only [committing_bind, committing_ite, ← lock_eq_within, ← Edit.removeSubtree_eq_within,
    ← renumber_eq_within, within_throw, commit_rows, pure_bind, committing_pure]

end Operation

/-- Whatever is asked for, it is done to the playlist that the request names. -/
theorem Request.work_transacts (backend : Backend) (config : Config) (playlist : Label)
    (r : Request) :
    Transacts playlist.text (r.work backend config playlist) (r.work backend config playlist) := by
  cases r with
  | addItems _ items explicit rebalance =>
    exact (Operation.addItems_transacts backend config playlist items explicit rebalance).map
  | appendItem _ parent kind item =>
    exact (Operation.appendItem_transacts backend config playlist parent kind item).map
  | setOrder _ items => exact (Operation.setOrder_transacts backend config playlist items).map
  | removeItem _ item => exact (Operation.removeItem_transacts backend config playlist item).map
  | listItems _ => exact (Operation.listItems_transacts playlist).map
  | playbackOrder _ => exact (Operation.playbackOrder_transacts playlist).map
  | clearPlaylist _ => exact (Operation.clearPlaylist_transacts config playlist).map

/-- How work on the rows of a playlist ends as an answer, with the store after it. -/
def Store.keep {α : Type} (s : Store) (playlist : String) :
    EStateM.Result Failure Rows α → Except Failure α × Store
  | .ok a rows => (.ok a, s.withRows playlist rows)
  | .error failure _ => (.error failure, s)

theorem Session.Transacts.run_fresh {α : Type} {playlist : String} {x : Work Session α}
    {y : Edit α} (h : Transacts playlist x y) (s : Store) :
    (∃ a rows, y (s.rows playlist) = .ok a rows ∧
        x (fresh s) = .ok a (fresh (s.withRows playlist rows))) ∨
      ∃ failure rows, y (s.rows playlist) = .error failure rows ∧
        x (fresh s) = .error failure ((fresh s).stage playlist rows) := by
  rw [h s, committing]
  cases hy : y (s.rows playlist) with
  | ok a rows => exact .inl ⟨a, rows, rfl, Run.bind_of_ok (within_of_ok hy)⟩
  | error failure rows =>
    exact .inr ⟨failure, rows, rfl, Run.bind_of_error (within_of_error hy)⟩

/-- A request under a name that is a label is answered by its work on the rows of this name. -/
theorem Service.handle_eq_keep (backend : Backend) (config : Config) {r : Request}
    {playlist : Label} (h : Label.read r.playlist = .ok playlist) (s : Store) :
    handle backend config r s
      = s.keep playlist.text (r.work backend config playlist (s.rows playlist.text)) := by
  rw [handle, h]
  dsimp only
  rcases (r.work_transacts backend config playlist).run_fresh s with
    ⟨response, rows, hwork, hrun⟩ | ⟨failure, rows, hwork, hrun⟩
  · rw [hwork, hrun]
    rfl
  · rw [hwork, hrun]
    rfl

end Playlists
