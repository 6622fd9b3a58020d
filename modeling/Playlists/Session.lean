import Playlists.Store
import Playlists.Work

/-!
# `Session.lean` — the store under a running transaction

A session is the store as it is kept and the store as it is staged. Rows are read and written in the
staged store; `begin` takes a fresh copy of the kept one, and `commit` keeps what is staged. A
session that is given up leaves the kept store.
-/

set_option autoImplicit false

namespace Playlists

structure Session where
  committed : Store
  staged : Store
  deriving DecidableEq

namespace Session

/-- The session of a transaction in which nothing was done yet. -/
def fresh (s : Store) : Session :=
  ⟨s, s⟩

/-- The session with other staged rows for one playlist. -/
def stage (t : Session) (playlist : String) (rows : Rows) : Session :=
  { t with staged := t.staged.withRows playlist rows }

def kept (t : Session) : Session :=
  fresh t.staged

/-- Does an edit on the staged rows of a playlist. -/
def edit {α : Type} (playlist : String) (work : Edit α) : Work Session α := fun t =>
  match work (t.staged.rows playlist) with
  | .ok a rows => .ok a (t.stage playlist rows)
  -- What was staged before the failure stays, for a transaction that goes on.
  | .error failure rows => .error failure (t.stage playlist rows)

theorem work_of_edit_eq_ok {α : Type} {playlist : String} {work : Edit α} {s t : Session} {a : α}
    (h : edit playlist work s = .ok a t) :
    work (s.staged.rows playlist) = .ok a (t.staged.rows playlist) := by
  rw [edit] at h
  split at h
  · next b rows hwork =>
    cases h
    rw [hwork, stage, Store.rows_withRows_self]
  · cases h

end Session

instance : Staging Session where
  rows playlist t := t.staged.rows playlist
  within := Session.edit
  begin := modify fun t => .fresh t.committed
  commit := modify Session.kept
  edit_of_within := Session.work_of_edit_eq_ok

end Playlists
