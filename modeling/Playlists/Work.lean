import Playlists.Edit.Basic

/-!
# `Work.lean` — work that names the playlists it touches

The operations of a service do not hold the rows of a playlist in their hands. They are work on what
a transaction has staged, which is the rows of many playlists, and every call that reads or changes
rows says whose: `within playlist` does an edit on the rows of one playlist and leaves what it staged
for them. `begin` and `commit` say from where on changes are staged and from where on they are kept.

An operation is written once, for any state that rows can be staged on. The state of a running
transaction is a `Session`. The rows of one playlist are such a state as well: seen from inside a
playlist its own rows are all there is, and whatever name a call gives, it is these rows that it
works on. What an operation does to its playlist is therefore said about rows; that it does this in
a session, to the playlist of that name and to no other, is a statement of its own for each
operation (`Proofs/Session/Frame.lean`, `Proofs/Service/Frame.lean`).
-/

set_option autoImplicit false

namespace Playlists

/-- Work on a state on which rows are staged. -/
abbrev Work (σ α : Type) := EStateM Failure σ α

/-- A state on which the rows of playlists are staged. -/
class Staging (σ : Type) where
  /-- The staged rows of a playlist. -/
  rows (playlist : String) (s : σ) : Rows
  /-- Does an edit on the staged rows of a playlist. What it stages stays, even if it fails. -/
  within {α : Type} (playlist : String) (edit : Edit α) : Work σ α
  begin : Work σ Unit
  commit : Work σ Unit
  /-- An edit that succeeds has worked on the rows of its playlist. -/
  edit_of_within {α : Type} {playlist : String} {edit : Edit α} {s t : σ} {a : α}
    (h : within playlist edit s = .ok a t) : edit (rows playlist s) = .ok a (rows playlist t)

/-- Inside a playlist there are its own rows only, and what is staged is all there is. -/
instance : Staging Rows where
  rows _ rows := rows
  within _ edit := edit
  begin := return ()
  commit := return ()
  edit_of_within h := h

namespace Staging

@[simp] theorem within_rows {α : Type} (playlist : String) (edit : Edit α) :
    (within playlist edit : Edit α) = edit :=
  rfl

@[simp] theorem begin_rows : (begin : Edit Unit) = pure () :=
  rfl

@[simp] theorem commit_rows : (commit : Edit Unit) = pure () :=
  rfl

end Staging

end Playlists
