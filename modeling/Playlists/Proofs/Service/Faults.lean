import Playlists.Proofs.Edit.Batch
import Playlists.Proofs.Service.Frame

/-!
# `Proofs/Service/Faults.lean` — a medium that fails only ever fails

Only writing depends on whether a medium fails, and a write that fails ends the request. So every
request that is answered on some medium is answered alike on the same medium without its failures,
and every other request leaves the store as it was (`Service.handle_cases`). How much of a write was
done before it failed makes no difference, since nothing of it is kept.
-/

set_option autoImplicit false

namespace Playlists

open Run

open Staging (commit)

variable (backend : Backend)

theorem WriteBack.insertAll_below (w : WriteBack) (t : Tree) :
    Below (w.insertAll backend t : Edit Nat) (w.insertAll ⟨backend.dialect, .never⟩ t) :=
  .bind (.refl _) fun _ => .bind (Edit.write_below backend _ _) fun _ => .refl _

theorem WriteBack.updateAll_below (w : WriteBack) (t : Tree) (moves : Moves) :
    Below (w.updateAll backend t moves : Edit Nat)
      (w.updateAll ⟨backend.dialect, .never⟩ t moves) :=
  .bind (.refl _) fun _ => .bind (.refl _) fun _ =>
    .ite (.refl _) (.bind (Edit.write_below backend _ _) fun _ => .refl _)

theorem Edit.append_below (playlist parent : String) (kind : Kind) (item : String) :
    Below (append backend playlist parent kind item : Edit Path)
      (append ⟨backend.dialect, .never⟩ playlist parent kind item) :=
  .bind (.refl _) fun _ => .bind (.refl _) fun _ => .bind (.refl _) fun _ =>
    .bind (write_below backend _ _) fun _ => .refl _

namespace Operation

variable (config : Config) (playlist : Label)

theorem addItems_below (items : List NewItem) (explicit : Option UInt64) (rebalance : Bool) :
    Below (addItems backend config playlist items explicit rebalance : Edit (List Path))
      (addItems ⟨backend.dialect, .never⟩ config playlist items explicit rebalance) := by
  refine .ite (.refl _) (.bind (.refl _) fun _ => .bind (.refl _) fun before =>
    .bind (.refl _) fun _ => ?_)
  dsimp only
  split
  · exact .refl _
  · next created grown _ =>
    -- Inserting is the last write, with or without a move before it.
    have hinsert : ∀ (w : WriteBack) (t : Tree) (rest : Edit (List Path)),
        Below (if t.isEmpty then rest
            else do discard (w.insertAll backend t); rest)
          (if t.isEmpty then rest
            else do discard (w.insertAll ⟨backend.dialect, .never⟩ t); rest) :=
      fun w t rest => .ite (.refl _)
        (.bind (.discard (w.insertAll_below backend t)) fun _ => .refl _)
    refine .ite (hinsert _ _ _) (.bind (.discard (WriteBack.updateAll_below backend _ _ _)) ?_)
    exact fun _ => hinsert _ _ _

theorem appendItem_below (parent : Option String) (kind : Kind) (item : String) :
    Below (appendItem backend config playlist parent kind item : Edit Path)
      (appendItem ⟨backend.dialect, .never⟩ config playlist parent kind item) := by
  have happend : ∀ parent : String, Below
      (do
        let path ← Edit.append backend playlist.text parent kind item
        commit
        return path : Edit Path)
      (do
        let path ← Edit.append ⟨backend.dialect, .never⟩ playlist.text parent kind item
        commit
        return path) :=
    fun parent => .bind (Edit.append_below backend _ parent kind item) fun _ => .refl _
  -- The check for cycles writes nothing, so it is the same on both sides.
  have hcheck : ∀ parent : String, Below
      (if kind = .playlist then do
          let tree ← fetchTree playlist
          attempt (tree.checkAcyclic playlist.text parent kind item)
          let path ← Edit.append backend playlist.text parent kind item
          commit
          return path
        else do
          let path ← Edit.append backend playlist.text parent kind item
          commit
          return path : Edit Path)
      (if kind = .playlist then do
          let tree ← fetchTree playlist
          attempt (tree.checkAcyclic playlist.text parent kind item)
          let path ← Edit.append ⟨backend.dialect, .never⟩ playlist.text parent kind item
          commit
          return path
        else do
          let path ← Edit.append ⟨backend.dialect, .never⟩ playlist.text parent kind item
          commit
          return path) :=
    fun parent => .ite (.bind (.refl _) fun _ => .bind (.refl _) fun _ => happend parent)
      (happend parent)
  refine .bind (.refl _) fun _ => .bind (.refl _) fun _ => .bind (.refl _) fun _ =>
    .ite (hcheck _) ?_
  refine .bind (.refl _) fun pointed => .ite (hcheck _) (.bind (.refl _) fun _ => hcheck _)

theorem setOrder_below (items : List String) :
    Below (setOrder backend config playlist items : Edit Unit)
      (setOrder ⟨backend.dialect, .never⟩ config playlist items) := by
  refine .bind (.refl _) fun _ => .bind (.refl _) fun tree => .bind (.refl _) fun ordered => ?_
  split
  · exact .refl _
  · exact .ite (.refl _) (.bind (.discard (WriteBack.updateAll_below backend _ _ _))
      fun _ => .refl _)

theorem renumber_below :
    Below (renumber backend playlist : Edit Unit)
      (renumber ⟨backend.dialect, .never⟩ playlist) :=
  .bind (.refl _) fun _ => .ite (.refl _)
    (.ite (.refl _) (.discard (WriteBack.updateAll_below backend _ _ _)))

theorem removeItem_below (item : String) :
    Below (removeItem backend config playlist item : Edit Nat)
      (removeItem ⟨backend.dialect, .never⟩ config playlist item) := by
  refine .bind (.refl _) fun _ => .bind (.refl _) fun _ => .bind (.refl _) fun _ =>
    .bind (.refl _) fun removed => .ite (.refl _) ?_
  exact .ite (.bind (renumber_below backend playlist) fun _ => .refl _) (.refl _)

end Operation

theorem Request.work_below (config : Config) (playlist : Label) (r : Request) :
    Below (r.work backend config playlist : Edit Response)
      (r.work ⟨backend.dialect, .never⟩ config playlist) := by
  cases r with
  | addItems _ items explicit rebalance =>
    exact .bind (Operation.addItems_below backend config playlist items explicit rebalance)
      fun _ => .refl _
  | appendItem _ parent kind item =>
    exact .bind (Operation.appendItem_below backend config playlist parent kind item)
      fun _ => .refl _
  | setOrder _ items =>
    exact .bind (Operation.setOrder_below backend config playlist items) fun _ => .refl _
  | removeItem _ item =>
    exact .bind (Operation.removeItem_below backend config playlist item) fun _ => .refl _
  | listItems _ => exact .refl _
  | playbackOrder _ => exact .refl _
  | clearPlaylist _ => exact .refl _

namespace Service

/-- All that a request can come to: it is refused and changes nothing, or its work is done on the
rows of its playlist, on a medium that may as well never fail. -/
theorem handle_cases (config : Config) (r : Request) (s : Store) :
    (∃ failure, handle backend config r s = (.error failure, s)) ∨
      ∃ (playlist : Label) (response : Response) (rows : Rows), r.playlist = playlist.text ∧
        r.work ⟨backend.dialect, .never⟩ config playlist (s.rows playlist.text)
          = .ok response rows ∧
        handle backend config r s = (.ok response, s.withRows playlist.text rows) := by
  cases hlabel : Label.read r.playlist with
  | error failure =>
    refine .inl ⟨failure, ?_⟩
    rw [handle, hlabel]
  | ok playlist =>
    rw [handle_eq_keep backend config hlabel]
    cases hwork : r.work backend config playlist (s.rows playlist.text) with
    | error failure rows => exact .inl ⟨failure, rfl⟩
    | ok response rows =>
      have hreliable := r.work_below backend config playlist _ _ _ hwork
      exact .inr ⟨playlist, response, rows, (Label.text_of_read hlabel).symm, hreliable, rfl⟩

/-- **A request is answered in full or not at all.** At whichever writes a medium breaks off and
whatever it has written by then, a request either is refused and the store is what it was, or gets
the answer and leaves the rows that it would on the same medium if that never failed. A request
writes rows in two batches at most, one that moves rows and one that adds them, so a choice of
batches is a choice of writes. -/
theorem handle_all_or_nothing (config : Config) (r : Request) (s : Store) :
    (∃ failure, handle backend config r s = (.error failure, s)) ∨
      ∃ response after, handle backend config r s = (.ok response, after) ∧
        handle ⟨backend.dialect, .never⟩ config r s = (.ok response, after) := by
  rcases handle_cases backend config r s with
    hrefused | ⟨playlist, response, rows, hname, hwork, hrun⟩
  · exact .inl hrefused
  · refine .inr ⟨response, s.withRows playlist.text rows, hrun, ?_⟩
    have hlabel : Label.read r.playlist = .ok playlist := hname.symm ▸ playlist.read_text
    rw [handle_eq_keep _ config hlabel, hwork]
    rfl

/-- All rows are written, the old ones at new positions, when the medium breaks off. -/
example :
    let spoilt : Faults
      | .insert paths => some ⟨paths.map .add, .refusedWrite "disk full"⟩
      | .rekey _ => none
    let s : Store := .seed .empty "P" ["P.track.A.3", "P.track.B.8"]
    handle ⟨.memory, spoilt⟩ {} (.addItems "P" [⟨.track, "C", none⟩] none true) s
      = (.error (.refusedWrite "disk full"), s) := by
  cbv

end Service

end Playlists
