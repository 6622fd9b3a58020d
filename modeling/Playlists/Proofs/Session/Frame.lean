import Playlists.Proofs.Edit.Removal
import Playlists.Transaction

/-!
# `Proofs/Session/Frame.lean` — work that stays within a playlist

A call `within` a playlist works on the rows of this playlist and leaves the session as it was
otherwise. Steps one after another within one playlist are their sequence within that playlist
(`within_bind`), so work that gives the same name with each of its calls can be read as a single call:
it is what the same work does to the rows alone, done within the playlist. That is the frame lemma of
an operation, and there is one for each operation that is made up of several calls. It would fail if
any of these calls gave another name.
-/

set_option autoImplicit false

namespace Playlists

open Staging (within within_rows)

namespace Session

variable {α β : Type} {playlist other : String}

/-! ## One call -/

theorem stage_rows (t : Session) (playlist : String) :
    t.stage playlist (t.staged.rows playlist) = t := by
  rw [stage, Store.withRows_rows]

theorem stage_stage (t : Session) (playlist : String) (rows rows' : Rows) :
    (t.stage playlist rows).stage playlist rows' = t.stage playlist rows' := by
  rw [stage, stage, stage, Store.withRows_withRows]

theorem rows_stage (t : Session) (playlist : String) (rows : Rows) :
    (t.stage playlist rows).staged.rows playlist = rows :=
  t.staged.rows_withRows_self playlist rows

theorem within_of_ok {edit : Edit α} {t : Session} {a : α} {rows : Rows}
    (h : edit (t.staged.rows playlist) = .ok a rows) :
    within playlist edit t = .ok a (t.stage playlist rows) := by
  show Session.edit playlist edit t = _
  rw [Session.edit, h]

theorem within_of_error {edit : Edit α} {t : Session} {failure : Failure} {rows : Rows}
    (h : edit (t.staged.rows playlist) = .error failure rows) :
    within playlist edit t = .error failure (t.stage playlist rows) := by
  show Session.edit playlist edit t = _
  rw [Session.edit, h]

/-! ## Calls one after another -/

theorem within_pure (a : α) : within playlist (pure a : Edit α) = (pure a : Work Session α) := by
  funext t
  have h : (pure a : Edit α) (t.staged.rows playlist) = .ok a (t.staged.rows playlist) := rfl
  rw [within_of_ok h, stage_rows]
  rfl

theorem within_attempt (x : Except Failure α) :
    within playlist (attempt x : Edit α) = (attempt x : Work Session α) := by
  funext t
  cases x with
  | ok a =>
    have h : (attempt (.ok a) : Edit α) (t.staged.rows playlist)
        = .ok a (t.staged.rows playlist) := rfl
    rw [within_of_ok h, stage_rows]
    rfl
  | error failure =>
    have h : (attempt (.error failure) : Edit α) (t.staged.rows playlist)
        = .error failure (t.staged.rows playlist) := rfl
    rw [within_of_error h, stage_rows]
    rfl

theorem within_throw (failure : Failure) :
    within playlist (throw failure : Edit α) = (throw failure : Work Session α) :=
  within_attempt (.error failure)

theorem within_bind (x : Edit α) (next : α → Edit β) :
    within playlist (x >>= next)
      = (within playlist x >>= fun a => within playlist (next a) : Work Session β) := by
  funext t
  cases hx : x (t.staged.rows playlist) with
  | error failure rows =>
    rw [Run.bind_of_error (within_of_error hx), within_of_error (Run.bind_of_error hx)]
  | ok a rows =>
    rw [Run.bind_of_ok (within_of_ok hx)]
    -- The second step finds what the first has staged.
    have hrows := t.rows_stage playlist rows
    cases hnext : next a rows with
    | error failure rows' =>
      rw [within_of_error ((Run.bind_of_ok hx).trans hnext),
        within_of_error (by rw [hrows]; exact hnext), stage_stage]
    | ok b rows' =>
      rw [within_of_ok ((Run.bind_of_ok hx).trans hnext),
        within_of_ok (by rw [hrows]; exact hnext), stage_stage]

theorem within_discard (x : Edit α) :
    within playlist (discard x) = (discard (within playlist x) : Work Session PUnit) := by
  funext t
  cases hx : x (t.staged.rows playlist) with
  | error failure rows =>
    rw [within_of_error (Run.discard_of_error hx), Run.discard_of_error (within_of_error hx)]
  | ok a rows =>
    rw [within_of_ok (Run.discard_of_ok hx), Run.discard_of_ok (within_of_ok hx)]

theorem within_ite {c : Prop} [Decidable c] (x y : Edit α) :
    within playlist (if c then x else y)
      = (if c then within playlist x else within playlist y : Work Session α) :=
  apply_ite _ c x y

end Session

open Session

/-! ## Operations made up of several calls -/

namespace Edit

variable (playlist : String)

theorem append_eq_within (backend : Backend) (parent : String) (kind : Kind) (item : String) :
    append backend playlist parent kind item
      = (within playlist (append backend playlist parent kind item) : Work Session Path) := by
  simp only [append, within_bind, within_attempt, within_pure, within_rows]

theorem isKept_eq_within (d : Dialect) (visited : List String) (label : String) :
    isKept d playlist visited label
      = (within playlist (isKept d playlist visited label) : Work Session Bool) := by
  simp only [isKept, within_ite, within_pure, within_rows]

/-- Working off the list never leaves the playlist, whichever labels are on it. -/
theorem sweep_eq_within (d : Dialect) (visited pending : List String) (removed : Nat) :
    sweep d playlist visited pending removed
      = (within playlist (sweep d playlist visited pending removed) : Work Session Nat) := by
  funext t
  -- By induction along the list on the session. The list on the rows takes the same turns, since
  -- every call has the same outcome.
  fun_induction sweep d playlist visited pending removed t with
  | case1 visited removed t =>
    rw [sweep_nil, within_pure]
    rfl
  | case2 visited removed t label rest failure t' hkept =>
    rw [sweep_cons, within_bind, ← isKept_eq_within, Run.bind_of_error hkept]
  | case3 visited removed t label rest t' hkept _ ih =>
    rw [sweep_cons, within_bind, ← isKept_eq_within, Run.bind_of_ok hkept]
    exact ih
  | case4 visited removed t label rest t' hkept _ failure t'' hremove =>
    rw [sweep_cons, within_bind, ← isKept_eq_within, Run.bind_of_ok hkept,
      if_neg Bool.false_ne_true, within_bind, within_rows, Run.bind_of_error hremove]
  | case5 visited removed t label rest t' hkept _ gone t'' hremove failure hlabels =>
    rw [sweep_cons, within_bind, ← isKept_eq_within, Run.bind_of_ok hkept,
      if_neg Bool.false_ne_true, within_bind, within_rows, Run.bind_of_ok hremove, within_bind,
      within_attempt, Run.bind_of_error (Run.attempt_of_error hlabels)]
  | case6 visited removed t label rest t' hkept _ gone t'' hremove labels hlabels _ ih =>
    rw [sweep_cons, within_bind, ← isKept_eq_within, Run.bind_of_ok hkept,
      if_neg Bool.false_ne_true, within_bind, within_rows, Run.bind_of_ok hremove, within_bind,
      within_attempt, Run.bind_of_ok (Run.attempt_of_ok hlabels)]
    exact ih

/-- A removal looks for what is nested among the rows of its own playlist only. -/
theorem removeSubtree_eq_within (d : Dialect) (item : String) :
    removeSubtree d playlist item
      = (within playlist (removeSubtree d playlist item) : Work Session Nat) := by
  simp only [removeSubtree, within_bind, within_attempt, within_rows, ← sweep_eq_within]

end Edit

namespace WriteBack

variable (playlist : String) (full t : Tree) (backend : Backend)

theorem insertAll_eq_within :
    (forTree playlist full).insertAll backend t
      = (within playlist ((forTree playlist full).insertAll backend t) : Work Session Nat) := by
  simp only [insertAll, forTree, within_bind, within_attempt, within_pure, within_rows]

theorem updateAll_eq_within (moves : Moves) :
    (forTree playlist full).updateAll backend t moves
      = (within playlist ((forTree playlist full).updateAll backend t moves)
        : Work Session Nat) := by
  simp only [updateAll, forTree, within_bind, within_attempt, within_ite, within_pure, within_rows]

end WriteBack

theorem Action.work_eq_within (backend : Backend) (playlist : String) (action : Action) :
    action.work backend playlist
      = (within playlist (action.work backend playlist) : Work Session Answer) := by
  cases action with
  | removeSubtree item =>
    simp only [Action.work, within_bind, within_pure, ← Edit.removeSubtree_eq_within]
  | append parent kind item =>
    simp only [Action.work, within_bind, within_pure, ← Edit.append_eq_within]
  | insertTree full tree =>
    simp only [Action.work, within_bind, within_pure, ← WriteBack.insertAll_eq_within]
  | updateTree full tree moves =>
    simp only [Action.work, within_bind, within_pure, ← WriteBack.updateAll_eq_within]
  | _ => simp only [Action.work, within_bind, within_pure, within_rows]

end Playlists
