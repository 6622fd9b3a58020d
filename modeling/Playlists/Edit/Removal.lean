import Playlists.Work

/-!
# `Edit/Removal.lean` — removing an item with everything inside it

When an item goes, so does what is nested in it. Playlists can be shared, so the contents of a
nested playlist go only when no row points at it any more. The removal therefore works through a
list of labels that have lost a row pointing at them. A label that is still pointed at is passed
over: should its last row go later, it is put on the list again then. The playlist that is being
worked on is never reached as a nested one.

Every label on the list costs a place on it or the rows under it, and a removed row puts at most one
label on the list, so the work ends. Which label is taken next does not matter for what is left of
rows that are paths; it matters for rows that are not, because the first of them that is removed
ends the work.
-/

set_option autoImplicit false

namespace Playlists

/-- The nested playlists that some rows point at. All of the rows have to be paths. -/
def nestedPlaylists (rows : List String) : Except Failure (List String) := do
  let paths ← rows.mapM Path.decode
  return (paths.filter (·.kind == .playlist)).map (·.item.text)

theorem length_of_mapM_ok {α β : Type} {f : α → Except Failure β} {xs : List α} {ys : List β}
    (h : xs.mapM f = .ok ys) : ys.length = xs.length := by
  induction xs generalizing ys with
  | nil =>
    rw [List.mapM_nil] at h
    cases h
    rfl
  | cons x rest ih =>
    rw [List.mapM_cons] at h
    obtain ⟨y, -, h⟩ := Failure.bind_eq_ok_iff.1 h
    obtain ⟨zs, hrest, h⟩ := Failure.bind_eq_ok_iff.1 h
    cases h
    rw [List.length_cons, List.length_cons, ih hrest]

theorem length_nestedPlaylists_le {rows labels : List String}
    (h : nestedPlaylists rows = .ok labels) : labels.length ≤ rows.length := by
  obtain ⟨paths, hpaths, h⟩ := Failure.bind_eq_ok_iff.1 h
  cases h
  rw [List.length_map, ← length_of_mapM_ok hpaths]
  exact List.length_filter_le _ _

namespace Edit

open Staging (within)

variable {σ : Type} [Staging σ] {dialect : Dialect} {playlist lead label : String} {s t : σ}

/-- Rows that are removed put no more labels on the list than there are rows fewer. -/
theorem size_add_length_le_of_removeUnder {gone labels : List String}
    (h : within playlist (removeUnder dialect lead) s = .ok gone t)
    (hlabels : nestedPlaylists gone = .ok labels) :
    (Staging.rows playlist t).size + labels.length ≤ (Staging.rows playlist s).size := by
  have hrun := Staging.edit_of_within h
  generalize Staging.rows playlist s = before at hrun ⊢
  generalize Staging.rows playlist t = after at hrun ⊢
  cases hrun
  have hcount := length_nestedPlaylists_le hlabels
  have hgone : (dialect.report (before.filter (dialect.isUnder lead)).toList).length
      = (before.filter (dialect.isUnder lead)).size := (dialect.report_perm _).length_eq
  have hsize := before.size_filter_add_size_filter_not (dialect.isUnder lead)
  show (before.filter fun row => !dialect.isUnder lead row).size + labels.length ≤ before.size
  omega

/-- Whether the contents of a label stay: they were removed before, or some row still points at
them. -/
def isKept (dialect : Dialect) (playlist : String) (visited : List String) (label : String) :
    Work σ Bool :=
  if visited.contains label then return true
  else within playlist (pointsAt dialect .playlist label)

theorem rows_of_isKept {visited : List String} {kept : Bool}
    (h : isKept dialect playlist visited label s = .ok kept t) :
    Staging.rows playlist t = Staging.rows playlist s := by
  rw [isKept] at h
  split at h
  · cases h
    rfl
  · have hrun := Staging.edit_of_within h
    generalize Staging.rows playlist t = after at hrun ⊢
    cases hrun
    rfl

/-- Removes what is nested under the labels in `pending`, as far as nothing points at it, and adds
the number of removed rows to `removed`. -/
def sweep (dialect : Dialect) (playlist : String) (visited pending : List String) (removed : Nat) :
    Work σ Nat := fun s =>
  match pending with
  | [] => .ok removed s
  | label :: rest =>
    match hkept : isKept dialect playlist visited label s with
    | .error failure s => .error failure s
    | .ok true s' =>
      have := congrArg KeyedList.size (rows_of_isKept hkept)
      -- Should the last row that points at the label go, it comes onto the list again.
      sweep dialect playlist visited rest removed s'
    | .ok false s' =>
      have := congrArg KeyedList.size (rows_of_isKept hkept)
      match hremove : within playlist (removeUnder dialect (Path.childPrefix label)) s' with
      | .error failure s => .error failure s
      | .ok gone s'' =>
        match hlabels : nestedPlaylists gone with
        | .error failure => .error failure s''
        | .ok labels =>
          have := size_add_length_le_of_removeUnder hremove hlabels
          -- What came onto the list last is taken first.
          sweep dialect playlist (label :: visited) (labels.reverse ++ rest)
            (removed + gone.length) s''
termination_by s => (Staging.rows playlist s).size + pending.length
decreasing_by
  · simp only [List.length_cons]
    omega
  · simp only [List.length_append, List.length_reverse, List.length_cons]
    omega

/-- Removes the rows of an item and everything that was only nested in it, and counts the removed
rows. -/
def removeSubtree (dialect : Dialect) (playlist item : String) : Work σ Nat := do
  let gone ← within playlist (removeItem dialect item)
  let labels ← attempt (nestedPlaylists gone)
  -- The playlist itself counts as seen, so its own rows stay whatever points at it.
  sweep dialect playlist [playlist] labels.reverse gone.length

end Edit

end Playlists
