import Playlists.Path

/-!
# `Position.lean` — the next position among siblings

An entry that is appended to a playlist stands one behind the last of its siblings, and the first
entry of a playlist stands at one. Positions are machine words, so behind the largest word there is
no position left; the append is refused then, and no position ever wraps around to the front.
-/

set_option autoImplicit false

namespace Playlists

/-- The position behind the last one of the children of `parent`, if they have one. -/
def positionAfter (last : Option Nat) (parent : String) : Except Failure Nat :=
  match last with
  | none => .ok 1
  | some n => if n + 1 < UInt64.size then .ok (n + 1) else .error (.noPositionLeft n parent)

/-- The last position among those rows that are direct children of `parent`. All of them have to be
readable; rows elsewhere are not looked at. -/
def lastPosition (rows : List String) (parent : String) : Except Failure (Option Nat) := do
  let siblings ← (rows.filter (Text.hasPrefix (Path.childPrefix parent))).mapM Path.decode
  return (siblings.map Path.position).max?

/-- Rows elsewhere may be left out, as long as none of those that begin with the label of the parent
is. -/
theorem lastPosition_filter {rows : List String} {parent : String} {fetched : String → Bool}
    (h : ∀ row ∈ rows, Text.hasPrefix (Path.childPrefix parent) row = true → fetched row = true) :
    lastPosition (rows.filter fetched) parent = lastPosition rows parent := by
  have hsame : (rows.filter fetched).filter (Text.hasPrefix (Path.childPrefix parent))
      = rows.filter (Text.hasPrefix (Path.childPrefix parent)) := by
    rw [List.filter_filter]
    refine List.filter_congr fun row hrow => ?_
    rw [Bool.eq_iff_iff, Bool.and_eq_true]
    exact and_iff_left_of_imp (h row hrow)
  rw [lastPosition, lastPosition, hsame]

theorem positionAfter_lt_size {last : Option Nat} {parent : String} {n : Nat}
    (h : positionAfter last parent = .ok n) : 0 < n ∧ n < UInt64.size := by
  unfold positionAfter at h
  split at h
  · cases h
    exact ⟨by decide, by decide⟩
  · split at h
    · next hlt =>
      cases h
      exact ⟨Nat.succ_pos _, hlt⟩
    · cases h

end Playlists
