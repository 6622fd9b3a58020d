import Playlists.Operation.Remove
import Playlists.Proofs.Edit.Collection
import Playlists.Proofs.Operation.Reorder

/-!
# `Proofs/Operation/Remove.lean` — a removal, and what is left numbered afresh

What a removal leaves is a playlist again: whatever stood under a label that nothing points at any
more has gone with it (`rooted_remaining`). So the rows that are left can be numbered afresh and
written back, and a removal can only fail for what is asked of it.
-/

set_option autoImplicit false

namespace Playlists

variable {rows : Rows} {item : String}

/-- Where no row is removed all rows are left. -/
theorem Rows.remaining_eq_self {playlist : String}
    (h : rows.size - (rows.remaining playlist item).size = 0) :
    rows.remaining playlist item = rows := by
  apply KeyedList.ext_toList
  exact List.filter_sublist.eq_of_length_le (Nat.le_of_sub_eq_zero h)

namespace Operation

variable {playlist : Label} {config : Config}

/-- What a removal comes to: the number of removed rows and the tree of those that are left,
numbered afresh if the settings say so. -/
def reduce (d : Dialect) (config : Config) (playlist : Label) (item : String) (rows : Rows) :
    Except Failure (Nat × Tree) :=
  match Label.read item with
  | .error failure => .error failure
  | .ok _ =>
    match Edit.removeSubtree d playlist.text item rows with
    | .error failure _ => .error failure
    | .ok removed kept =>
      if removed = 0 then .error (.notPartOf item playlist.text)
      else .ok (removed, if config.rebalanceOnRemove then kept.tree.rebalance.1 else kept.tree)

/-- A removal leaves what it does not remove, numbered afresh or not. -/
theorem reduce_eq_ok {d : Dialect} (h : rows.Readable) {removed : Nat} {after : Tree}
    (hok : reduce d config playlist item rows = .ok (removed, after)) :
    after = ((rows.remaining playlist.text item).tree.balanced config.rebalanceOnRemove).1 := by
  rw [reduce] at hok
  split at hok
  · cases hok
  rw [h.removeSubtree_eq d] at hok
  dsimp only at hok
  split at hok
  · cases hok
  · cases hok
    exact (Tree.balanced_fst _ _).symm

/-- Rows that are numbered afresh are the rows of their tree, rebalanced. -/
theorem renumber_eq_ok (d : Dialect) (h : rows.Readable) (hr : Rooted playlist.text rows.paths) :
    renumber ⟨d, .never⟩ playlist rows = .ok () rows.tree.rebalance.1.toRows := by
  have hsteps := rows.tree.rearranges_rebalance
  have ha := hsteps.agreeing rows.agreeing_tree
  rw [← rows.paths_tree] at hr
  have hroots : ∀ p ∈ rows.tree.rebalance.1.paths,
      p.root.text ∈ (WriteBack.forTree playlist.text rows.tree).roots.toList := by
    intro p hp
    refine (WriteBack.mem_knownRoots rows.agreeing_tree).2 ?_
    -- The known roots are those of the rows before; numbering afresh points at the same labels.
    rw [hsteps.exists_pointsAt_iff]
    exact hsteps.rooted hr p hp
  have hwrite := updateMoved_eq_ok d hsteps h.tree_toRows ha
    fun p hp => hroots p (Moves.mem_paths_displaced.1 hp).1
  rw [renumber, Run.bind_of_ok (fetchTree_eq_ok h)]
  by_cases hempty : rows.tree.isEmpty = true
  · -- Where there is nothing, nothing moves.
    have hnone : rows.tree = .empty := KeyedList.ext_toList (List.isEmpty_iff.1 hempty)
    rw [if_pos hempty, ← h.tree_toRows, hnone]
    rfl
  · rw [if_neg hempty]
    exact hwrite

theorem removeItem_eq (d : Dialect) (h : rows.Readable) (hr : Rooted playlist.text rows.paths)
    (item : String) :
    removeItem ⟨d, .never⟩ config playlist item rows
      = rows.written (reduce d config playlist item rows) := by
  have hleft := h.remaining playlist.text item
  simp only [removeItem, Staging.begin_rows, Staging.commit_rows, pure_bind, lock_rows]
  rw [reduce]
  cases hlabel : Label.read item with
  | error failure => rfl
  | ok label =>
    rw [Run.bind_of_ok (Run.discard_of_ok (Run.attempt_ok label)),
      Run.bind_of_ok (h.removeSubtree_eq d playlist.text item), h.removeSubtree_eq d]
    dsimp only
    -- A refusal leaves the rows as they were, and with nothing removed the sweep did.
    by_cases hnone : rows.size - (rows.remaining playlist.text item).size = 0
    · rw [if_pos hnone, if_pos hnone, Rows.remaining_eq_self hnone]
      rfl
    rw [if_neg hnone, if_neg hnone]
    cases config.rebalanceOnRemove with
    | true =>
      have hrooted : Rooted playlist.text (rows.remaining playlist.text item).paths :=
        Rows.rooted_remaining hr
      rw [if_pos rfl, if_pos rfl]
      exact Run.bind_of_ok (renumber_eq_ok d hleft hrooted)
    | false =>
      rw [if_neg Bool.false_ne_true, if_neg Bool.false_ne_true]
      show EStateM.Result.ok _ _ = .ok _ (Tree.toRows _)
      rw [hleft.tree_toRows]

end Operation

end Playlists
