import Playlists.Operation.Reorder
import Playlists.Proofs.Operation.Add
import Playlists.Proofs.Tree.Reordering

/-!
# `Proofs/Operation/Reorder.lean` — a new order, in memory and in the rows

Bringing items to the front rearranges the tree, and what is written is exactly the entries that
moved. `updateMoved_eq_ok` is that step for any rearrangement; numbering afresh after a removal is
the other use of it. Only entries of the playlist itself move here, and the playlist knows its own
label, so a new order asks nothing of what is nested (`setOrder_eq`).
-/

set_option autoImplicit false

namespace Playlists

namespace Operation

variable {rows : Rows} {playlist : Label}

/-! ## Writing a rearrangement -/

section Rearranged

variable {before after : Tree} {steps : List (Entry × Entry)}

theorem moved_eq_displaced (h : before.Rearranges after steps) :
    moved after (Tree.movesAmong steps) = (Tree.movesAmong steps).displaced after := by
  refine KeyedList.ext_mem fun e => ?_
  rw [moved, Moves.displaced, KeyedList.mem_filter, KeyedList.mem_filter, bne_iff_ne]
  exact and_congr_right fun he => h.contains_movesAmong (Tree.mem_paths_of_mem he)

theorem isEmpty_displaced (h : before.Rearranges after steps) :
    ((Tree.movesAmong steps).displaced after).isEmpty = (Tree.movesAmong steps).isEmpty := by
  rw [Bool.eq_iff_iff, KeyedList.isEmpty, KeyedList.isEmpty, List.isEmpty_iff, List.isEmpty_iff,
    List.eq_nil_iff_forall_not_mem, List.eq_nil_iff_forall_not_mem]
  constructor
  · intro hnone m hm
    obtain ⟨s, hs, hne, -⟩ := h.mem_movesAmong.1 hm
    refine hnone s.2 (KeyedList.mem_filter.2 ⟨h.snd_mem hs, bne_iff_ne.2 fun hstay => hne ?_⟩)
    rw [h.origin_eq hs] at hstay
    exact hstay.symm
  · intro hnone e he
    obtain ⟨he, hmoves⟩ := KeyedList.mem_filter.1 he
    obtain ⟨s, hs, rfl⟩ := h.exists_snd he
    rw [h.origin_eq hs, bne_iff_ne] at hmoves
    exact hnone _ (h.mem_movesAmong.2 ⟨s, hs, fun heq => hmoves heq.symm, rfl⟩)

/-- Writing the entries that moved, if any did, leaves the rows of the rearranged tree. -/
theorem updateMoved_eq_ok (d : Dialect) (h : before.Rearranges after steps)
    (hrows : before.toRows = rows) (ha : after.Agreeing) {w : WriteBack}
    (hroots : ∀ p ∈ ((Tree.movesAmong steps).displaced after).paths,
      p.root.text ∈ w.roots.toList) :
    (unless (Tree.movesAmong steps).isEmpty do
      discard (w.updateAll ⟨d, .never⟩ (moved after (Tree.movesAmong steps))
        (Tree.movesAmong steps)) : Edit Unit) rows = .ok () after.toRows := by
  have haccounts := Moves.Accounts.of_rearranges h
  rw [hrows] at haccounts
  -- An entry that stays records no move, so there are moves exactly if something is displaced.
  rw [moved_eq_displaced h, ← isEmpty_displaced h]
  by_cases hmoved : ((Tree.movesAmong steps).displaced after).isEmpty = true
  · rw [if_pos hmoved, haccounts.toRows_eq_of_isEmpty hmoved]
    rfl
  · rw [if_neg hmoved]
    have hne := Bool.eq_false_iff.2 hmoved
    exact Run.discard_of_ok (haccounts.updateAll_eq_ok d hne ha hroots)

end Rearranged

/-! ## A new order -/

/-- What bringing items to the front comes to in memory. -/
def rearrange (playlist : Label) (items : List String) (t : Tree) : Except Failure (Unit × Tree) :=
  match arrange playlist.text [] ((t.siblings playlist.text).map Entry.path) items with
  | .error failure => .error failure
  | .ok ordered =>
    match (Tree.reorder playlist.text ordered) t with
    | .error failure _ => .error failure
    | .ok _ reordered => .ok ((), reordered)

/-- The entries in the order that a request leads to. -/
theorem perm_siblings_of_arrange {t : Tree} (ha : t.Agreeing) {items : List String}
    {ordered : List Path}
    (h : arrange playlist.text [] ((t.siblings playlist.text).map Entry.path) items = .ok ordered) :
    (ordered.map Entry.ofPath).Perm (t.siblings playlist.text) := by
  have hself : ((t.siblings playlist.text).map Entry.path).map Entry.ofPath
      = t.siblings playlist.text := by
    rw [List.map_map]
    refine (List.map_congr_left fun e he => ?_).trans (List.map_id _)
    exact (ha e ((Tree.mem_siblings playlist.dot_not_mem).1 he).1).symm
  have hperm := (arrange_perm h).map Entry.ofPath
  rwa [List.nil_append, hself] at hperm

/-- Reordering to what a request leads to succeeds. -/
theorem reorder_arranged {t : Tree} (ha : t.Agreeing) {items : List String} {ordered : List Path}
    (h : arrange playlist.text [] ((t.siblings playlist.text).map Entry.path) items = .ok ordered) :
    Tree.reorder playlist.text ordered t
      = .ok (Tree.movesAmong (t.reordering (ordered.map Entry.ofPath)))
          (t.reordered (ordered.map Entry.ofPath)) := by
  have hperm := perm_siblings_of_arrange ha h
  rw [Tree.movesAmong_reordering, ← Tree.reorder_eq_ok playlist.dot_not_mem hperm,
    Tree.map_path_ofPath]

/-- Only what is asked for can be refused; the entries are rearranged then. -/
theorem rearrange_eq {t : Tree} (ha : t.Agreeing) (items : List String) :
    rearrange playlist items t
      = (arrange playlist.text [] ((t.siblings playlist.text).map Entry.path) items).map
          fun ordered => ((), t.reordered (ordered.map Entry.ofPath)) := by
  rw [rearrange]
  cases harrange : arrange playlist.text [] ((t.siblings playlist.text).map Entry.path) items with
  | error failure => rfl
  | ok ordered =>
    show (match Tree.reorder playlist.text ordered t with
      | .error failure _ => Except.error failure
      | .ok _ reordered => .ok ((), reordered)) = _
    rw [reorder_arranged ha harrange]
    rfl

theorem setOrder_eq (d : Dialect) (config : Config) (h : rows.Readable) (items : List String) :
    setOrder ⟨d, .never⟩ config playlist items rows
      = rows.written (rearrange playlist items rows.tree) := by
  simp only [setOrder, Staging.begin_rows, Staging.commit_rows, pure_bind, load_rows,
    bind_pure_unit]
  rw [rearrange_eq rows.agreeing_tree, Run.bind_of_ok (fetchTree_eq_ok h)]
  cases harrange : arrange playlist.text []
      ((rows.tree.siblings playlist.text).map Entry.path) items with
  | error failure => rfl
  | ok ordered =>
    have hperm := perm_siblings_of_arrange rows.agreeing_tree harrange
    have hsteps := Tree.rearranges_reordered playlist.dot_not_mem hperm
    have ha := hsteps.agreeing rows.agreeing_tree
    -- Only children of the playlist move, so the one root that has to be known is its own label.
    have hroots : ∀ p ∈ ((Tree.movesAmong (rows.tree.reordering (ordered.map Entry.ofPath))).displaced
        (rows.tree.reordered (ordered.map Entry.ofPath))).paths,
        p.root.text ∈ (WriteBack.forTree playlist.text
          (rows.tree.reordered (ordered.map Entry.ofPath))).roots.toList := by
      intro p hp
      obtain ⟨hp, hmoves⟩ := Moves.mem_paths_displaced.1 hp
      exact (WriteBack.mem_knownRoots ha).2
        (.inl (Tree.root_of_origin_ne playlist.dot_not_mem hperm hp hmoves))
    rw [Run.bind_of_ok (Run.attempt_ok ordered), reorder_arranged rows.agreeing_tree harrange]
    exact updateMoved_eq_ok d hsteps h.tree_toRows ha hroots

end Operation

end Playlists
