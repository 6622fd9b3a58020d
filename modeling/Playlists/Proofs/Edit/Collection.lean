import Playlists.Proofs.Edit.Removal

/-!
# `Proofs/Edit/Collection.lean` — a removal keeps what is still reached, and nothing else

A removal decides label by label: the contents of a nested playlist go once no row points at it any
more. Whoever owns the playlist thinks of it from the top: what can still be reached from the
playlist stays. On well nested playlists the two agree, however often playlists are shared.

What is reached is never emptied, since the last step to it is a row that stays
(`ReachedWithout.notMem_released`); cycles do no harm to that. The other way round, what is left
hangs together (`Rows.rooted_remaining`): every label has a row that points at it and is left as
well. Going back along those rows has to end at the playlist, because nestings do not go round in
circles (`Acyclic.reachable`). A cycle that has lost its way in would be left behind otherwise.
-/

set_option autoImplicit false

namespace Playlists

open Relation

variable {playlist item label : String} {rows : Rows}

/-- One gets from the playlist to `label` along paths for other items than `item`. -/
def ReachedWithout (playlist item : String) (paths : List Path) (label : String) : Prop :=
  ReflTransGen (Nests (paths.filter (·.item.text != item))) playlist label

theorem nests_filter_iff {paths : List Path} {a b : String} :
    Nests (paths.filter (·.item.text != item)) a b ↔
      ∃ p ∈ paths, p.item.text ≠ item ∧ p.root.text = a ∧ p.PointsAt b := by
  constructor
  · rintro ⟨p, hp, hstep⟩
    obtain ⟨hp, hne⟩ := List.mem_filter.1 hp
    exact ⟨p, hp, bne_iff_ne.1 hne, hstep⟩
  · rintro ⟨p, hp, hne, hstep⟩
    exact ⟨p, List.mem_filter.2 ⟨hp, bne_iff_ne.2 hne⟩, hstep⟩

/-- Whatever is reached stays: the playlist is never released, and no label is released that a path
points at which stays. -/
theorem ReachedWithout.notMem_released {paths : List Path}
    (h : ReachedWithout playlist item paths label) : label ∉ released playlist item paths := by
  induction h with
  | refl => exact fun hmem => (mem_released_iff.1 hmem).1 rfl
  | tail _ hstep ih =>
    obtain ⟨p, hp, hne, rfl, hpoint⟩ := nests_filter_iff.1 hstep
    have hstays : ¬ p.GoesWith item (released playlist item paths) := not_or.2 ⟨hne, ih⟩
    exact fun hmem => (mem_released_iff.1 hmem).2.2 ⟨p, hp, hstays, hpoint⟩

/-- What is left hangs together: a label that loses the last path pointing at it is emptied. -/
theorem Rows.rooted_remaining (hr : Rooted playlist rows.paths) :
    Rooted playlist (rows.remaining playlist item).paths := by
  intro p hp
  obtain ⟨hmem, hstays⟩ := mem_paths_remaining.1 hp
  refine or_iff_not_imp_left.2 fun hne => ?_
  obtain ⟨q, hq, hpoint⟩ := (hr p hmem).resolve_left hne
  by_contra hnone
  have hgone : ∀ r ∈ rows.paths, r.PointsAt p.root.text →
      r.GoesWith item (released playlist item rows.paths) := by
    intro r hrow hr'
    by_contra hleft
    exact hnone ⟨r, mem_paths_remaining.2 ⟨hrow, hleft⟩, hr'⟩
  -- Had all rows that point at the label gone, the removal would have emptied it.
  refine hstays (.inr (mem_released_iff.2 ⟨hne, ⟨q, hq, hgone q hq hpoint, hpoint⟩, ?_⟩))
  intro hex
  obtain ⟨r, hrow, hleft, hr'⟩ := hex
  exact hleft (hgone r hrow hr')

/-- Where nestings do not go round in circles, whatever is left is reached along what is left. -/
theorem Rows.reached_of_mem_remaining (ha : Acyclic rows.paths) (hr : Rooted playlist rows.paths)
    {p : Path} (hp : p ∈ (rows.remaining playlist item).paths) :
    ReachedWithout playlist item rows.paths p.root.text := by
  have hkept : ∀ q ∈ (rows.remaining playlist item).paths,
      q ∈ rows.paths ∧ q.item.text ≠ item := by
    intro q hq
    obtain ⟨hmem, hstays⟩ := mem_paths_remaining.1 hq
    exact ⟨hmem, (not_or.1 hstays).1⟩
  have hacyclic : Acyclic (rows.remaining playlist item).paths :=
    ha.anti fun a b => Nests.mono fun q hq => (hkept q hq).1
  -- Going back from the row ends at the playlist, since what is left is still acyclic.
  have hreach := hacyclic.reachable (rooted_remaining hr) hp
  refine ReflTransGen.mono (fun a b => ?_) _ _ hreach
  exact Nests.mono fun q hq => List.mem_filter.2 ⟨(hkept q hq).1, bne_iff_ne.2 (hkept q hq).2⟩

theorem Rows.mem_paths_remaining_iff_reached (ha : Acyclic rows.paths)
    (hr : Rooted playlist rows.paths) {p : Path} :
    p ∈ (rows.remaining playlist item).paths ↔
      p ∈ rows.paths ∧ p.item.text ≠ item ∧
        ReachedWithout playlist item rows.paths p.root.text := by
  constructor
  · intro hp
    obtain ⟨hmem, hstays⟩ := mem_paths_remaining.1 hp
    exact ⟨hmem, (not_or.1 hstays).1, reached_of_mem_remaining ha hr hp⟩
  · rintro ⟨hp, hne, hreached⟩
    exact mem_paths_remaining.2 ⟨hp, not_or.2 ⟨hne, hreached.notMem_released⟩⟩

/-- **A removal keeps exactly what is still reached.** If nestings do not go round in circles and
lead to every row, then the rows that are left are those of other items under the labels that one
still gets to, in whatever order the medium reports what it has removed. -/
theorem removeSubtree_keeps_reached (d : Dialect) (h : rows.Readable) (ha : Acyclic rows.paths)
    (hreach : ∀ p ∈ rows.paths, ReflTransGen (Nests rows.paths) playlist p.root.text)
    (item : String) :
    ∃ kept, Edit.removeSubtree d playlist item rows = .ok (rows.size - kept.size) kept ∧
      ∀ row, row ∈ kept.toList ↔ ∃ p ∈ rows.paths, p.text = row ∧ p.item.text ≠ item ∧
        ReachedWithout playlist item rows.paths p.root.text := by
  have hr : Rooted playlist rows.paths := by
    intro p hp
    rcases (hreach p hp).cases_tail with hroot | ⟨b, -, q, hq, -, hpoint⟩
    · exact .inl hroot
    · exact .inr ⟨q, hq, hpoint⟩
  refine ⟨rows.remaining playlist item, h.removeSubtree_eq d playlist item, fun row => ?_⟩
  constructor
  · intro hrow
    obtain ⟨p, hp, rfl⟩ := (h.remaining playlist item).text_mem hrow
    obtain ⟨hmem, hne, hreached⟩ := (Rows.mem_paths_remaining_iff_reached ha hr).1 hp
    exact ⟨p, hmem, rfl, hne, hreached⟩
  · rintro ⟨p, hp, rfl, hne, hreached⟩
    have hleft := (Rows.mem_paths_remaining_iff_reached ha hr).2 ⟨hp, hne, hreached⟩
    exact (Rows.mem_paths.1 hleft).1

/-- Rows with a playlist that is nested three times, on two levels, and one that is nested in it. -/
def sharedRows : Rows :=
  .ofList ["P.playlist.Q.1", "P.playlist.R.2", "P.track.A.3", "Q.playlist.S.1", "Q.track.A.2",
    "R.playlist.S.1", "R.playlist.Q.2", "S.playlist.T.1", "T.track.B.1", "T.playlist.U.2",
    "U.track.C.1"]

theorem removeSubtree_keeps_reached_shared :
    sharedRows.Readable ∧ Acyclic sharedRows.paths ∧
      (∀ p ∈ sharedRows.paths, ReflTransGen (Nests sharedRows.paths) "P" p.root.text) ∧
      ∃ kept, Edit.removeSubtree .memory "P" "S" sharedRows
          = .ok (sharedRows.size - kept.size) kept ∧
        ∀ row, row ∈ kept.toList ↔ ∃ p ∈ sharedRows.paths, p.text = row ∧ p.item.text ≠ "S" ∧
          ReachedWithout "P" "S" sharedRows.paths p.root.text :=
  have h : sharedRows.Readable := by decide +kernel
  have ha : Acyclic sharedRows.paths :=
    .of_rank (fun label => ["P", "R", "Q", "S", "T", "U"].idxOf label) (by decide +kernel)
  have hreach : ∀ p ∈ sharedRows.paths,
      ReflTransGen (Nests sharedRows.paths) "P" p.root.text := fun p hp =>
    ha.reachable (show Rooted "P" sharedRows.paths by decide +kernel) hp
  ⟨h, ha, hreach, removeSubtree_keeps_reached .memory h ha hreach "S"⟩

end Playlists
