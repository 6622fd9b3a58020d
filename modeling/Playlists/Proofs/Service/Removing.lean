import Playlists.Proofs.Service.WriteBack

/-!
# `Proofs/Service/Removing.lean` — what a request to remove an item leaves

A removal empties labels in turn, loads what is left, numbers all of it afresh if the settings say
so, and writes what has moved. `removeItem_leaves` puts these together: the item is there and goes
with all that was nested in it alone, or it is not there and nothing happens. What is left hangs
together, and under every label the children that stay do so in the order they were in.

The parts are `Rows.rooted_remaining`, which makes the second loading a playlist again, and
`Tree.path_siblings_rebalance`, which says what numbering afresh does to one label.
-/

set_option autoImplicit false

namespace Playlists

/-- How the paths `after` come from the paths `before` when `item` is removed from `playlist`: the
labels `gone` are emptied, the paths `kept` stay, and they may be numbered afresh. -/
structure Leaves (playlist item : Label) (rebalance : Bool) (before : List Path) (gone : Set String)
    (kept after : List Path) : Prop where
  /-- The emptied labels are the least set that agrees with what it releases. -/
  least : IsLeast
    {gone | ∀ label, label ∈ gone ↔ Releases playlist.text item.text before gone label} gone
  stays : ∀ p, p ∈ kept ↔ p ∈ before ∧ ¬ p.GoesWith item.text gone
  absent : ∀ p ∈ after, p.item ≠ item
  /-- No path is left under a label that nothing points at. -/
  rooted : Rooted playlist.text after
  /-- The children that stay keep their kinds, their items and their order. -/
  children : ∀ label, List.Forall₂ (fun p q => p.sameEntry q = true)
    ((Path.siblings before label).filter (· ∈ kept)) (Path.siblings after label)
  balanced : rebalance = true → ∀ label, (Path.siblings after label).map Path.position
    = List.range' 1 (Path.siblings after label).length
  untouched : rebalance = false → after = kept

variable {rows : Rows}

/-! ## Whether anything goes -/

/-- An item that has no entry takes nothing with it. -/
theorem released_eq_empty {playlist item : String} {paths : List Path}
    (h : ∀ p ∈ paths, p.item.text ≠ item) : released playlist item paths = ∅ := by
  rw [← Set.subset_empty_iff]
  refine released_subset fun label hreleases => ?_
  obtain ⟨-, ⟨p, hp, hgoes, -⟩, -⟩ := hreleases
  exact absurd (hgoes.resolve_right (Set.notMem_empty _)) (h p hp)

theorem Rows.Readable.remaining_eq_self_iff (h : rows.Readable) (playlist : String) {item : String} :
    rows.remaining playlist item = rows ↔ ∀ p ∈ rows.paths, p.item.text ≠ item := by
  constructor
  · intro heq p hp
    rw [← heq, mem_paths_remaining] at hp
    exact (not_or.1 hp.2).1
  · intro hnone
    refine (h.remaining playlist item).ext h fun p => ?_
    rw [mem_paths_remaining, released_eq_empty hnone]
    refine and_iff_left_of_imp fun hp => ?_
    exact not_or.2 ⟨hnone p hp, Set.notMem_empty _⟩

theorem Rows.Readable.removed_eq_zero_iff (h : rows.Readable) {playlist item : String} :
    rows.size - (rows.remaining playlist item).size = 0 ↔ ∀ p ∈ rows.paths, p.item.text ≠ item := by
  rw [← h.remaining_eq_self_iff playlist]
  constructor
  · exact remaining_eq_self
  · intro heq
    rw [heq, Nat.sub_self]

theorem Rows.size_remaining_le (rows : Rows) (playlist item : String) :
    (rows.remaining playlist item).size ≤ rows.size :=
  List.filter_sublist.length_le

/-! ## What is left -/

/-- What stays of a playlist that hangs together, numbered afresh or not. -/
theorem Rows.leaves_remaining {playlist : Label} (hr : Rooted playlist.text rows.paths)
    (item : Label) (rebalance : Bool) :
    Leaves playlist item rebalance rows.paths (released playlist.text item.text rows.paths)
      (rows.remaining playlist.text item.text).paths
      ((rows.remaining playlist.text item.text).tree.balanced rebalance).1.paths := by
  have ha := (rows.remaining playlist.text item.text).agreeing_tree
  have hstays : ∀ p, p ∈ (rows.remaining playlist.text item.text).paths ↔ p ∈ rows.paths ∧
      ¬ p.GoesWith item.text (released playlist.text item.text rows.paths) :=
    fun p => mem_paths_remaining
  obtain ⟨steps, hsteps, -⟩ :=
    (rows.remaining playlist.text item.text).tree.exists_rearranges_balanced rebalance
  refine { least := isLeast_released playlist.text item.text rows.paths, stays := hstays,
           absent := fun p hp => ?absent, rooted := hsteps.rooted ?rooted,
           children := fun label => ?children,
           balanced := fun hbalance => Tree.map_position_balanced ha hbalance,
           untouched := fun hkeep => ?untouched }
  case absent =>
    obtain ⟨step, hstep, rfl⟩ := hsteps.exists_snd_path hp
    have hold := Tree.mem_paths_of_mem (hsteps.fst_mem hstep)
    rw [paths_tree, hstays, Path.GoesWith, not_or] at hold
    rw [← (Path.sameEntry_iff.1 (hsteps.same step hstep)).2.2]
    exact fun hitem => hold.2.1 (congrArg Label.text hitem)
  case rooted =>
    rw [paths_tree]
    exact rooted_remaining hr
  -- The children that stay are the children of what is left, and those are numbered one by one.
  case children =>
    have hkept : (Path.siblings rows.paths label).filter
        (· ∈ (rows.remaining playlist.text item.text).paths)
          = Path.siblings (rows.remaining playlist.text item.text).paths label := by
      refine (Path.filter_siblings_eq (nodup_paths _) (nodup_paths _) (fun p => ?_) label).trans
        (List.filter_true _)
      simp only [decide_eq_true_iff, and_true]
      exact and_iff_right_of_imp fun hp => ((hstays p).1 hp).1
    rw [hkept, ← paths_tree (rows.remaining playlist.text item.text)]
    exact Tree.forall₂_siblings_balanced ha rebalance label
  case untouched =>
    subst hkeep
    exact paths_tree _

namespace Operation

/-- A removal is refused if there is no entry of the item; otherwise all of it goes that has to. -/
theorem reduce_eq (d : Dialect) (config : Config) (playlist item : Label) (h : rows.Readable) :
    reduce d config playlist item.text rows
      = if ∀ p ∈ rows.paths, p.item ≠ item then .error (.notPartOf item.text playlist.text)
        else .ok (rows.size - (rows.remaining playlist.text item.text).size,
          ((rows.remaining playlist.text item.text).tree.balanced config.rebalanceOnRemove).1) := by
  have hnone : rows.size - (rows.remaining playlist.text item.text).size = 0 ↔
      ∀ p ∈ rows.paths, p.item ≠ item := by
    rw [h.removed_eq_zero_iff]
    refine forall₂_congr fun p _ => not_congr ?_
    exact ⟨Label.ext_text, congrArg Label.text⟩
  rw [reduce, Label.read_text, h.removeSubtree_eq d]
  dsimp only
  simp only [hnone, Tree.balanced_fst]

end Operation

namespace Service

variable {s : Store}

/-- **A request to remove an item, from end to end.** On a playlist that hangs together it is refused,
and changes nothing, exactly if there is no entry of the item. Otherwise it says by how many rows the
playlist has become smaller, and the rows are what the removal leaves: no entry of the item, none
that nothing leads to, and all other children in the order they were in, numbered afresh or with
their rows as they were. -/
theorem removeItem_leaves (d : Dialect) (config : Config) (playlist item : Label)
    (h : (s.rows playlist.text).Readable)
    (hr : Rooted playlist.text (s.rows playlist.text).paths) :
    (handle ⟨d, .never⟩ config (.removeItem playlist.text item.text) s
        = (.error (.notPartOf item.text playlist.text), s) ↔
      ∀ p ∈ (s.rows playlist.text).paths, p.item ≠ item) ∧
    ((∃ p ∈ (s.rows playlist.text).paths, p.item = item) →
      ∃ removed after gone kept,
        handle ⟨d, .never⟩ config (.removeItem playlist.text item.text) s
          = (.ok (.count removed), s.withRows playlist.text (Tree.toRows after)) ∧
        removed + (Tree.toRows after).size = (s.rows playlist.text).size ∧
        Leaves playlist item config.rebalanceOnRemove (s.rows playlist.text).paths gone kept
          (Tree.paths after)) := by
  rw [handle_eq (r := .removeItem playlist.text item.text) d h hr rfl]
  show (s.answer playlist.text ((Operation.reduce d config playlist item.text _).map _) = _ ↔ _) ∧
    (_ → ∃ removed after gone kept, s.answer playlist.text
      ((Operation.reduce d config playlist item.text _).map _) = _ ∧ _)
  rw [Operation.reduce_eq d config playlist item h]
  constructor
  · split
    · next hnone => exact iff_of_true rfl hnone
    · next hsome => exact iff_of_false (fun heq => nomatch heq) hsome
  · rintro ⟨p, hp, hitem⟩
    rw [if_neg fun hnone => hnone p hp hitem]
    refine ⟨_, (Tree.balanced config.rebalanceOnRemove _).1, _, _, rfl, ?_,
      Rows.leaves_remaining hr item config.rebalanceOnRemove⟩
    obtain ⟨steps, hsteps, -⟩ := Tree.exists_rearranges_balanced config.rebalanceOnRemove
      ((s.rows playlist.text).remaining playlist.text item.text).tree
    rw [Tree.size_toRows, ← hsteps.size_eq, (h.remaining _ _).size_tree]
    exact Nat.sub_add_cancel (Rows.size_remaining_le _ _ _)

/-- A playlist with gaps in which `R` is nested three times, once in itself, and `Q` leads back to
the playlist. -/
def sharingStore : Store :=
  .seed .empty "P" ["P.playlist.Q.3", "P.track.A.3", "P.playlist.R.9", "Q.playlist.R.5",
    "Q.playlist.P.5", "Q.track.A.7", "Q.playlist.T.8", "R.track.B.2", "R.track.A.2",
    "R.playlist.R.4", "T.track.B.6"]

/-- The name of a playlist in it that holds the only entry for another. -/
def sharingName : Label where
  text := "Q"
  nonempty := by decide
  wellFormed := by
    intro c hc
    have hc : c ∈ ['Q'] := hc
    rw [List.mem_singleton.1 hc]
    rfl

theorem removeItem_leaves_sharing :
    (sharingStore.rows gappedName.text).Readable ∧
      Rooted gappedName.text (sharingStore.rows gappedName.text).paths ∧
      (∃ p ∈ (sharingStore.rows gappedName.text).paths, p.item = sharingName) ∧
      ∃ removed after gone kept,
        handle ⟨.memory, .never⟩ {} (.removeItem gappedName.text sharingName.text) sharingStore
          = (.ok (.count removed), sharingStore.withRows gappedName.text (Tree.toRows after)) ∧
        removed + (Tree.toRows after).size = (sharingStore.rows gappedName.text).size ∧
        Leaves gappedName sharingName true (sharingStore.rows gappedName.text).paths gone kept
          (Tree.paths after) :=
  have h : (sharingStore.rows gappedName.text).Readable := by decide +kernel
  have hr : Rooted gappedName.text (sharingStore.rows gappedName.text).paths := by decide +kernel
  have hitem : ∃ p ∈ (sharingStore.rows gappedName.text).paths, p.item = sharingName := by
    decide +kernel
  ⟨h, hr, hitem, (removeItem_leaves .memory {} gappedName sharingName h hr).2 hitem⟩

end Service

end Playlists
