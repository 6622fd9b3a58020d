import Mathlib.Data.List.Perm.Subperm
import Playlists.Proofs.Tree.Growth
import Playlists.Proofs.Tree.Reordering

/-!
# `Proofs/Tree/Spacing.lean` — siblings at positions of their own

Nothing keeps a request from giving an item the position of a sibling, and two entries at one
position are then ordered by their rows. Where nobody gives positions, no two siblings share one:
`Spaced`. Positions come from three places, and each of them looks at tracks and nested playlists
alike:

* an appended entry comes behind all of its siblings (`spaced_put`);
* numbering afresh counts each group of siblings (`spaced_rebalance`);
* an order that was asked for counts one group and leaves the others alone (`spaced_reordered`).

Whatever is removed, the rest stays as it is (`Spaced.anti`). Siblings at positions of their own are no
more than there are positions, so they can always be numbered afresh (`numerable_of_spaced`).
-/

set_option autoImplicit false

namespace Playlists

/-- Paths under one label are at different positions, and all positions are counted from one. -/
structure Spaced (paths : List Path) : Prop where
  one_le : ∀ p ∈ paths, 1 ≤ p.position
  eq_of_position : ∀ p ∈ paths, ∀ q ∈ paths, p.root = q.root → p.position = q.position → p = q

theorem Spaced.nil : Spaced [] where
  one_le _ hp := absurd hp List.not_mem_nil
  eq_of_position _ hp := absurd hp List.not_mem_nil

theorem Spaced.anti {paths paths' : List Path} (h : Spaced paths)
    (hsub : ∀ p ∈ paths', p ∈ paths) : Spaced paths' where
  one_le p hp := h.one_le p (hsub p hp)
  eq_of_position p hp q hq := h.eq_of_position p (hsub p hp) q (hsub q hq)

namespace Tree

variable {t grown : Tree} {playlist : String} {p : Path}

/-- An entry behind its siblings is at a position of its own. -/
theorem spaced_put (h : Spaced t.paths) (ha : t.Agreeing)
    (hn : t.nextPosition p.root.text = .ok p.position) :
    Spaced (paths (t.put (Entry.ofPath p))) where
  one_le q hq := by
    rcases mem_paths_put.1 hq with rfl | hq
    · exact (positionAfter_lt_size hn).1
    · exact h.one_le q hq
  eq_of_position q hq r hr hroot hposition := by
    have hbehind : ∀ q ∈ t.paths, q.root = p.root → q.position ≠ p.position := fun q hq hroot =>
      Nat.ne_of_lt (position_lt_of_nextPosition ha hn hq (congrArg Label.text hroot))
    rcases mem_paths_put.1 hq with hqp | hqt
    · rcases mem_paths_put.1 hr with hrp | hrt
      · exact hqp.trans hrp.symm
      · rw [hqp] at hroot hposition
        exact absurd hposition.symm (hbehind r hrt hroot.symm)
    · rcases mem_paths_put.1 hr with hrp | hrt
      · rw [hrp] at hroot hposition
        exact absurd hposition (hbehind q hqt hroot)
      · exact h.eq_of_position q hqt r hrt hroot hposition

theorem Grown.spaced {items : List NewItem} {created : List Path}
    (h : Grown playlist none t items created grown) (ha : t.Agreeing) (hs : Spaced t.paths) :
    Spaced grown.paths := by
  have hboth : grown.Agreeing ∧ Spaced grown.paths :=
    h.keeps (P := fun t => t.Agreeing ∧ Spaced t.paths) ⟨ha, hs⟩ fun _ _ p hp ht =>
      ⟨agreeing_put ht.1 p, spaced_put ht.2 ht.1 hp.position⟩
  exact hboth.2

/-- Numbered entries are told apart by their positions. -/
theorem eq_of_position_numbered {l : List Entry} {s s' : Entry × Entry} (hs : s ∈ numbered l)
    (hs' : s' ∈ numbered l) (h : s.2.path.position = s'.2.path.position) : s = s' :=
  List.inj_on_of_nodup_map (nodup_position_numbered l) hs hs' h

/-- Whatever the positions were, numbering afresh tells all siblings apart. -/
theorem spaced_rebalance (t : Tree) : Spaced t.rebalance.1.paths where
  one_le _ hp := (position_of_mem_rebalance hp).1
  eq_of_position p hp q hq hroot hposition := by
    obtain ⟨s, hs, rfl⟩ := exists_numbered_of_mem_rebalance hp
    obtain ⟨s', hs', rfl⟩ := exists_numbered_of_mem_rebalance hq
    rw [hroot] at hs
    rw [eq_of_position_numbered hs hs' hposition]

theorem spaced_balanced (h : Spaced t.paths) (rebalance : Bool) :
    Spaced (t.balanced rebalance).1.paths := by
  cases rebalance with
  | true => exact t.spaced_rebalance
  | false => exact h

/-- Numbering the children of one playlist in a new order disturbs no other group. -/
theorem spaced_reordered {parent : String} {entries : List Entry} (hs : Spaced t.paths)
    (h : '.' ∉ parent.toList) (hperm : entries.Perm (t.siblings parent)) :
    Spaced (t.reordered entries).paths where
  one_le p hp := by
    rcases mem_paths_reordered h hperm hp with ⟨-, s, hnum, rfl⟩ | ⟨-, hold⟩
    · exact (position_of_mem_numbered hnum).1
    · exact hs.one_le p hold
  eq_of_position p hp q hq hroot hposition := by
    rcases mem_paths_reordered h hperm hp with ⟨hparent, s, hnum, rfl⟩ | ⟨hother, hold⟩
    · rcases mem_paths_reordered h hperm hq with ⟨-, s', hnum', rfl⟩ | ⟨hother, -⟩
      · rw [eq_of_position_numbered hnum hnum' hposition]
      · exact absurd (hroot ▸ hparent) hother
    · rcases mem_paths_reordered h hperm hq with ⟨hparent, -⟩ | ⟨-, hold'⟩
      · exact absurd (hroot.symm ▸ hparent) hother
      · exact hs.eq_of_position p hold q hold' hroot hposition

theorem nodup_position_siblings {paths : List Path} (hs : Spaced paths) (hnodup : paths.Nodup)
    (label : Label) : ((Path.siblings paths label).map Path.position).Nodup := by
  refine List.Nodup.map_on (fun p hp q hq heq => ?_) (Path.nodup_siblings hnodup)
  obtain ⟨hp, hroot⟩ := Path.mem_siblings.1 hp
  obtain ⟨hq, hroot'⟩ := Path.mem_siblings.1 hq
  exact hs.eq_of_position p hp q hq (hroot.trans hroot'.symm) heq

/-- Siblings at different positions are fewer than all the words there are. -/
theorem numerable_of_spaced (ha : t.Agreeing) (hword : t.Storable) (hs : Spaced t.paths) :
    t.Numerable := by
  intro label
  -- Position zero is not used, so even a full label leaves one word over.
  have hpositions : (Path.siblings t.paths label).map Path.position
      ⊆ List.range' 1 (UInt64.size - 1) := by
    intro n hn
    obtain ⟨p, hp, rfl⟩ := List.mem_map.1 hn
    have hp := (Path.mem_siblings.1 hp).1
    have hlow := hs.one_le p hp
    have hhigh := hword p hp
    exact List.mem_range'_1.2 ⟨hlow, by omega⟩
  have hcount := ((nodup_position_siblings hs t.nodup_paths label).subperm hpositions).length_le
  rw [List.length_map, List.length_range', ← map_path_siblings ha, List.length_map] at hcount
  exact Nat.lt_of_le_pred (by decide) hcount

end Tree

end Playlists
