import Playlists.Proofs.Nesting.Ancestors

/-!
# `Proofs/Nesting/Cycles.lean` — the check refuses what closes a cycle, and nothing else

A nesting that is asked for is refused if its item is found among the ancestors of its parent. Two
things could be wrong with that. An ancestor that is missed lets a cycle in, and one too many
forbids a playlist to be shared, which is allowed.

`ClosesCycle` says what a cycle is without the search: with the new entry some label would be nested
in itself. Where there is no cycle yet, a new one has to pass through the new entry, so it is enough
to ask for a way back from the item to the parent (`Acyclic.closesCycle_iff`). That way is what the
search follows, up to the entries that nest the playlist itself; where there are none, the search
and the question agree (`Tree.checkAcyclic_exact`).
-/

set_option autoImplicit false

namespace Playlists

open Relation

/-- With one more entry, under `outer` and for the playlist `inner`, some label would be nested in
itself. -/
def ClosesCycle (paths : List Path) (outer inner : String) : Prop :=
  ∃ label, TransGen (fun a b => Nests paths a b ∨ a = outer ∧ b = inner) label label

/-- Where nothing goes round in circles, a new entry closes a cycle exactly when one gets from its
end back to its start. -/
theorem Acyclic.closesCycle_iff {paths : List Path} (ha : Acyclic paths) {outer inner : String} :
    ClosesCycle paths outer inner ↔ outer = inner ∨ TransGen (Nests paths) inner outer := by
  rw [← reflTransGen_iff_eq_or_transGen]
  constructor
  · intro hcloses
    obtain ⟨label, hcycle⟩ := hcloses
    -- A cycle that avoids the new entry was there before.
    rcases transGen_or_through (fun _ _ hstep => hstep) hcycle with hold | ⟨hstart, hend⟩
    · exact absurd hold (ha label)
    · exact hend.trans hstart
  · intro hback
    have hold : ReflTransGen (fun a b => Nests paths a b ∨ a = outer ∧ b = inner) inner outer :=
      ReflTransGen.mono (fun _ _ hstep => .inl hstep) _ _ hback
    exact ⟨inner, .tail' hold (.inr ⟨rfl, rfl⟩)⟩

namespace Tree

variable {t : Tree} {playlist parent : String}

/-- A new entry for the playlist itself, or one that closes a cycle, is what the ancestors of its
parent tell. -/
theorem contains_ancestors_iff_closesCycle (hown : ∀ label, ¬ Nests t.paths label playlist)
    (ha : Acyclic t.paths) {item : String} :
    (t.ancestors playlist parent).contains item = true ↔
      item = playlist ∨ ClosesCycle t.paths parent item := by
  rw [contains_ancestors_iff, holds_eq_nests hown, ha.closesCycle_iff,
    reflTransGen_iff_eq_or_transGen]

/-- **The check for cycles is exact.** The ancestors of a label are the playlist and all labels from
which one gets there without entering the playlist, whatever the entries are. So where nothing nests
the playlist and nothing goes round in circles, those nestings are refused that would nest the
playlist or close a cycle, and no others. -/
theorem checkAcyclic_exact (t : Tree) (playlist parent : String) :
    (∀ label, label ∈ (t.ancestors playlist parent).toList ↔
      label = playlist ∨ ReflTransGen (t.Holds playlist) label parent) ∧
    ((∀ label, ¬ Nests t.paths label playlist) → Acyclic t.paths →
      ∀ (kind : Kind) (item : String),
        (ClosesCycle t.paths parent item ↔
          parent = item ∨ TransGen (Nests t.paths) item parent) ∧
        (t.checkAcyclic playlist parent kind item = .error (.cyclicNesting item parent playlist) ↔
          kind = .playlist ∧ (item = playlist ∨ ClosesCycle t.paths parent item)) ∧
        (t.checkAcyclic playlist parent kind item = .ok () ↔
          ¬ (kind = .playlist ∧ (item = playlist ∨ ClosesCycle t.paths parent item)))) := by
  refine ⟨fun label => ?_, fun hown ha kind item => ⟨ha.closesCycle_iff, ?_, ?_⟩⟩
  · rw [← contains_ancestors_iff, KeyedList.contains_iff]
    simp
  · rw [← contains_ancestors_iff_closesCycle hown ha, checkAcyclic_eq_error_iff,
      and_iff_right rfl]
  · rw [← contains_ancestors_iff_closesCycle hown ha, checkAcyclic_eq_ok_iff]

/-- Rows with a playlist that is nested in two others, one of them inside the other. -/
def sharingRows : Rows :=
  .ofList ["P.playlist.Q.1", "P.playlist.R.2", "Q.playlist.R.1", "Q.track.S.2", "R.playlist.S.1",
    "S.track.A.1"]

/-- The playlist at the bottom may be shared once more, but nothing above it may go into it. -/
theorem checkAcyclic_exact_sharing :
    (∀ label, ¬ Nests sharingRows.tree.paths label "P") ∧ Acyclic sharingRows.tree.paths ∧
      sharingRows.tree.checkAcyclic "P" "S" .playlist "Q"
        = .error (.cyclicNesting "Q" "S" "P") ∧
      sharingRows.tree.checkAcyclic "P" "S" .track "Q" = .ok () ∧
      sharingRows.tree.checkAcyclic "P" "P" .playlist "S" = .ok () := by
  have hpaths : sharingRows.tree.paths = sharingRows.paths := sharingRows.paths_tree
  have hown : ∀ label, ¬ Nests sharingRows.tree.paths label "P" := by
    intro label hnest
    obtain ⟨p, hp, -, hpoint⟩ := hnest
    rw [hpaths] at hp
    exact (show ∀ p ∈ sharingRows.paths, ¬ p.PointsAt "P" by decide +kernel) p hp hpoint
  have ha : Acyclic sharingRows.tree.paths :=
    hpaths ▸ .of_rank (fun label => ["P", "Q", "R", "S"].idxOf label) (by decide +kernel)
  have hstep : ∀ a b, (∃ p ∈ sharingRows.paths, p.root.text = a ∧ p.PointsAt b) →
      Nests sharingRows.tree.paths a b := fun a b hex => hpaths ▸ hex
  have hback : TransGen (Nests sharingRows.tree.paths) "Q" "S" :=
    .tail (.single (hstep "Q" "R" (by decide +kernel))) (hstep "R" "S" (by decide +kernel))
  have hopen : ¬ TransGen (Nests sharingRows.tree.paths) "S" "P" := by
    intro hway
    obtain ⟨label, -, hlast⟩ := TransGen.tail'_iff.1 hway
    exact hown label hlast
  have hbelow := (checkAcyclic_exact sharingRows.tree "P" "S").2 hown ha
  have habove := (checkAcyclic_exact sharingRows.tree "P" "P").2 hown ha .playlist "S"
  refine ⟨hown, ha, ?_, ?_, ?_⟩
  · exact (hbelow .playlist "Q").2.1.2 ⟨rfl, .inr ((hbelow .playlist "Q").1.2 (.inr hback))⟩
  · exact (hbelow .track "Q").2.2.2 fun hrefused => nomatch hrefused.1
  · refine habove.2.2.2 fun hrefused => ?_
    rcases hrefused.2 with hself | hcloses
    · exact absurd hself (by decide)
    · rcases habove.1.1 hcloses with hsame | hway
      · exact absurd hsame (by decide)
      · exact hopen hway

end Tree

end Playlists
