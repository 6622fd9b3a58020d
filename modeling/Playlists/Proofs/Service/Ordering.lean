import Playlists.Proofs.Operation.Claiming
import Playlists.Proofs.Service.WriteBack

/-!
# `Proofs/Service/Ordering.lean` — what a new order does to the rows

A request for a new order mentions items, and a playlist may hold several entries of one item, also
as a track and as a nested playlist. `setOrder_claims_in_turn` says in full what comes of it: which
entry each mention claims, where the others go, and which mention is at fault if there is one. The
rows are the entries of the playlist at their new positions together with all nested rows, which
nothing happens to. They need not lead anywhere for that.

In between the rows go through the tree and back, and a row may come to where another one has been.
-/

set_option autoImplicit false

namespace Playlists

/-- The entries of a playlist itself in the order they are played. -/
def Store.entries (s : Store) (playlist : Label) : List Path :=
  Path.siblings (s.rows playlist.text).paths playlist

namespace Tree

variable {t : Tree} {parent : Label}

/-- The rows of a reordered tree are the numbered children and what stands elsewhere. -/
theorem mem_toRows_reordered {ordered : List Path}
    (hperm : (ordered.map Entry.ofPath).Perm (t.siblings parent.text)) {row : String} :
    row ∈ (t.reordered (ordered.map Entry.ofPath)).toRows.toList ↔
      row ∈ (Path.numbered ordered).map Path.text ∨
        ∃ p ∈ t.paths, p.root ≠ parent ∧ p.text = row := by
  have hroot : ∀ p : Path, p.root ≠ parent ↔ p.root.text ≠ parent.text := fun p =>
    not_congr ⟨congrArg Label.text, Label.ext_text⟩
  rw [mem_toRows, ← map_path_numbered, List.map_map, List.mem_map]
  simp only [paths, List.mem_map, hroot, mem_reordered parent.dot_not_mem hperm]
  constructor
  · rintro ⟨p, ⟨e, ⟨s, hs, rfl⟩ | ⟨he, hne⟩, rfl⟩, rfl⟩
    · exact .inl ⟨s, hs, rfl⟩
    · exact .inr ⟨e.path, ⟨e, he, rfl⟩, hne, rfl⟩
  · rintro (⟨s, hs, rfl⟩ | ⟨p, ⟨e, he, rfl⟩, hne, rfl⟩)
    · exact ⟨s.2.path, ⟨s.2, .inl ⟨s, hs, rfl⟩, rfl⟩, rfl⟩
    · exact ⟨e.path, ⟨e, .inr ⟨he, hne⟩, rfl⟩, rfl⟩

end Tree

namespace Service

open Operation

variable {s : Store}

/-- What a new order comes to is decided by what the mentions claim. -/
theorem handle_setOrder (d : Dialect) (config : Config) (playlist : Label)
    (h : (s.rows playlist.text).Readable) (items : List String) :
    handle ⟨d, .never⟩ config (.setOrder playlist.text items) s
      = s.answer playlist.text ((arrange playlist.text [] (s.entries playlist) items).map
          fun ordered => (.done, (s.rows playlist.text).tree.reordered
            (ordered.map Entry.ofPath))) := by
  have ha := (s.rows playlist.text).agreeing_tree
  rw [handle_eq_answer (r := .setOrder playlist.text items) d rfl h fun hmoves => (nomatch hmoves)]
  show s.answer playlist.text ((rearrange playlist items _).map _) = _
  rw [rearrange_eq ha, Tree.map_path_siblings ha, Rows.paths_tree, ← Store.entries]
  cases arrange playlist.text [] (s.entries playlist) items with
  | error failure => rfl
  | ok ordered => rfl

/-- **A new order does exactly what it promises.** It is refused if some item is mentioned more often
than the playlist has entries of it, for the first mention that is one too many, and nothing changes
then. Otherwise mentions of one item claim its entries in turn. The claimed entries take the first
positions in the order of the mentions, all others follow in the order they were in, and rows under
other labels stay as they are. -/
theorem setOrder_claims_in_turn (d : Dialect) (config : Config) (playlist : Label)
    (h : (s.rows playlist.text).Readable) (items : List String) :
    (Claimable (s.entries playlist) items →
      ∃ claimed others after, Claims (s.entries playlist) items claimed others ∧
        handle ⟨d, .never⟩ config (.setOrder playlist.text items) s
          = (.ok .done, s.withRows playlist.text after) ∧
        ∀ row, row ∈ after.toList ↔ row ∈ (Path.numbered (claimed ++ others)).map Path.text ∨
          ∃ p ∈ (s.rows playlist.text).paths, p.root ≠ playlist ∧ p.text = row) ∧
    (¬ Claimable (s.entries playlist) items →
      ∃ front item rest, items = front ++ item :: rest ∧
        Claimable (s.entries playlist) front ∧
        ¬ Claimable (s.entries playlist) (front ++ [item]) ∧
        handle ⟨d, .never⟩ config (.setOrder playlist.text items) s
          = (.error (refusal playlist.text (s.entries playlist) item), s)) := by
  have ha := (s.rows playlist.text).agreeing_tree
  have hnodup : (s.entries playlist).Nodup := Path.nodup_siblings (Rows.nodup_paths _)
  obtain ⟨hyes, hno⟩ := arrange_claims playlist.text hnodup items
  constructor
  · intro hclaimable
    obtain ⟨claimed, others, hclaims, harrange⟩ := hyes hclaimable
    refine ⟨claimed, others, Tree.toRows ((s.rows playlist.text).tree.reordered
      ((claimed ++ others).map Entry.ofPath)), hclaims, ?_, fun row => ?_⟩
    · rw [handle_setOrder d config playlist h items, harrange]
      rfl
    · rw [← Rows.paths_tree]
      refine Tree.mem_toRows_reordered ?_
      rw [Tree.siblings_eq_map ha, Rows.paths_tree]
      exact hclaims.perm.map Entry.ofPath
  · intro hnot
    obtain ⟨front, item, rest, hitems, hfront, hitem, harrange⟩ := hno hnot
    refine ⟨front, item, rest, hitems, hfront, hitem, ?_⟩
    rw [handle_setOrder d config playlist h items, harrange]
    rfl

/-- A playlist with an item that is a track twice and a playlist once, with equal positions, gaps and
rows that nothing leads to. -/
def repeatedStore : Store :=
  .seed .empty "P" ["P.track.A.3", "P.playlist.A.2", "P.track.B.2", "P.track.A.10", "P.track.C.1",
    "A.track.A.5", "O.track.B.1"]

/-- The last entry for `A` comes to where the one before it was. -/
theorem setOrder_claims_in_turn_repeated :
    (repeatedStore.rows gappedName.text).Readable ∧
      Claimable (repeatedStore.entries gappedName) ["A", "A", "A", "B"] ∧
      ∃ claimed others after,
        Claims (repeatedStore.entries gappedName) ["A", "A", "A", "B"] claimed others ∧
        handle ⟨.relational, .never⟩ {} (.setOrder gappedName.text ["A", "A", "A", "B"])
            repeatedStore = (.ok .done, repeatedStore.withRows gappedName.text after) ∧
        ∀ row, row ∈ after.toList ↔ row ∈ (Path.numbered (claimed ++ others)).map Path.text ∨
          ∃ p ∈ (repeatedStore.rows gappedName.text).paths, p.root ≠ gappedName ∧ p.text = row :=
  have h : (repeatedStore.rows gappedName.text).Readable := by decide +kernel
  have hclaimable : Claimable (repeatedStore.entries gappedName) ["A", "A", "A", "B"] :=
    .of_perm (Path.siblings_perm _ _).symm (by decide +kernel)
  ⟨h, hclaimable, (setOrder_claims_in_turn .relational {} gappedName h _).1 hclaimable⟩

end Service

end Playlists
