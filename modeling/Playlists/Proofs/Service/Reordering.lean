import Playlists.Proofs.Service.Ordering
import Playlists.Proofs.Tree.Normalisation

/-!
# `Proofs/Service/Reordering.lean` — an order that was given once is there to stay

A new order changes the positions by which the next one finds its entries. All the same it can be
given again: the entries that were claimed stand at the front afterwards, in the order of the
mentions, and the first entry of an item that is still there is then the one in front
(`Operation.arrange_front`). So the second order asks for the order that there is, and the children
are numbered already (`Tree.reordered_eq_self`).

For the same reason the full sequence of a playlist, as it is played, asks for nothing but positions
without gaps, and what numbering everything afresh does to this one playlist is just that.
-/

set_option autoImplicit false

namespace Playlists

theorem Path.map_item_numbered (paths : List Path) :
    (numbered paths).map (·.item.text) = paths.map (·.item.text) := by
  have hitem : (numbered paths).map (·.item.text)
      = ((paths.zipIdx 1).map Prod.fst).map (·.item.text) := by
    rw [numbered, List.map_map, List.map_map]
    rfl
  rw [hitem, List.zipIdx_map_fst]

namespace Operation

/-- Items that are mentioned in the order of the paths in front claim just these, also where an item
comes more than once. -/
theorem arrange_front (playlist : String) (claimed front rest : List Path) :
    arrange playlist claimed (front ++ rest) (front.map (·.item.text))
      = .ok (claimed ++ front ++ rest) := by
  induction front generalizing claimed with
  | nil =>
    rw [List.append_nil]
    rfl
  | cons p front ih =>
    have hclaim : claim? p.item.text (p :: (front ++ rest)) = some (p, front ++ rest) := by
      rw [claim?, if_pos rfl]
    rw [List.map_cons, List.cons_append, arrange, hclaim]
    refine (ih (claimed ++ [p])).trans ?_
    rw [List.append_assoc claimed [p] front]
    rfl

/-- What is arranged are the paths that are claimed, and behind them those that nobody claims. -/
theorem claims_of_arrange {playlist : String} {current ordered : List Path} {items : List String}
    (hnodup : current.Nodup) (h : arrange playlist [] current items = .ok ordered) :
    ∃ claimed others, Claims current items claimed others ∧ claimed ++ others = ordered := by
  rcases arrange_cases playlist (.start current) hnodup items with
    ⟨claimed, others, hclaims, harrange⟩ | ⟨lead, item, rest, -, -, -, hrefused⟩
  · rw [h] at harrange
    exact ⟨claimed, others, hclaims, (Except.ok.inj harrange).symm⟩
  · rw [h] at hrefused
    cases hrefused

/-- Mentions that have been answered are answered alike in the order that came of it. -/
theorem Claims.arrange_again {current claimed others : List Path} {items : List String}
    (h : Claims current items claimed others) (playlist : String) :
    arrange playlist [] (Path.numbered (claimed ++ others)) items
      = .ok (Path.numbered (claimed ++ others)) := by
  have hfront : ((Path.numbered (claimed ++ others)).take claimed.length).map (·.item.text)
      = items := by
    rw [List.map_take, Path.map_item_numbered, ← List.map_take, List.take_left, h.mentions]
  have hagain := arrange_front playlist [] ((Path.numbered (claimed ++ others)).take claimed.length)
    ((Path.numbered (claimed ++ others)).drop claimed.length)
  rw [hfront, List.take_append_drop, List.nil_append, List.take_append_drop] at hagain
  exact hagain

end Operation

namespace Tree

variable {t : Tree} {parent : Label} {ordered : List Path}

/-- Children that stand at the positions one to n already stay where they are. -/
theorem reordered_eq_self (ha : t.Agreeing)
    (hdense : (t.siblings parent.text).map (·.path.position)
      = List.range' 1 (t.siblings parent.text).length) :
    t.reordered (t.siblings parent.text) = t := by
  have hstay := numbered_eq_self
    (fun e he => ha e ((mem_siblings parent.dot_not_mem).1 he).1) hdense
  refine KeyedList.ext_mem fun e => ?_
  rw [mem_reordered parent.dot_not_mem (.refl _), hstay]
  constructor
  · rintro (⟨s, hs, rfl⟩ | ⟨he, -⟩)
    · obtain ⟨e, he, rfl⟩ := List.mem_map.1 hs
      exact ((mem_siblings parent.dot_not_mem).1 he).1
    · exact he
  · intro he
    by_cases hroot : e.path.root.text = parent.text
    · have hsib := (mem_siblings parent.dot_not_mem).2 ⟨he, hroot⟩
      exact .inl ⟨(e, e), List.mem_map_of_mem hsib, rfl⟩
    · exact .inr ⟨he, hroot⟩

/-- Few enough children can be put into any order without running out of positions. -/
theorem storable_reordered (hs : t.Storable)
    (hperm : (ordered.map Entry.ofPath).Perm (t.siblings parent.text))
    (hcount : ordered.length < UInt64.size) :
    (t.reordered (ordered.map Entry.ofPath)).Storable := by
  intro p hp
  rcases mem_paths_reordered parent.dot_not_mem hperm hp with ⟨-, s, hs, rfl⟩ | ⟨-, hold⟩
  · have hle := (position_of_mem_numbered hs).2
    rw [List.length_map] at hle
    exact Nat.lt_of_le_of_lt hle hcount
  · exact hs p hold

theorem path_siblings_reordered (ha : t.Agreeing)
    (hperm : (ordered.map Entry.ofPath).Perm (t.siblings parent.text)) :
    Path.siblings (t.reordered (ordered.map Entry.ofPath)).paths parent
      = Path.numbered ordered := by
  have ha' := (rearranges_reordered parent.dot_not_mem hperm).agreeing ha
  rw [← map_path_siblings ha', siblings_reordered_self parent.dot_not_mem hperm, List.map_map]
  exact map_path_numbered ordered

end Tree

namespace Service

open Operation

variable {s : Store} {playlist : Label} {ordered : List Path}

/-- The entries of a playlist are the children that its tree has under the name of the playlist. -/
theorem map_ofPath_entries (s : Store) (playlist : Label) : (s.entries playlist).map Entry.ofPath
    = (s.rows playlist.text).tree.siblings playlist.text := by
  rw [Tree.siblings_eq_map (Rows.agreeing_tree _), Rows.paths_tree]
  rfl

/-- The rows that an accepted order leaves can be read, and list the entries as they were asked
for. -/
theorem rows_reordered (hperm : ordered.Perm (s.entries playlist))
    (hcount : (s.entries playlist).length < UInt64.size) :
    Rows.Readable ((s.rows playlist.text).tree.reordered (ordered.map Entry.ofPath)).toRows ∧
      Path.siblings (Rows.paths ((s.rows playlist.text).tree.reordered
        (ordered.map Entry.ofPath)).toRows) playlist = Path.numbered ordered := by
  have ha := (s.rows playlist.text).agreeing_tree
  have hsiblings : (ordered.map Entry.ofPath).Perm
      ((s.rows playlist.text).tree.siblings playlist.text) :=
    map_ofPath_entries s playlist ▸ hperm.map Entry.ofPath
  have hword := Tree.storable_reordered (s.rows playlist.text).storable_tree hsiblings
    (hperm.length_eq ▸ hcount)
  refine ⟨Tree.readable_toRows hword, ?_⟩
  rw [Tree.paths_toRows hword]
  exact Tree.path_siblings_reordered ha hsiblings

/-- An order that a playlist is in already, without gaps, writes the rows that there are. -/
theorem handle_setOrder_settled (d : Dialect) (config : Config)
    (h : (s.rows playlist.text).Readable) {items : List String}
    (hsettled : s.entries playlist = Path.numbered ordered)
    (harrange : arrange playlist.text [] (s.entries playlist) items = .ok (s.entries playlist)) :
    handle ⟨d, .never⟩ config (.setOrder playlist.text items) s
      = (.ok .done, s.withRows playlist.text (s.rows playlist.text)) := by
  have ha := (s.rows playlist.text).agreeing_tree
  have hdense : ((s.rows playlist.text).tree.siblings playlist.text).map (·.path.position)
      = List.range' 1 ((s.rows playlist.text).tree.siblings playlist.text).length := by
    rw [← map_ofPath_entries, hsettled, List.map_map, List.length_map]
    exact Path.map_position_numbered ordered
  rw [handle_setOrder d config playlist h items, harrange]
  show (_, s.withRows playlist.text (Tree.toRows ((s.rows playlist.text).tree.reordered
    ((s.entries playlist).map Entry.ofPath)))) = _
  rw [map_ofPath_entries, Tree.reordered_eq_self ha hdense, h.tree_toRows]

/-- **An order that was given once is there to stay.** Whatever items an order mentions, also the
same one several times and one that is a track and a nested playlist: if it is accepted it is
accepted again, and the second time no row changes. The full sequence of a playlist, as it is
played, is always accepted, and the rows are then those that numbering everything afresh gives this
playlist, and those under other labels as they were. There have to be positions for all entries. -/
theorem setOrder_settles (d : Dialect) (config : Config) (playlist : Label) {s : Store}
    (h : (s.rows playlist.text).Readable) (hcount : (s.entries playlist).length < UInt64.size) :
    (∀ items response after,
      handle ⟨d, .never⟩ config (.setOrder playlist.text items) s = (.ok response, after) →
      handle ⟨d, .never⟩ config (.setOrder playlist.text items) after = (.ok response, after)) ∧
    ∃ after, handle ⟨d, .never⟩ config
        (.setOrder playlist.text ((s.entries playlist).map (·.item.text))) s
        = (.ok .done, s.withRows playlist.text after) ∧
      Path.siblings after.paths playlist = Path.numbered (s.entries playlist) ∧
      ∀ row, row ∈ after.toList ↔
        (∃ p ∈ (s.rows playlist.text).tree.rebalance.1.paths, p.root = playlist ∧ p.text = row) ∨
        ∃ p ∈ (s.rows playlist.text).paths, p.root ≠ playlist ∧ p.text = row := by
  have hnodup : (s.entries playlist).Nodup := Path.nodup_siblings (Rows.nodup_paths _)
  constructor
  · intro items response after hfirst
    rw [handle_setOrder d config playlist h items, Store.answer_eq_ok_iff] at hfirst
    obtain ⟨tree, houtcome, rfl⟩ := hfirst
    obtain ⟨ordered, harrange, heq⟩ := Failure.map_eq_ok_iff.1 houtcome
    cases heq
    obtain ⟨claimed, others, hclaims, rfl⟩ := claims_of_arrange hnodup harrange
    -- The first order leaves its claims numbered at the front, where the second finds them again.
    obtain ⟨hread, hentries⟩ := rows_reordered hclaims.perm hcount
    have hrows := s.rows_withRows_self playlist.text (Tree.toRows
      ((s.rows playlist.text).tree.reordered ((claimed ++ others).map Entry.ofPath)))
    rw [← hrows] at hread hentries
    have hagain := hclaims.arrange_again playlist.text
    rw [← hentries] at hagain
    rw [handle_setOrder_settled d config hread hentries hagain, hrows, Store.withRows_withRows]
  · have hfull := arrange_front playlist.text [] (s.entries playlist) []
    rw [List.append_nil, List.nil_append, List.append_nil] at hfull
    refine ⟨Tree.toRows ((s.rows playlist.text).tree.reordered
      ((s.entries playlist).map Entry.ofPath)), ?_, ?_, fun row => ?_⟩
    · rw [handle_setOrder d config playlist h, hfull]
      rfl
    · exact (rows_reordered (.refl _) hcount).2
    · have ha := (s.rows playlist.text).agreeing_tree
      rw [Tree.mem_toRows_reordered (.of_eq (map_ofPath_entries s playlist)), Rows.paths_tree,
        List.mem_map]
      have hnumbered : Path.numbered (s.entries playlist)
          = Path.siblings (s.rows playlist.text).tree.rebalance.1.paths playlist := by
        rw [Tree.path_siblings_rebalance ha, Rows.paths_tree]
        rfl
      simp only [hnumbered, Path.mem_siblings, and_assoc]

/-- Two entries of one item change places with a third, and stay there. -/
theorem setOrder_settles_repeated :
    (repeatedStore.rows gappedName.text).Readable ∧
      (repeatedStore.entries gappedName).length < UInt64.size ∧
      (∃ after, handle ⟨.relational, .never⟩ {} (.setOrder gappedName.text ["A", "C", "A"])
          repeatedStore = (.ok .done, after) ∧
        handle ⟨.relational, .never⟩ {} (.setOrder gappedName.text ["A", "C", "A"]) after
          = (.ok .done, after)) ∧
      ∃ after, handle ⟨.relational, .never⟩ {} (.setOrder gappedName.text
          ((repeatedStore.entries gappedName).map (·.item.text))) repeatedStore
        = (.ok .done, repeatedStore.withRows gappedName.text after) := by
  have h : (repeatedStore.rows gappedName.text).Readable := by decide +kernel
  have hcount : (repeatedStore.entries gappedName).length < UInt64.size :=
    (Path.siblings_perm _ _).length_eq ▸ by decide +kernel
  have hclaimable : Claimable (repeatedStore.entries gappedName) ["A", "C", "A"] :=
    .of_perm (Path.siblings_perm _ _).symm (by decide +kernel)
  have hnodup : (repeatedStore.entries gappedName).Nodup :=
    Path.nodup_siblings (Rows.nodup_paths _)
  obtain ⟨claimed, others, -, harrange⟩ := (arrange_claims gappedName.text hnodup _).1 hclaimable
  have hfirst := handle_setOrder .relational {} gappedName h ["A", "C", "A"]
  rw [harrange] at hfirst
  obtain ⟨hagain, after, hfull, -⟩ := setOrder_settles .relational {} gappedName h hcount
  exact ⟨h, hcount, ⟨_, hfirst, hagain _ _ _ hfirst⟩, after, hfull⟩

end Service

end Playlists
