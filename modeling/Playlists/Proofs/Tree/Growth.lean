import Playlists.Proofs.Edit.Run
import Playlists.Proofs.Nesting.Relation
import Playlists.Proofs.Tree.Rearrangement
import Playlists.Tree.Growth

/-!
# `Proofs/Tree/Growth.lean` — what a batch of items adds to a tree

Adding a batch is a loop that may stop at any item. `Grown` is its successful runs: from one tree to
another over a list of items, with one path for each. What is kept by adding one path is kept by a
batch (`Grown.keeps`), so everything about batches comes down to `pathFor_eq_ok`, which says all
that is known of the one path that is added.

Only the position of an appended item depends on positions that are there already, and it is behind
all of them (`lt_of_nextPosition`). So its path is new, which that of an item with a position of its
own need not be.
-/

set_option autoImplicit false

namespace Playlists

namespace Tree

variable {t : Tree} {playlist label : String} {p : Path}

/-! ## One more path -/

theorem contains_text_iff : t.contains p.text = true ↔ p ∈ t.paths := by
  rw [KeyedList.contains_iff, paths, List.mem_map]
  constructor
  · intro hex
    obtain ⟨e, he, htext⟩ := hex
    exact ⟨e, he, Path.text_injective htext⟩
  · intro hex
    obtain ⟨e, he, rfl⟩ := hex
    exact ⟨e, he, rfl⟩

theorem mem_paths_put {q : Path} :
    q ∈ paths (t.put (Entry.ofPath p)) ↔ q = p ∨ q ∈ t.paths := by
  rw [paths, paths, List.mem_map, List.mem_map]
  constructor
  · intro hex
    obtain ⟨e, he, rfl⟩ := hex
    rcases KeyedList.mem_put.1 he with rfl | ⟨he, -⟩
    · exact .inl rfl
    · exact .inr ⟨e, he, rfl⟩
  · intro hq
    by_cases hqp : q = p
    · exact ⟨Entry.ofPath p, KeyedList.mem_put.2 (.inl rfl), hqp.symm⟩
    · obtain ⟨e, he, rfl⟩ := hq.resolve_left hqp
      exact ⟨e, KeyedList.mem_put.2 (.inr ⟨he, fun hkey => hqp (Path.text_injective hkey)⟩), rfl⟩

theorem toRows_put (t : Tree) (p : Path) :
    toRows (t.put (Entry.ofPath p)) = t.toRows.put p.text := by
  refine KeyedList.ext_mem fun row => ?_
  rw [mem_toRows, KeyedList.mem_put, mem_toRows]
  constructor
  · intro hex
    obtain ⟨q, hq, rfl⟩ := hex
    by_cases htext : q.text = p.text
    · exact .inl htext
    · refine .inr ⟨⟨q, (mem_paths_put.1 hq).resolve_left fun heq => htext (heq ▸ rfl), rfl⟩, htext⟩
  · intro hrow
    rcases hrow with rfl | ⟨⟨q, hq, rfl⟩, -⟩
    · exact ⟨p, mem_paths_put.2 (.inl rfl), rfl⟩
    · exact ⟨q, mem_paths_put.2 (.inr hq), rfl⟩

theorem agreeing_put (h : t.Agreeing) (p : Path) : Agreeing (t.put (Entry.ofPath p)) := by
  intro e he
  rcases KeyedList.mem_put.1 he with rfl | ⟨he, -⟩
  · rfl
  · exact h e he

theorem storable_put (h : t.Storable) (hp : p.position < UInt64.size) :
    Storable (t.put (Entry.ofPath p)) := by
  intro q hq
  rcases mem_paths_put.1 hq with rfl | hq
  · exact hp
  · exact h q hq

theorem size_put (hp : p ∉ t.paths) : (t.put (Entry.ofPath p)).size = t.size + 1 := by
  refine KeyedList.size_put_of_not_contains fun e he hkey => hp ?_
  have heq : e.path = p := Path.text_injective hkey
  exact heq ▸ mem_paths_of_mem he

/-- A path under the playlist or under a label that is pointed at keeps the tree rooted. -/
theorem rooted_put (h : Rooted playlist t.paths)
    (hp : p.root.text = playlist ∨ ∃ q ∈ t.paths, q.PointsAt p.root.text) :
    Rooted playlist (paths (t.put (Entry.ofPath p))) := by
  intro q hq
  have hroot : q.root.text = playlist ∨ ∃ r ∈ t.paths, r.PointsAt q.root.text := by
    rcases mem_paths_put.1 hq with rfl | hq
    · exact hp
    · exact h q hq
  refine hroot.imp_right fun hex => ?_
  obtain ⟨r, hr, hpoint⟩ := hex
  exact ⟨r, mem_paths_put.2 (.inr hr), hpoint⟩

theorem nests_put_iff {a b : String} : Nests (paths (t.put (Entry.ofPath p))) a b ↔
    Nests t.paths a b ∨ p.root.text = a ∧ p.PointsAt b := by
  constructor
  · intro hex
    obtain ⟨q, hq, hroot, hpoint⟩ := hex
    rcases mem_paths_put.1 hq with rfl | hq
    · exact .inr ⟨hroot, hpoint⟩
    · exact .inl ⟨q, hq, hroot, hpoint⟩
  · intro hab
    rcases hab with ⟨q, hq, hroot, hpoint⟩ | ⟨hroot, hpoint⟩
    · exact ⟨q, mem_paths_put.2 (.inr hq), hroot, hpoint⟩
    · exact ⟨p, mem_paths_put.2 (.inl rfl), hroot, hpoint⟩

/-! ## The path of an item -/

theorem nests_eq_true_iff : t.nests label = true ↔ ∃ p ∈ t.paths, p.PointsAt label := by
  rw [nests, pathsOf, List.any_eq_true]
  refine exists_congr fun p => ?_
  rw [List.mem_filter, beq_iff_eq, beq_iff_eq, Path.PointsAt, and_assoc, and_comm (b := p.kind = _)]

/-- The next position is behind those of all children. -/
theorem lt_of_nextPosition {n : Nat} (hn : t.nextPosition label = .ok n) {e : Entry}
    (he : e ∈ t.childrenOf label) : e.node.position < n := by
  rw [nextPosition, maxChildPosition] at hn
  unfold positionAfter at hn
  split at hn
  · next hnone =>
    rw [List.max?_eq_none_iff, List.map_eq_nil_iff] at hnone
    rw [hnone] at he
    cases he
  · next last hlast =>
    split at hn
    · cases hn
      exact Nat.lt_succ_of_le ((List.max?_eq_some_iff.1 hlast).2 _ (List.mem_map_of_mem he))
    · cases hn

theorem position_lt_of_nextPosition (ha : t.Agreeing)
    (hn : t.nextPosition p.root.text = .ok p.position) {q : Path} (hq : q ∈ t.paths)
    (hroot : q.root.text = p.root.text) : q.position < p.position := by
  obtain ⟨e, he, rfl⟩ := List.mem_map.1 hq
  have hlt := lt_of_nextPosition hn ((mem_childrenOf p.root.dot_not_mem).2 ⟨he, hroot⟩)
  rw [ha e he] at hlt
  exact hlt

/-- A path at the next position is not there yet. -/
theorem not_mem_of_nextPosition (ha : t.Agreeing)
    (hn : t.nextPosition p.root.text = .ok p.position) : p ∉ t.paths :=
  fun hmem => Nat.lt_irrefl _ (position_lt_of_nextPosition ha hn hmem rfl)

theorem checkAcyclic_eq_ok_iff {parent item : String} {kind : Kind} :
    t.checkAcyclic playlist parent kind item = .ok () ↔
      ¬ (kind = .playlist ∧ (t.ancestors playlist parent).contains item = true) := by
  unfold checkAcyclic
  split
  · next hcycle => exact ⟨fun h => (nomatch h), fun h => absurd hcycle h⟩
  · next hfree => exact ⟨fun _ => hfree, fun _ => rfl⟩

theorem checkAcyclic_eq_error_iff {parent item : String} {kind : Kind} {failure : Failure} :
    t.checkAcyclic playlist parent kind item = .error failure ↔
      failure = .cyclicNesting item parent playlist ∧
        kind = .playlist ∧ (t.ancestors playlist parent).contains item = true := by
  unfold checkAcyclic
  split
  · next hcycle => exact ⟨fun h => ⟨(Except.error.inj h).symm, hcycle⟩, fun h => h.1 ▸ rfl⟩
  · next hfree => exact ⟨fun h => (nomatch h), fun h => absurd h.2 hfree⟩

/-- What is known of the path that an item takes. -/
structure Takes (t : Tree) (playlist : String) (explicit : Option UInt64) (item : NewItem)
    (p : Path) : Prop where
  root : p.root.text = item.parent.getD playlist
  kind : p.kind = item.kind
  item : p.item.text = item.id
  position : match explicit with
    | some n => p.position = n.toNat
    | none => t.nextPosition p.root.text = .ok p.position
  rooted : p.root.text = playlist ∨ ∃ q ∈ t.paths, q.PointsAt p.root.text
  acyclic : ¬ (p.kind = .playlist ∧
    (t.ancestors playlist p.root.text).contains p.item.text = true)

theorem pathFor_eq_ok {explicit : Option UInt64} {item : NewItem}
    (h : t.pathFor playlist explicit item = .ok p) : t.Takes playlist explicit item p := by
  rw [pathFor] at h
  split at h
  · next hparent =>
    obtain ⟨_, hcheck, h⟩ := Failure.bind_eq_ok_iff.1 h
    have hacyclic := checkAcyclic_eq_ok_iff.1 hcheck
    have hrooted : item.parent.getD playlist = playlist ∨
        ∃ q ∈ t.paths, q.PointsAt (item.parent.getD playlist) :=
      hparent.imp_right nests_eq_true_iff.1
    cases explicit with
    | some n =>
      obtain ⟨hroot, hkind, hitem, hposition⟩ := Path.create_eq_ok_iff.1 h
      exact ⟨hroot, hkind, hitem, hposition, hroot ▸ hrooted, hroot ▸ hkind ▸ hitem ▸ hacyclic⟩
    | none =>
      obtain ⟨n, hn, h⟩ := Failure.bind_eq_ok_iff.1 h
      obtain ⟨hroot, hkind, hitem, hposition⟩ := Path.create_eq_ok_iff.1 h
      refine ⟨hroot, hkind, hitem, ?_, hroot ▸ hrooted, hroot ▸ hkind ▸ hitem ▸ hacyclic⟩
      exact hroot ▸ hposition ▸ hn
  · cases h

namespace Takes

variable {explicit : Option UInt64} {item : NewItem}

theorem position_lt_size (h : t.Takes playlist explicit item p) : p.position < UInt64.size := by
  have hposition := h.position
  cases explicit with
  | some n => exact hposition ▸ n.toNat_lt_size
  | none => exact (positionAfter_lt_size hposition).2

end Takes

/-! ## A batch -/

/-- Adding `items` one by one to `t` gives them the paths `created` and ends in `grown`. -/
inductive Grown (playlist : String) (explicit : Option UInt64) :
    Tree → List NewItem → List Path → Tree → Prop where
  | nil (t : Tree) : Grown playlist explicit t [] [] t
  | cons {t grown : Tree} {item : NewItem} {items : List NewItem} {p : Path} {created : List Path}
      (first : t.pathFor playlist explicit item = .ok p)
      (rest : Grown playlist explicit (t.put (Entry.ofPath p)) items created grown) :
      Grown playlist explicit t (item :: items) (p :: created) grown

variable {explicit : Option UInt64} {items : List NewItem} {created : List Path} {grown : Tree}

theorem addOne_of_ok {item : NewItem} (h : t.pathFor playlist explicit item = .ok p) :
    addOne playlist explicit item t = .ok p (t.put (Entry.ofPath p)) := by
  rw [addOne, Run.bind_of_ok (Run.get_eq t), h]
  rfl

theorem addOne_of_error {item : NewItem} {failure : Failure}
    (h : t.pathFor playlist explicit item = .error failure) :
    addOne playlist explicit item t = .error failure t := by
  rw [addOne, Run.bind_of_ok (Run.get_eq t), h]
  rfl

theorem outcome_addOne (t : Tree) (item : NewItem) :
    Run.outcome (addOne playlist explicit item t)
      = (t.pathFor playlist explicit item).map fun p => (p, t.put (Entry.ofPath p)) := by
  cases hpath : t.pathFor playlist explicit item with
  | error failure =>
    rw [addOne_of_error hpath]
    rfl
  | ok p =>
    rw [addOne_of_ok hpath]
    rfl

theorem grown_of_mapM (h : items.mapM (addOne playlist explicit) t = .ok created grown) :
    Grown playlist explicit t items created grown := by
  induction items generalizing t created with
  | nil =>
    cases h
    exact .nil _
  | cons item rest ih =>
    rw [List.mapM_cons] at h
    obtain ⟨p, t', hfirst, h⟩ := Run.bind_eq_ok_iff.1 h
    obtain ⟨ps, t'', hrest, h⟩ := Run.bind_eq_ok_iff.1 h
    cases h
    cases hpath : t.pathFor playlist explicit item with
    | error failure =>
      rw [addOne_of_error hpath] at hfirst
      cases hfirst
    | ok q =>
      rw [addOne_of_ok hpath] at hfirst
      cases hfirst
      exact .cons hpath (ih hrest)

/-- Every way to grow is the way a batch is added. -/
theorem Grown.mapM_eq_ok (h : Grown playlist explicit t items created grown) :
    items.mapM (addOne playlist explicit) t = .ok created grown := by
  induction h with
  | nil t => rfl
  | cons first rest ih =>
    rw [List.mapM_cons, Run.bind_of_ok (addOne_of_ok first), Run.bind_of_ok ih]
    rfl

namespace Grown

theorem nil_iff : Grown playlist explicit t [] created grown ↔ created = [] ∧ grown = t := by
  constructor
  · intro h
    cases h
    exact ⟨rfl, rfl⟩
  · rintro ⟨rfl, rfl⟩
    exact .nil _

theorem cons_iff {item : NewItem} : Grown playlist explicit t (item :: items) created grown ↔
    ∃ p later, created = p :: later ∧ t.pathFor playlist explicit item = .ok p ∧
      Grown playlist explicit (t.put (Entry.ofPath p)) items later grown := by
  constructor
  · intro h
    cases h with
    | cons first rest => exact ⟨_, _, rfl, first, rest⟩
  · rintro ⟨p, later, rfl, first, rest⟩
    exact .cons first rest

theorem mem_paths (h : Grown playlist explicit t items created grown) {q : Path} :
    q ∈ grown.paths ↔ q ∈ created ∨ q ∈ t.paths := by
  induction h with
  | nil t => simp
  | cons first rest ih => rw [ih, mem_paths_put, List.mem_cons, ← or_assoc, or_comm (a := q ∈ _)]

theorem length_created (h : Grown playlist explicit t items created grown) :
    created.length = items.length := by
  induction h with
  | nil t => rfl
  | cons first rest ih => rw [List.length_cons, List.length_cons, ih]

/-- The playlists that a batch adds to are part of the tree that it makes. -/
theorem known_root (h : Grown playlist explicit t items created grown) :
    ∀ p ∈ created, p.root.text = playlist ∨ ∃ q ∈ grown.paths, q.PointsAt p.root.text := by
  induction h with
  | nil t => exact fun p hp => absurd hp List.not_mem_nil
  | cons first rest ih =>
    intro p hp
    rcases List.mem_cons.1 hp with rfl | hp
    · refine (pathFor_eq_ok first).rooted.imp_right fun hex => ?_
      obtain ⟨q, hq, hpoint⟩ := hex
      exact ⟨q, rest.mem_paths.2 (.inr (mem_paths_put.2 (.inr hq))), hpoint⟩
    · exact ih p hp

/-- What every accepted path keeps is kept by a batch. -/
theorem keeps {P : Tree → Prop} (h : Grown playlist explicit t items created grown) (ht : P t)
    (step : ∀ t item p, t.Takes playlist explicit item p → P t → P (t.put (Entry.ofPath p))) :
    P grown := by
  induction h with
  | nil t => exact ht
  | cons first rest ih => exact ih (step _ _ _ (pathFor_eq_ok first) ht)

theorem agreeing (h : Grown playlist explicit t items created grown) (ha : t.Agreeing) :
    grown.Agreeing :=
  h.keeps ha fun _ _ p _ ha => agreeing_put ha p

theorem storable (h : Grown playlist explicit t items created grown) (hs : t.Storable) :
    grown.Storable :=
  h.keeps hs fun _ _ _ hp hs => storable_put hs hp.position_lt_size

theorem rooted (h : Grown playlist explicit t items created grown)
    (hr : Rooted playlist t.paths) : Rooted playlist grown.paths :=
  h.keeps (P := fun t => Rooted playlist t.paths) hr fun _ _ _ hp hr => rooted_put hr hp.rooted

theorem size_le (h : Grown playlist explicit t items created grown) :
    grown.size ≤ t.size + items.length := by
  -- At most, since an item may be given the place of an entry that is there.
  have hsub : grown.paths ⊆ created ++ t.paths := fun q hq =>
    List.mem_append.2 (h.mem_paths.1 hq)
  have hle := (List.subperm_of_subset grown.nodup_paths hsub).length_le
  rw [List.length_append, h.length_created, paths, paths, List.length_map, List.length_map,
    Nat.add_comm] at hle
  exact hle

end Grown

end Tree

end Playlists
