import Mathlib.Data.Option.Basic
import Playlists.Proofs.Nesting.Ancestors
import Playlists.Proofs.Operation.Remove
import Playlists.Proofs.Tree.Outline

/-!
# `Proofs/Operation/Alike.lean` — operations on trees that are alike

What is done to a playlist looks at positions in two ways only: it puts children into their order,
and it asks for the position behind the last. The first gives the same on trees that are alike, and
the second gives some position on each of them, as long as there are positions left. So operations
on alike trees are refused for the same causes and otherwise end in alike trees, whether or not they
number anything afresh (`enlarge_both`, `extend_both`, `rearrange_both`, `reduce_both`).

`Paired n` adds to alike trees what keeps positions from running out: both have at most `n` entries
and no position beyond `n`.
-/

set_option autoImplicit false

namespace Playlists

open Failure (Both)

namespace Path

variable {p q r : Path}

theorem sameEntry_symm (h : p.sameEntry q = true) : q.sameEntry p = true := by
  obtain ⟨hroot, hkind, hitem⟩ := sameEntry_iff.1 h
  exact sameEntry_iff.2 ⟨hroot.symm, hkind.symm, hitem.symm⟩

theorem sameEntry_trans (h : p.sameEntry q = true) (h' : q.sameEntry r = true) :
    p.sameEntry r = true := by
  obtain ⟨hroot, hkind, hitem⟩ := sameEntry_iff.1 h
  obtain ⟨hroot', hkind', hitem'⟩ := sameEntry_iff.1 h'
  exact sameEntry_iff.2 ⟨hroot.trans hroot', hkind.trans hkind', hitem.trans hitem'⟩

theorem create_both (root : String) (kind : Kind) (item : String) (m n : Nat) :
    Both (fun p q => p.sameEntry q = true) (create root kind item m) (create root kind item n) := by
  refine .bind (.refl _) fun r r' _ _ hr => .bind (.refl _) fun i i' _ _ hi => .ok ?_
  exact sameEntry_iff.2 ⟨hr, rfl, hi⟩

end Path

/-- Paths that name the same entries, one by one. -/
abbrev SameEntries (paths paths' : List Path) : Prop :=
  List.Forall₂ (fun p q => p.sameEntry q = true) paths paths'

theorem SameEntries.map_eq {paths paths' : List Path} (h : SameEntries paths paths') :
    paths.map (fun p => (p.kind, p.item)) = paths'.map fun p => (p.kind, p.item) := by
  rw [← List.forall₂_eq_eq_eq, List.forall₂_map_left_iff, List.forall₂_map_right_iff]
  refine h.imp fun p q hpq => ?_
  rw [(Path.sameEntry_iff.1 hpq).2.1, (Path.sameEntry_iff.1 hpq).2.2]

namespace Tree

/-- There are at most `n` entries, and no position beyond `n`. -/
structure Within (n : Nat) (t : Tree) : Prop where
  size_le : t.size ≤ n
  position_le : ∀ p ∈ t.paths, p.position ≤ n

/-- Alike trees within bounds. -/
structure Paired (n : Nat) (t t' : Tree) : Prop where
  alike : t.Alike t'
  agreeing : t.Agreeing
  agreeing' : t'.Agreeing
  within : t.Within n
  within' : t'.Within n

variable {n m : Nat} {t t' after : Tree} {playlist : String} {p : Path}

theorem Within.mono (h : t.Within n) (hle : n ≤ m) : t.Within m where
  size_le := Nat.le_trans h.size_le hle
  position_le p hp := Nat.le_trans (h.position_le p hp) hle

/-- Other positions stay within bounds, if they are old ones or count entries. -/
theorem Within.rearranged (h : t.Within n) {steps : List (Entry × Entry)}
    (hsteps : t.Rearranges after steps)
    (hposition : ∀ p ∈ after.paths, p ∈ t.paths ∨ p.position ≤ (t.siblings p.root.text).length) :
    after.Within n where
  size_le := hsteps.size_eq ▸ h.size_le
  position_le p hp := (hposition p hp).elim (h.position_le p) fun hle =>
    Nat.le_trans hle ((t.length_siblings_le _).trans h.size_le)

theorem Within.rebalance (h : t.Within n) : t.rebalance.1.Within n :=
  h.rearranged t.rearranges_rebalance fun _ hp => .inr (position_of_mem_rebalance hp).2

theorem Within.filter (h : t.Within n) (f : Entry → Bool) : Within n (t.filter f) where
  size_le := Nat.le_trans (List.length_filter_le _ _) h.size_le
  position_le p hp := by
    obtain ⟨e, he, rfl⟩ := List.mem_map.1 hp
    exact h.position_le _ (mem_paths_of_mem (KeyedList.mem_filter.1 he).1)

/-- There is a next position, and it goes beyond the bound by one at most. -/
theorem Within.nextPosition_eq_ok (h : t.Within n) (ha : t.Agreeing) (hroom : n + 1 < UInt64.size)
    (label : String) : ∃ m, t.nextPosition label = .ok m ∧ m ≤ n + 1 := by
  rw [nextPosition]
  cases hlast : t.maxChildPosition label with
  | none => exact ⟨1, rfl, Nat.le_add_left 1 n⟩
  | some last =>
    obtain ⟨e, he, rfl⟩ := List.mem_map.1 (List.max?_mem hlast)
    have hmem := mem_of_mem_childrenOf he
    -- The last position is that of an entry, so it is at most `n` and one more still fits.
    have hle := h.position_le _ (mem_paths_of_mem hmem)
    have hnode : e.node.position = e.path.position := congrArg (·.node.position) (ha e hmem)
    refine ⟨e.node.position + 1, if_pos ?_, ?_⟩
    · omega
    · omega

namespace Paired

theorem symm (h : Paired n t t') : Paired n t' t :=
  ⟨h.alike.symm, h.agreeing', h.agreeing, h.within', h.within⟩

theorem mono (h : Paired n t t') (hle : n ≤ m) : Paired m t t' :=
  ⟨h.alike, h.agreeing, h.agreeing', h.within.mono hle, h.within'.mono hle⟩

theorem rearranges (h : Paired n t t') : t.Rearranges t' (pairing t t') :=
  h.alike.rearranges h.agreeing'

theorem size_eq (h : Paired n t t') : t.size = t'.size :=
  h.rearranges.size_eq

theorem nests_eq (h : Paired n t t') (label : String) : t.nests label = t'.nests label := by
  rw [Bool.eq_iff_iff, nests_eq_true_iff, nests_eq_true_iff]
  exact h.rearranges.exists_pointsAt_iff label

/-- The check for cycles does not look at positions. -/
theorem checkAcyclic_eq (h : Paired n t t') (parent : String) (kind : Kind) (item : String) :
    t.checkAcyclic playlist parent kind item = t'.checkAcyclic playlist parent kind item := by
  have hholds : t.Holds playlist = t'.Holds playlist := by
    funext a b
    rw [Holds, Holds, h.rearranges.nests_iff]
  have hsame : (t.ancestors playlist parent).contains item
      = (t'.ancestors playlist parent).contains item := by
    rw [Bool.eq_iff_iff, contains_ancestors_iff, contains_ancestors_iff, hholds]
  rw [checkAcyclic, checkAcyclic, hsame]

/-- An item is refused on both sides or takes a path on each. -/
theorem pathFor_both (h : Paired n t t') (hroom : n + 1 < UInt64.size) (item : NewItem) :
    Both (fun p q => p.sameEntry q = true) (t.pathFor playlist none item)
      (t'.pathFor playlist none item) := by
  obtain ⟨m, hm, -⟩ := h.within.nextPosition_eq_ok h.agreeing hroom (item.parent.getD playlist)
  obtain ⟨m', hm', -⟩ := h.within'.nextPosition_eq_ok h.agreeing' hroom (item.parent.getD playlist)
  have hholder : item.parent.getD playlist = playlist ∨ t.nests (item.parent.getD playlist) = true ↔
      item.parent.getD playlist = playlist ∨ t'.nests (item.parent.getD playlist) = true := by
    rw [h.nests_eq]
  rw [pathFor, pathFor]
  dsimp only
  rw [hm, hm', h.checkAcyclic_eq]
  refine .ite hholder ?_ (.error _)
  exact .bind (.refl _) fun _ _ _ _ _ => Path.create_both _ _ _ _ _

/-- One item more on both sides. -/
theorem put {p q : Path} {item : NewItem} (h : Paired n t t') (hroom : n + 1 < UInt64.size)
    (hp : t.Takes playlist none item p) (hq : t'.Takes playlist none item q)
    (hpq : p.sameEntry q = true) :
    Paired (n + 1) (t.put (Entry.ofPath p)) (t'.put (Entry.ofPath q)) := by
  have hwithin : ∀ {t : Tree} {p : Path}, t.Agreeing → t.Within n → t.Takes playlist none item p →
      Within (n + 1) (t.put (Entry.ofPath p)) := by
    intro t p ha hw hp
    obtain ⟨m, hm, hle⟩ := hw.nextPosition_eq_ok ha hroom p.root.text
    have hposition := hp.position
    cases hm.symm.trans hposition
    refine ⟨?_, fun r hr => ?_⟩
    · rw [size_put (not_mem_of_nextPosition ha hposition)]
      exact Nat.succ_le_succ hw.size_le
    · rcases mem_paths_put.1 hr with rfl | hr
      · exact hle
      · exact Nat.le_succ_of_le (hw.position_le r hr)
  -- Each side takes its own next position, so the outlines grow by the same entry in the same
  -- place.
  refine ⟨fun label => ?_, agreeing_put h.agreeing p, agreeing_put h.agreeing' q,
    hwithin h.agreeing h.within hp, hwithin h.agreeing' h.within' hq⟩
  obtain ⟨hroot, hkind, hitem⟩ := Path.sameEntry_iff.1 hpq
  rw [outline_put h.agreeing hp.position, outline_put h.agreeing' hq.position, h.alike label, hroot,
    hkind, hitem]

/-- Numbering both sides afresh or only one of them changes nothing. -/
theorem balanced (h : Paired n t t') (rebalance rebalance' : Bool) :
    Paired n (t.balanced rebalance).1 (t'.balanced rebalance').1 := by
  have hleft : ∀ {t t' : Tree}, Paired n t t' → ∀ rebalance : Bool,
      Paired n (t.balanced rebalance).1 t' := by
    intro t t' h rebalance
    cases rebalance with
    | true =>
      refine ⟨fun label => ?_, t.rearranges_rebalance.agreeing h.agreeing, h.agreeing',
        h.within.rebalance, h.within'⟩
      exact (outline_rebalance t label).trans (h.alike label)
    | false => exact h
  exact (hleft (hleft h rebalance).symm rebalance').symm

theorem filter (h : Paired n t t') {f f' : Entry → Bool} {g : Label → Kind × Label → Bool}
    (hf : ∀ label, ∀ e ∈ t.siblings label.text, f e = g label (e.path.kind, e.path.item))
    (hf' : ∀ label, ∀ e ∈ t'.siblings label.text, f' e = g label (e.path.kind, e.path.item)) :
    Paired n (t.filter f) (t'.filter f') where
  alike label := by rw [outline_filter (hf label), outline_filter (hf' label), h.alike label]
  agreeing e he := h.agreeing e (KeyedList.mem_filter.1 he).1
  agreeing' e he := h.agreeing' e (KeyedList.mem_filter.1 he).1
  within := h.within.filter f
  within' := h.within'.filter f'

/-- A batch is refused on both sides at the same item, or goes to alike trees. -/
theorem mapM_addOne_both (h : Paired n t t') (items : List NewItem)
    (hroom : n + items.length < UInt64.size) :
    Both (fun r r' => SameEntries r.1 r'.1 ∧
        Paired (n + items.length) r.2 r'.2)
      (Run.outcome (items.mapM (addOne playlist none) t))
      (Run.outcome (items.mapM (addOne playlist none) t')) := by
  -- By induction on the items; each one raises the bound for those after it by one.
  induction items generalizing n t t' with
  | nil => exact .ok ⟨.nil, h⟩
  | cons item rest ih =>
    rw [List.length_cons] at hroom ⊢
    have hone : n + 1 < UInt64.size := by omega
    have hfirst : Both (fun r r' => r.1.sameEntry r'.1 = true ∧ Paired (n + 1) r.2 r'.2)
        (Run.outcome (addOne playlist none item t)) (Run.outcome (addOne playlist none item t')) := by
      rw [outcome_addOne, outcome_addOne]
      refine .map (h.pathFor_both hone item) fun p q hp hq hpq => ⟨hpq, ?_⟩
      exact h.put hone (pathFor_eq_ok hp) (pathFor_eq_ok hq) hpq
    rw [List.mapM_cons, Run.outcome_bind, Run.outcome_bind]
    refine .bind hfirst fun r r' _ _ hr => ?_
    rw [Run.outcome_bind, Run.outcome_bind]
    have hsum : n + 1 + rest.length = n + (rest.length + 1) := by omega
    refine .bind (ih hr.2 (by omega)) fun s s' _ _ hs => .ok ⟨.cons hr.1 hs.1, hsum ▸ hs.2⟩

end Paired

end Tree

namespace Operation

variable {n : Nat} {t t' : Tree} {playlist : Label} {config config' : Config}

/-- Of the settings only the limit decides whether there is room. -/
theorem checkRoom_congr (h : config.maxPlaylistItems = config'.maxPlaylistItems)
    (playlist : String) (rows added : Nat) :
    config.checkRoom playlist rows added = config'.checkRoom playlist rows added := by
  rw [Config.checkRoom, Config.checkRoom, h]

/-! ## Adding -/

theorem enlarge_both (h : Tree.Paired n t t')
    (hlimit : config.maxPlaylistItems = config'.maxPlaylistItems) (items : List NewItem)
    (hroom : n + items.length < UInt64.size) (rebalance rebalance' : Bool) :
    Both (fun r r' => SameEntries r.1 r'.1 ∧
        Tree.Paired (n + items.length) r.2 r'.2)
      (enlarge config playlist items none rebalance t)
      (enlarge config' playlist items none rebalance' t') := by
  rw [enlarge_eq, enlarge_eq, h.size_eq, checkRoom_congr hlimit, Tree.add, ite_self]
  refine .ite .rfl (.error _) (.bind (.refl _) fun _ _ _ _ _ => ?_)
  refine .map (h.mapM_addOne_both items hroom) fun r r' hr hr' hboth => ?_
  refine ⟨?_, hboth.2.balanced rebalance rebalance'⟩
  have hmem : ∀ p ∈ r.1, p ∈ r.2.paths := fun p hp =>
    (Tree.grown_of_mapM (Run.outcome_eq_ok hr)).mem_paths.2 (.inl hp)
  have hmem' : ∀ p ∈ r'.1, p ∈ r'.2.paths := fun p hp =>
    (Tree.grown_of_mapM (Run.outcome_eq_ok hr')).mem_paths.2 (.inl hp)
  rw [SameEntries, List.forall₂_map_left_iff, List.forall₂_map_right_iff]
  refine List.forall₂_iff_zip.2 ⟨hboth.1.length_eq, fun {p q} hpq => ?_⟩
  obtain ⟨hp, hq⟩ := List.of_mem_zip hpq
  -- A created path is followed through its own numbering on each side, and the entry stays the
  -- same.
  have hback := Path.sameEntry_symm (Tree.sameEntry_destination rebalance (hmem p hp))
  have hforth := Tree.sameEntry_destination rebalance' (hmem' q hq)
  exact Path.sameEntry_trans hback (Path.sameEntry_trans (List.forall₂_zip hboth.1 hpq) hforth)

theorem extend_both (h : Tree.Paired n t t')
    (hlimit : config.maxPlaylistItems = config'.maxPlaylistItems) (hroom : n + 1 < UInt64.size)
    (parent : Option String) (kind : Kind) (item : String) :
    Both (fun r r' => r.1.sameEntry r'.1 = true ∧ Tree.Paired (n + 1) r.2 r'.2)
      (extend config playlist parent kind item t) (extend config' playlist parent kind item t') := by
  rw [extend, extend, h.size_eq, checkRoom_congr hlimit]
  refine .bind (.refl _) fun _ _ _ _ _ => ?_
  refine .map (h.pathFor_both hroom _) fun p q hp hq hpq => ⟨hpq, ?_⟩
  exact h.put hroom (Tree.pathFor_eq_ok hp) (Tree.pathFor_eq_ok hq) hpq

/-! ## A new order -/

theorem claim?_both {item : String} {paths paths' : List Path} (h : SameEntries paths paths') :
    Option.Rel (fun r r' => r.1.sameEntry r'.1 = true ∧ SameEntries r.2 r'.2)
      (claim? item paths) (claim? item paths') := by
  induction h with
  | nil => exact .none
  | @cons p q rest rest' hpq hrest ih =>
    have hitem : p.item = q.item := (Path.sameEntry_iff.1 hpq).2.2
    rw [claim?, claim?, hitem]
    split
    · exact .some ⟨hpq, hrest⟩
    · revert ih
      generalize claim? item rest = r
      generalize claim? item rest' = r'
      intro ih
      cases ih with
      | none => exact .none
      | some hr => exact .some ⟨hr.1, .cons hpq hr.2⟩

theorem any_item_eq {item : String} {paths paths' : List Path} (h : SameEntries paths paths') :
    paths.any (·.item.text == item) = paths'.any (·.item.text == item) := by
  have hany : ∀ paths : List Path, paths.any (·.item.text == item)
      = (paths.map fun p => (p.kind, p.item)).any (·.2.text == item) := fun paths => by
    rw [List.any_map]
    rfl
  rw [hany, hany, h.map_eq]

theorem arrange_both {claimed claimed' unclaimed unclaimed' : List Path}
    (hclaimed : SameEntries claimed claimed') (hunclaimed : SameEntries unclaimed unclaimed')
    (items : List String) :
    Both SameEntries (arrange playlist.text claimed unclaimed items)
      (arrange playlist.text claimed' unclaimed' items) := by
  induction items generalizing claimed claimed' unclaimed unclaimed' with
  | nil => exact .ok (List.rel_append hclaimed hunclaimed)
  | cons item rest ih =>
    rw [arrange, arrange]
    have hclaim : Option.Rel _ (claim? item unclaimed) (claim? item unclaimed') :=
      claim?_both hunclaimed
    revert hclaim
    generalize claim? item unclaimed = r
    generalize claim? item unclaimed' = r'
    intro hclaim
    cases hclaim with
    | none =>
      dsimp only
      rw [any_item_eq hclaimed]
      exact .ite .rfl (.error _) (.error _)
    | some hr => exact ih (List.rel_append hclaimed (.cons hr.1 .nil)) hr.2

theorem rearrange_both (h : Tree.Paired n t t') (items : List String) :
    Both (fun r r' => Tree.Paired n r.2 r'.2) (rearrange playlist items t)
      (rearrange playlist items t') := by
  have hsame : SameEntries ((t.siblings playlist.text).map Entry.path)
      ((t'.siblings playlist.text).map Entry.path) := by
    rw [SameEntries, List.forall₂_map_left_iff, List.forall₂_map_right_iff]
    exact h.alike.forall₂ playlist
  rw [rearrange_eq h.agreeing, rearrange_eq h.agreeing']
  refine .map (arrange_both .nil hsame items) fun ordered ordered' hok hok' hboth => ?_
  have hperm := perm_siblings_of_arrange h.agreeing hok
  have hperm' := perm_siblings_of_arrange h.agreeing' hok'
  have hdot := playlist.dot_not_mem
  refine ⟨fun label => ?_, (Tree.rearranges_reordered hdot hperm).agreeing h.agreeing,
    (Tree.rearranges_reordered hdot hperm').agreeing h.agreeing',
    h.within.rearranged (Tree.rearranges_reordered hdot hperm) fun _ hp =>
      Tree.position_of_mem_reordered hdot hperm hp,
    h.within'.rearranged (Tree.rearranges_reordered hdot hperm') fun _ hp =>
      Tree.position_of_mem_reordered hdot hperm' hp⟩
  have hmap : ∀ paths : List Path, (paths.map Entry.ofPath).map
      (fun e => (e.path.kind, e.path.item)) = paths.map fun p => (p.kind, p.item) := fun paths => by
    rw [List.map_map]
    rfl
  rw [Tree.outline_reordered hperm, Tree.outline_reordered hperm', h.alike label, hmap, hmap,
    hboth.map_eq]

/-! ## Removing -/

/-- What a removal empties does not depend on positions. -/
theorem released_eq {before after : Tree} {steps : List (Entry × Entry)}
    (h : before.Rearranges after steps) (item : String) :
    released playlist.text item before.paths = released playlist.text item after.paths := by
  have hgoes : ∀ (gone : Set String) (p q : Path), p.sameEntry q = true →
      (p.GoesWith item gone ↔ q.GoesWith item gone) := by
    intro gone p q hpq
    obtain ⟨hroot, -, hitem⟩ := Path.sameEntry_iff.1 hpq
    rw [Path.GoesWith, Path.GoesWith, hroot, hitem]
  have hreleases : ∀ (gone : Set String) (label : String),
      Releases playlist.text item before.paths gone label ↔
        Releases playlist.text item after.paths gone label := by
    intro gone label
    have hpoint := fun {p q : Path} (hpq : p.sameEntry q = true) =>
      Tree.Rearranges.pointsAt_congr hpq label
    refine and_congr_right fun _ => and_congr ?_ (not_congr ?_)
    · exact h.exists_path_iff fun p q hpq => and_congr (hgoes gone p q hpq) (hpoint hpq)
    · exact h.exists_path_iff fun p q hpq =>
        and_congr (not_congr (hgoes gone p q hpq)) (hpoint hpq)
  -- Both removals are least fixed points, and of the same operator.
  have hmap : releasing playlist.text item before.paths
      = releasing playlist.text item after.paths := by
    ext gone label
    exact hreleases gone label
  rw [released, released, hmap]

open Classical in
theorem tree_remaining (rows : Rows) (item : String) :
    (rows.remaining playlist.text item).tree = rows.tree.filter fun e =>
      decide (¬ e.path.GoesWith item (released playlist.text item rows.tree.paths)) := by
  refine KeyedList.ext_mem fun e => ?_
  rw [KeyedList.mem_filter, Rows.mem_tree, Rows.mem_tree, decide_eq_true_iff, rows.paths_tree]
  constructor
  · intro hex
    obtain ⟨p, hp, rfl⟩ := hex
    obtain ⟨hp, hstays⟩ := Rows.mem_paths_remaining.1 hp
    exact ⟨⟨p, hp, rfl⟩, hstays⟩
  · intro hex
    obtain ⟨⟨p, hp, rfl⟩, hstays⟩ := hex
    exact ⟨p, Rows.mem_paths_remaining.2 ⟨hp, hstays⟩, rfl⟩

open Classical in
theorem remaining_paired {rows rows' : Rows} (h : Tree.Paired n rows.tree rows'.tree) (item : String) :
    Tree.Paired n (rows.remaining playlist.text item).tree
      (rows'.remaining playlist.text item).tree := by
  have hkeeps : ∀ (t : Tree) (label : Label), ∀ e ∈ t.siblings label.text,
      decide (¬ e.path.GoesWith item (released playlist.text item rows.tree.paths))
        = decide (¬ (e.path.item.text = item ∨
            label.text ∈ released playlist.text item rows.tree.paths)) := by
    intro t label e he
    refine decide_eq_decide.2 (not_congr ?_)
    rw [Path.GoesWith, ((Tree.mem_siblings label.dot_not_mem).1 he).2]
  rw [tree_remaining, tree_remaining, ← released_eq h.rearranges item]
  -- Whether an entry stays depends on its label and item alone, which is all that an outline keeps.
  exact h.filter (g := fun label c => decide (¬ (c.2.text = item ∨
    label.text ∈ released playlist.text item rows.tree.paths))) (hkeeps _) (hkeeps _)

theorem reduce_both {d d' : Dialect} {rows rows' : Rows} (h : Tree.Paired n rows.tree rows'.tree)
    (hread : rows.Readable) (hread' : rows'.Readable) (item : String) :
    Both (fun r r' => r.1 = r'.1 ∧ Tree.Paired n r.2 r'.2) (reduce d config playlist item rows)
      (reduce d' config' playlist item rows') := by
  have hleft : Tree.Paired n (rows.remaining playlist.text item).tree
      (rows'.remaining playlist.text item).tree := remaining_paired h item
  have hsize := h.size_eq
  have hsizeLeft := hleft.size_eq
  rw [hread.size_tree, hread'.size_tree] at hsize
  rw [(hread.remaining _ _).size_tree, (hread'.remaining _ _).size_tree] at hsizeLeft
  rw [reduce, reduce, hread.removeSubtree_eq d, hread'.removeSubtree_eq d', hsize, hsizeLeft]
  cases Label.read item with
  | error failure => exact .error failure
  | ok _ =>
    refine .ite .rfl (.error _) (.ok ⟨rfl, ?_⟩)
    rw [← Tree.balanced_fst, ← Tree.balanced_fst]
    exact hleft.balanced config.rebalanceOnRemove config'.rebalanceOnRemove

end Operation

end Playlists
