import Mathlib
import Playlists.Edit.Removal
import Playlists.Proofs.Edit.Run
import Playlists.Proofs.Nesting.Relation

/-!
# `Proofs/Edit/Removal.lean` — what goes when an item goes

`Edit.removeSubtree` works through a list of labels, deletes rows while it looks at them and passes
over labels that are still pointed at. None of that is in what it comes to. A set of labels decides
which paths go (`Path.GoesWith`): those of the item and those under a label of the set. `Releases`
says which labels that empties in turn, a larger set empties more, and the labels whose contents are
really removed are the least set that empties no further one (`released`).

That is a statement about paths alone, so it does not depend on the order in which a medium reports
what it has removed. `SweepState` is what the work list keeps true on the way, from any order and on
references that go in circles:

* every label that was emptied belongs to the least set;
* every label that has lost a row, and is not emptied, is on the list or still pointed at.

With an empty list the second says that nothing is missing, and the first that nothing is too many.
-/

set_option autoImplicit false

namespace Playlists

/-- The path goes when `item` goes and the labels in `gone` are emptied. -/
def Path.GoesWith (p : Path) (item : String) (gone : Set String) : Prop :=
  p.item.text = item ∨ p.root.text ∈ gone

/-- A nested playlist is released if some path that goes points at it and none that stays does. The
playlist that is worked on is never released. -/
def Releases (playlist item : String) (paths : List Path) (gone : Set String) (label : String) :
    Prop :=
  label ≠ playlist ∧ (∃ p ∈ paths, p.GoesWith item gone ∧ p.PointsAt label) ∧
    ¬ ∃ p ∈ paths, ¬ p.GoesWith item gone ∧ p.PointsAt label

theorem Path.GoesWith.mono {p : Path} {item : String} {gone gone' : Set String}
    (h : gone ⊆ gone') (hp : p.GoesWith item gone) : p.GoesWith item gone' :=
  hp.imp_right fun hroot => h hroot

theorem Releases.mono {playlist item label : String} {paths : List Path} {gone gone' : Set String}
    (h : gone ⊆ gone') (hr : Releases playlist item paths gone label) :
    Releases playlist item paths gone' label := by
  obtain ⟨hne, ⟨p, hp, hgoes, hpoint⟩, hstays⟩ := hr
  refine ⟨hne, ⟨p, hp, hgoes.mono h, hpoint⟩, fun hex => hstays ?_⟩
  obtain ⟨q, hq, hnot, hqpoint⟩ := hex
  exact ⟨q, hq, fun hgoes => hnot (hgoes.mono h), hqpoint⟩

/-- The labels that are released once those in a set are emptied, as a monotone map of sets. -/
def releasing (playlist item : String) (paths : List Path) : Set String →o Set String where
  toFun gone := {label | Releases playlist item paths gone label}
  monotone' _ _ h _ := Releases.mono h

/-- The labels whose contents go when `item` goes. -/
def released (playlist item : String) (paths : List Path) : Set String :=
  (releasing playlist item paths).lfp

theorem mem_released_iff {playlist item label : String} {paths : List Path} :
    label ∈ released playlist item paths ↔
      Releases playlist item paths (released playlist item paths) label := by
  have h := (releasing playlist item paths).map_lfp
  exact (Set.ext_iff.1 h label).symm

theorem released_subset {playlist item : String} {paths : List Path} {gone : Set String}
    (h : ∀ label, Releases playlist item paths gone label → label ∈ gone) :
    released playlist item paths ⊆ gone :=
  (releasing playlist item paths).lfp_le h

/-! ## Looking at readable rows -/

theorem nestedPlaylists_eq {rows : List String} (h : ∀ row ∈ rows, ∃ p, Path.decode row = .ok p) :
    nestedPlaylists rows
      = .ok (((rows.filterMap Path.decode?).filter (·.kind == .playlist)).map (·.item.text)) := by
  rw [nestedPlaylists, Rows.mapM_decode h]
  rfl

/-- Readable rows that were removed put the labels on the list that they point at. -/
theorem nestedPlaylists_spec (d : Dialect) {rows : Rows} (h : rows.Readable)
    (doomed : String → Bool) :
    ∃ labels, nestedPlaylists (d.report (rows.filter doomed).toList) = .ok labels ∧
      ∀ label, label ∈ labels ↔ ∃ p ∈ rows.paths, doomed p.text = true ∧ p.PointsAt label := by
  have hmem : ∀ row, row ∈ d.report (rows.filter doomed).toList ↔
      row ∈ rows.toList ∧ doomed row = true := fun row =>
    (d.report_perm _).mem_iff.trans KeyedList.mem_filter
  refine ⟨_, nestedPlaylists_eq fun row hrow => h row ((hmem row).1 hrow).1, fun label => ?_⟩
  simp only [List.mem_map, List.mem_filter, List.mem_filterMap, Rows.decode?_eq_some_iff, hmem,
    beq_iff_eq, Rows.mem_paths, Path.PointsAt]
  constructor
  · intro hex
    obtain ⟨p, ⟨⟨row, ⟨hrow, hdoomed⟩, rfl, hlt⟩, hkind⟩, hitem⟩ := hex
    exact ⟨p, ⟨hrow, hlt⟩, hdoomed, hkind, hitem⟩
  · intro hex
    obtain ⟨p, ⟨hrow, hlt⟩, hdoomed, hkind, hitem⟩ := hex
    exact ⟨p, ⟨⟨p.text, ⟨hrow, hdoomed⟩, rfl, hlt⟩, hkind⟩, hitem⟩

/-- On readable rows every medium finds what the paths say. -/
theorem any_pointsAt_iff (d : Dialect) {rows : Rows} (h : rows.Readable) {kind : Kind}
    {item : String} :
    rows.toList.any (d.pointsAt kind item) = true ↔
      ∃ p ∈ rows.paths, p.kind = kind ∧ p.item.text = item := by
  rw [List.any_eq_true]
  constructor
  · intro hex
    obtain ⟨row, hrow, hpoint⟩ := hex
    obtain ⟨p, hp, rfl⟩ := h.text_mem hrow
    rw [d.pointsAt_text, Bool.and_eq_true, beq_iff_eq, beq_iff_eq] at hpoint
    exact ⟨p, hp, hpoint⟩
  · intro hex
    obtain ⟨p, hp, hpoint⟩ := hex
    refine ⟨p.text, (Rows.mem_paths.1 hp).1, ?_⟩
    rw [d.pointsAt_text, Bool.and_eq_true, beq_iff_eq, beq_iff_eq]
    exact hpoint

theorem Rows.Readable.filter_isUnder {rows : Rows} (h : rows.Readable) (d : Dialect)
    (lead : String) :
    rows.toList.filter (d.isUnder lead) = rows.toList.filter (Text.hasPrefix lead) := by
  refine List.filter_congr fun row hrow => ?_
  obtain ⟨p, -, rfl⟩ := h.text_mem hrow
  exact d.isUnder_text lead p

/-- Media that fetch more or fewer rows for it find the same last position. -/
theorem Rows.Readable.lastPosition_eq {rows : Rows} (h : rows.Readable) (d : Dialect)
    (parent : String) :
    Edit.lastPosition d parent rows = attempt (lastPosition rows.toList parent) rows := by
  have hfetched : ∀ row ∈ rows.toList, Text.hasPrefix (Path.childPrefix parent) row = true →
      d.searches (Path.childPrefix parent) row = true := by
    intro row hrow hunder
    obtain ⟨p, -, rfl⟩ := h.text_mem hrow
    exact d.searches_text _ p hunder
  rw [Edit.lastPosition, Run.bind_of_ok (Run.get_eq rows), lastPosition_filter hfetched]

/-! ## One label of the work list -/

namespace Edit

open Staging (within)

theorem sweep_nil {σ : Type} [Staging σ] (d : Dialect) (playlist : String)
    (visited : List String) (removed : Nat) :
    sweep d playlist visited [] removed = (pure removed : Work σ Nat) := by
  funext s
  rw [sweep]
  rfl

/-- One label is taken off the list at a time. -/
theorem sweep_cons {σ : Type} [Staging σ] (d : Dialect) (playlist label : String)
    (visited rest : List String) (removed : Nat) :
    sweep d playlist visited (label :: rest) removed = (do
      if ← isKept d playlist visited label then
        sweep d playlist visited rest removed
      else
        let gone ← within playlist (removeUnder d (Path.childPrefix label))
        let labels ← attempt (nestedPlaylists gone)
        sweep d playlist (label :: visited) (labels.reverse ++ rest) (removed + gone.length)
      : Work σ Nat) := by
  funext s
  -- The definition matches on runs of its steps, for the sake of its measure. Read as a program it
  -- has no use for that.
  rw [sweep]
  split
  · next hkept => rw [Run.bind_of_error hkept]
  · next hkept =>
    rw [Run.bind_of_ok hkept]
    rfl
  · next hkept =>
    rw [Run.bind_of_ok hkept, if_neg Bool.false_ne_true]
    split
    · next hremove => rw [Run.bind_of_error hremove]
    · next hremove =>
      rw [Run.bind_of_ok hremove]
      split
      · next hlabels => rw [Run.bind_of_error (Run.attempt_of_error hlabels)]
      · next hlabels =>
        rw [Run.bind_of_ok (Run.attempt_of_ok hlabels)]

theorem isKept_eq (d : Dialect) (playlist : String) (visited : List String) (label : String)
    (rows : Rows) :
    isKept d playlist visited label rows
      = .ok (visited.contains label || rows.toList.any (d.pointsAt .playlist label)) rows := by
  rw [isKept]
  split
  · next hseen =>
    rw [hseen]
    rfl
  · next hnew =>
    rw [Bool.not_eq_true] at hnew
    rw [hnew]
    rfl

end Edit

/-! ## Counting -/

/-- Rows that are taken away and rows that are left are together all of them. -/
theorem size_kept_add_length_report (d : Dialect) (rows : Rows) (doomed : String → Bool) :
    (d.report (rows.filter doomed).toList).length + (rows.filter fun row => !doomed row).size
      = rows.size := by
  have hgone : (d.report (rows.filter doomed).toList).length = (rows.filter doomed).size :=
    (d.report_perm _).length_eq
  rw [hgone, rows.size_filter_add_size_filter_not]

/-- Working off the list counts every row that it takes away. -/
theorem sweep_counts (d : Dialect) {playlist : String} {visited pending : List String}
    {removed n : Nat} {rows kept : Rows}
    (h : Edit.sweep d playlist visited pending removed rows = .ok n kept) :
    n + kept.size = removed + rows.size := by
  -- Only the branch that empties a label changes rows, and it adds what it takes away.
  fun_induction Edit.sweep d playlist visited pending removed rows with
  | case1 visited removed rows =>
    cases h
    rfl
  | case2 visited removed rows label rest failure rows' hkept => cases h
  | case3 visited removed rows label rest rows' hkept _ ih =>
    rw [Edit.isKept_eq] at hkept
    obtain ⟨-, rfl⟩ := EStateM.Result.ok.inj hkept
    exact ih h
  | case4 visited removed rows label rest rows' hkept _ failure rows'' hremove => cases h
  | case5 visited removed rows label rest rows' hkept _ gone rows'' hremove failure hfail => cases h
  | case6 visited removed rows label rest rows' hkept _ gone rows'' hremove labels hok _ ih =>
    rw [Edit.isKept_eq] at hkept
    obtain ⟨-, rfl⟩ := EStateM.Result.ok.inj hkept
    cases hremove
    rw [ih h, Nat.add_assoc]
    exact congrArg _ (size_kept_add_length_report d rows _)

/-- A removal that succeeds counts the rows that are missing afterwards, whatever the rows say. -/
theorem removeSubtree_counts (d : Dialect) (playlist item : String) (rows : Rows) :
    Run.Ensures (Edit.removeSubtree d playlist item) rows
      fun removed kept => removed + kept.size = rows.size := by
  refine .bind (P := fun gone left => gone.length + left.size = rows.size) ?_
    fun gone left hleft => .after_attempt fun labels _ => ?_
  · intro gone left h
    rw [Staging.within_rows, Run.removeItem_eq] at h
    cases h
    exact size_kept_add_length_report d rows _
  · intro removed kept h
    exact (sweep_counts d h).trans hleft

/-! ## The work list -/

/-- The labels emptied so far. The playlist itself counts as visited from the start. -/
def emptied (playlist : String) (visited : List String) : Set String :=
  {label | label ∈ visited ∧ label ≠ playlist}

/-- What holds of visited labels, work list and rows while `item` is removed from `paths`. -/
structure SweepState (playlist item : String) (paths : List Path) (visited pending : List String)
    (rows : Rows) : Prop where
  readable : rows.Readable
  mem_paths : ∀ p, p ∈ rows.paths ↔ p ∈ paths ∧ ¬ p.GoesWith item (emptied playlist visited)
  visited_self : playlist ∈ visited
  emptied_subset : emptied playlist visited ⊆ released playlist item paths
  pending_lost : ∀ label ∈ pending,
    ∃ p ∈ paths, p.GoesWith item (emptied playlist visited) ∧ p.PointsAt label
  lost_waits : ∀ label, label ∉ visited →
    (∃ p ∈ paths, p.GoesWith item (emptied playlist visited) ∧ p.PointsAt label) →
      label ∈ pending ∨ ∃ p ∈ rows.paths, p.PointsAt label

namespace SweepState

variable {playlist item label : String} {paths : List Path} {visited pending rest : List String}
  {rows : Rows}

/-- A label may be passed over if it was visited or is still pointed at. -/
theorem skip (h : SweepState playlist item paths visited (label :: rest) rows)
    (hskip : label ∈ visited ∨ ∃ p ∈ rows.paths, p.PointsAt label) :
    SweepState playlist item paths visited rest rows where
  readable := h.readable
  mem_paths := h.mem_paths
  visited_self := h.visited_self
  emptied_subset := h.emptied_subset
  pending_lost l hl := h.pending_lost l (List.mem_cons_of_mem _ hl)
  lost_waits l hnew hlost := by
    rcases h.lost_waits l hnew hlost with hpending | hpoint
    · rcases List.mem_cons.1 hpending with rfl | hrest
      · exact .inr (hskip.resolve_left hnew)
      · exact .inl hrest
    · exact .inr hpoint

theorem emptied_cons (hne : label ≠ playlist) :
    emptied playlist (label :: visited) = insert label (emptied playlist visited) := by
  ext l
  simp only [emptied, List.mem_cons, Set.mem_insert_iff, Set.mem_ofPred_eq]
  constructor
  · intro hl
    obtain ⟨rfl | hl, hlne⟩ := hl
    · exact .inl rfl
    · exact .inr ⟨hl, hlne⟩
  · intro hl
    rcases hl with rfl | ⟨hl, hlne⟩
    · exact ⟨.inl rfl, hne⟩
    · exact ⟨.inr hl, hlne⟩

theorem goesWith_emptied_cons (hne : label ≠ playlist) (p : Path) :
    p.GoesWith item (emptied playlist (label :: visited)) ↔
      p.GoesWith item (emptied playlist visited) ∨ p.root.text = label := by
  rw [Path.GoesWith, Path.GoesWith, emptied_cons hne, Set.mem_insert_iff, or_assoc,
    or_comm (a := p.root.text = label)]

/-- A label on the list that is neither visited nor pointed at belongs to the least set. -/
theorem mem_released (h : SweepState playlist item paths visited (label :: rest) rows)
    (hnew : label ∉ visited) (hpoint : ¬ ∃ p ∈ rows.paths, p.PointsAt label) :
    label ∈ released playlist item paths := by
  refine mem_released_iff.2 (Releases.mono h.emptied_subset ⟨?_, ?_, fun hex => hpoint ?_⟩)
  · intro heq
    exact hnew (heq ▸ h.visited_self)
  · exact h.pending_lost label List.mem_cons_self
  · obtain ⟨p, hp, hstays, hp'⟩ := hex
    exact ⟨p, (h.mem_paths p).2 ⟨hp, hstays⟩, hp'⟩

/-- Emptying a label puts every label on the list that loses a row by it. -/
theorem take (d : Dialect) (h : SweepState playlist item paths visited (label :: rest) rows)
    (hnew : label ∉ visited) (hpoint : ¬ ∃ p ∈ rows.paths, p.PointsAt label)
    {labels : List String}
    (hlabels : ∀ l, l ∈ labels ↔
      ∃ p ∈ rows.paths, d.isUnder (Path.childPrefix label) p.text = true ∧ p.PointsAt l) :
    SweepState playlist item paths (label :: visited) (labels.reverse ++ rest)
      (rows.filter fun row => !d.isUnder (Path.childPrefix label) row) := by
  have hne : label ≠ playlist := fun heq => hnew (heq ▸ h.visited_self)
  -- A label comes onto the list as an item of a row, so it has no dot and its rows are all that
  -- begin with it.
  have hdot : '.' ∉ label.toList := by
    obtain ⟨p, -, -, -, hitem⟩ := h.pending_lost label List.mem_cons_self
    exact hitem ▸ p.item.dot_not_mem
  have hlead : ∀ p : Path,
      d.isUnder (Path.childPrefix label) p.text = true ↔ p.root.text = label := by
    intro p
    rw [d.isUnder_text]
    exact Path.hasPrefix_childPrefix_iff hdot p
  have hgoes : ∀ p : Path, p.GoesWith item (emptied playlist (label :: visited)) ↔ _ :=
    goesWith_emptied_cons hne
  refine ⟨h.readable.filter _, fun p => ?_, List.mem_cons_of_mem _ h.visited_self, ?_, ?_, ?_⟩
  · rw [Rows.mem_paths_filter, h.mem_paths, hgoes, not_or, and_assoc, Bool.not_eq_true',
      ← Bool.not_eq_true, hlead]
  · rw [emptied_cons hne]
    exact Set.insert_subset (h.mem_released hnew hpoint) h.emptied_subset
  · intro l hl
    rcases List.mem_append.1 hl with hl | hl
    · obtain ⟨p, hp, hpre, hp'⟩ := (hlabels l).1 (List.mem_reverse.1 hl)
      exact ⟨p, ((h.mem_paths p).1 hp).1, (hgoes p).2 (.inr ((hlead p).1 hpre)), hp'⟩
    · obtain ⟨p, hp, hlost, hp'⟩ := h.pending_lost l (List.mem_cons_of_mem _ hl)
      exact ⟨p, hp, (hgoes p).2 (.inl hlost), hp'⟩
  · intro l hl hlost
    rw [List.mem_append, List.mem_reverse, hlabels]
    have hlnew : l ∉ visited := fun hmem => hl (List.mem_cons_of_mem _ hmem)
    -- Whatever points at `l` among the rows so far goes now, or it stays and still points at `l`.
    have hstill : (∃ p ∈ rows.paths, p.PointsAt l) →
        ((∃ p ∈ rows.paths, d.isUnder (Path.childPrefix label) p.text = true ∧
          p.PointsAt l) ∨ l ∈ rest) ∨ ∃ p ∈ Rows.paths (rows.filter fun row =>
            !d.isUnder (Path.childPrefix label) row), p.PointsAt l := by
      intro hex
      obtain ⟨p, hp, hp'⟩ := hex
      by_cases hpre : d.isUnder (Path.childPrefix label) p.text = true
      · exact .inl (.inl ⟨p, hp, hpre, hp'⟩)
      · exact .inr ⟨p, Rows.mem_paths_filter.2 ⟨hp, by simpa using hpre⟩, hp'⟩
    obtain ⟨p, hp, -, hp'⟩ := hlost
    by_cases hbefore : p.GoesWith item (emptied playlist visited)
    · rcases h.lost_waits l hlnew ⟨p, hp, hbefore, hp'⟩ with hpending | hex
      · rcases List.mem_cons.1 hpending with rfl | hrest
        · exact absurd List.mem_cons_self hl
        · exact .inl (.inr hrest)
      · exact hstill hex
    · exact hstill ⟨p, (h.mem_paths p).2 ⟨hp, hbefore⟩, hp'⟩

/-- With an empty list the emptied labels are the least set. -/
theorem released_subset_emptied (h : SweepState playlist item paths visited [] rows) :
    released playlist item paths ⊆ emptied playlist visited := by
  refine released_subset fun l hl => ?_
  obtain ⟨hne, hlost, hstays⟩ := hl
  refine ⟨by_contra fun hnew => ?_, hne⟩
  rcases h.lost_waits l hnew hlost with hnil | ⟨p, hp, hpoint⟩
  · exact List.not_mem_nil hnil
  · obtain ⟨hmem, hnot⟩ := (h.mem_paths p).1 hp
    exact hstays ⟨p, hmem, hnot, hpoint⟩

/-- Working off the list leaves the paths that stay. -/
theorem sweep_eq_ok (d : Dialect) (removed : Nat)
    (h : SweepState playlist item paths visited pending rows) :
    ∃ n kept, Edit.sweep d playlist visited pending removed rows = .ok n kept ∧ kept.Readable ∧
      ∀ p, p ∈ kept.paths ↔ p ∈ paths ∧ ¬ p.GoesWith item (released playlist item paths) := by
  -- The state of the sweep is kept by induction along the list, as `skip` and `take` say. At the
  -- end it decides the emptied labels.
  fun_induction Edit.sweep d playlist visited pending removed rows with
  | case1 visited removed rows =>
    have heq := h.released_subset_emptied.antisymm h.emptied_subset
    exact ⟨removed, rows, rfl, h.readable, fun p => heq ▸ h.mem_paths p⟩
  | case2 visited removed rows label rest failure rows' hkept =>
    rw [Edit.isKept_eq] at hkept
    cases hkept
  | case3 visited removed rows label rest rows' hkept _ ih =>
    rw [Edit.isKept_eq] at hkept
    obtain ⟨hskip, rfl⟩ := EStateM.Result.ok.inj hkept
    rw [Bool.or_eq_true, List.contains_iff_mem, any_pointsAt_iff d h.readable] at hskip
    exact ih (h.skip hskip)
  | case4 visited removed rows label rest rows' hkept _ failure rows'' hremove => cases hremove
  | case5 visited removed rows label rest rows' hkept _ gone rows'' hremove failure hfail =>
    rw [Edit.isKept_eq] at hkept
    obtain ⟨-, rfl⟩ := EStateM.Result.ok.inj hkept
    cases hremove
    obtain ⟨labels, hok, -⟩ := nestedPlaylists_spec d h.readable _
    cases hfail.symm.trans hok
  | case6 visited removed rows label rest rows' hkept _ gone rows'' hremove labels hok _ ih =>
    rw [Edit.isKept_eq] at hkept
    obtain ⟨hnew, rfl⟩ := EStateM.Result.ok.inj hkept
    cases hremove
    rw [← Bool.not_eq_true, Bool.or_eq_true, List.contains_iff_mem,
      any_pointsAt_iff d h.readable, not_or] at hnew
    obtain ⟨labels', hok', hlabels⟩ := nestedPlaylists_spec d h.readable _
    cases hok.symm.trans hok'
    exact ih (h.take d hnew.1 hnew.2 hlabels)

end SweepState

/-! ## Removing an item -/

open Classical in
/-- The rows that are left when `item` is removed. -/
noncomputable def Rows.remaining (playlist item : String) (rows : Rows) : Rows :=
  rows.filter fun row => decide (∀ p, Path.decode? row = some p →
    ¬ p.GoesWith item (released playlist item rows.paths))

open Classical in
theorem Rows.mem_paths_remaining {playlist item : String} {rows : Rows} {p : Path} :
    p ∈ (rows.remaining playlist item).paths ↔
      p ∈ rows.paths ∧ ¬ p.GoesWith item (released playlist item rows.paths) := by
  rw [remaining, mem_paths_filter, decide_eq_true_iff]
  refine and_congr_right fun hp => ?_
  have hread : Path.decode? p.text = some p := decode?_eq_some_iff.2 ⟨rfl, (mem_paths.1 hp).2⟩
  constructor
  · intro hall
    exact hall p hread
  · intro hp q hq
    cases hread.symm.trans hq
    exact hp

theorem Rows.Readable.remaining {rows : Rows} (h : rows.Readable) (playlist item : String) :
    (rows.remaining playlist item).Readable :=
  h.filter _

/-- Rows that can be read are decided by the paths that they spell. -/
theorem Rows.Readable.ext {rows rows' : Rows} (h : rows.Readable) (h' : rows'.Readable)
    (hpaths : ∀ p, p ∈ rows.paths ↔ p ∈ rows'.paths) : rows = rows' := by
  refine KeyedList.ext_mem fun row => ?_
  constructor
  · intro hrow
    obtain ⟨p, hp, rfl⟩ := h.text_mem hrow
    exact (mem_paths.1 ((hpaths p).1 hp)).1
  · intro hrow
    obtain ⟨p, hp, rfl⟩ := h'.text_mem hrow
    exact (mem_paths.1 ((hpaths p).2 hp)).1

/-- Before the list is worked on, the rows of the item are gone and nothing is emptied. -/
theorem SweepState.start {playlist item : String} {rows kept : Rows} {labels : List String}
    (h : kept.Readable) (hkept : ∀ p, p ∈ kept.paths ↔ p ∈ rows.paths ∧ p.item.text ≠ item)
    (hlabels : ∀ l, l ∈ labels ↔ ∃ p ∈ rows.paths, p.item.text = item ∧ p.PointsAt l) :
    SweepState playlist item rows.paths [playlist] labels.reverse kept := by
  have hempty : emptied playlist [playlist] = ∅ := by
    refine Set.eq_empty_of_forall_notMem fun l hl => ?_
    exact hl.2 (List.mem_singleton.1 hl.1)
  have hgoes : ∀ p : Path, p.GoesWith item (emptied playlist [playlist]) ↔ p.item.text = item := by
    intro p
    rw [hempty, Path.GoesWith]
    exact or_iff_left (Set.notMem_empty _)
  refine ⟨h, fun p => ?_, List.mem_cons_self, ?_, fun l hl => ?_, fun l _ hlost => ?_⟩
  · rw [hgoes]
    exact hkept p
  · rw [hempty]
    exact Set.empty_subset _
  · simp only [hgoes]
    exact (hlabels l).1 (List.mem_reverse.1 hl)
  · simp only [hgoes] at hlost
    exact .inl (List.mem_reverse.2 ((hlabels l).2 hlost))

/-- Removing an item from readable rows always succeeds, and what is left does not depend on the
order in which a medium reports the rows that it has removed. -/
theorem Rows.Readable.removeSubtree_eq {rows : Rows} (h : rows.Readable) (d : Dialect)
    (playlist item : String) :
    Edit.removeSubtree d playlist item rows
      = .ok (rows.size - (rows.remaining playlist item).size) (rows.remaining playlist item) := by
  obtain ⟨labels, hok, hlabels⟩ := nestedPlaylists_spec d h (d.isOfItem item)
  have hstart : SweepState playlist item rows.paths [playlist] labels.reverse
      (rows.filter fun row => !d.isOfItem item row) := by
    refine .start (h.filter _) (fun p => ?_) fun l => ?_
    · rw [mem_paths_filter, d.isOfItem_text]
      simp
    · rw [hlabels]
      simp only [d.isOfItem_text, beq_iff_eq]
  obtain ⟨n, kept, hrun, hread, hkept⟩ :=
    hstart.sweep_eq_ok d (d.report (rows.filter (d.isOfItem item)).toList).length
  -- Which labels the sweep took, and in which order, is not seen from the paths that it left.
  have hleft : kept = rows.remaining playlist item :=
    hread.ext (h.remaining playlist item) fun p => (hkept p).trans mem_paths_remaining.symm
  have hremove : Edit.removeSubtree d playlist item rows = .ok n kept := by
    rw [← hrun, Edit.removeSubtree, Staging.within_rows,
      Run.bind_of_ok (Run.removeItem_eq d item rows), hok]
    exact Run.bind_of_ok (Run.attempt_ok labels)
  have hcount := removeSubtree_counts d playlist item rows n kept hremove
  rw [hremove, ← hleft, ← hcount, Nat.add_sub_cancel]

/-! ## The outcome as a whole -/

/-- The removal of `item` from `rows` leaves `kept` and empties the labels in `gone`. -/
structure Removes (playlist item : String) (rows : Rows) (gone : Set String) (kept : Rows) :
    Prop where
  /-- The emptied labels are the least set that agrees with what it releases. -/
  least : IsLeast {gone | ∀ label, label ∈ gone ↔ Releases playlist item rows.paths gone label} gone
  /-- The removal ends, counts the rows that are missing afterwards, and comes to the same for every
  medium. Batches that one removal takes away have no row in common, so a dialect can report them
  in any orders. -/
  run : ∀ d : Dialect,
    Edit.removeSubtree d playlist item rows = .ok (rows.size - kept.size) kept
  subset : ∀ row ∈ kept.toList, row ∈ rows.toList
  mem_iff : ∀ p ∈ rows.paths, p.text ∈ kept.toList ↔ ¬ p.GoesWith item gone
  /-- Of the entries of the playlist itself only those of the item go. -/
  own : ∀ p ∈ rows.paths, p.root.text = playlist → p.item.text ≠ item → p.text ∈ kept.toList
  /-- What is under a label that a remaining row points at stays, the item apart. -/
  referenced : ∀ p ∈ rows.paths, ∀ q ∈ rows.paths, q.text ∈ kept.toList →
    q.PointsAt p.root.text → p.item.text ≠ item → p.text ∈ kept.toList

theorem isLeast_released (playlist item : String) (paths : List Path) :
    IsLeast {gone | ∀ label, label ∈ gone ↔ Releases playlist item paths gone label}
      (released playlist item paths) := by
  refine ⟨fun label => mem_released_iff, fun gone hgone => ?_⟩
  exact released_subset fun label => (hgone label).2

/-- **A removal empties the least set of labels that it releases**, on every set of readable rows:
references may be shared, go in circles, lead back to the playlist or come from nowhere. -/
theorem removeSubtree_removes {rows : Rows} (h : rows.Readable) (playlist item : String) :
    ∃ gone kept, Removes playlist item rows gone kept := by
  have hleast := isLeast_released playlist item rows.paths
  have hmem : ∀ p ∈ rows.paths, p.text ∈ (rows.remaining playlist item).toList ↔
      ¬ p.GoesWith item (released playlist item rows.paths) := by
    intro p hp
    have hkept : p ∈ (rows.remaining playlist item).paths ↔ _ := Rows.mem_paths_remaining
    rw [Rows.mem_paths, and_iff_left (Rows.mem_paths.1 hp).2, and_iff_right hp] at hkept
    exact hkept
  refine ⟨_, _, hleast, fun d => h.removeSubtree_eq d playlist item,
    fun row hrow => (KeyedList.mem_filter.1 hrow).1, hmem, fun p hp hroot hitem => ?_,
    fun p hp q hq hkept hpoint hitem => ?_⟩
  · refine (hmem p hp).2 fun hgoes => ?_
    exact (mem_released_iff.1 (hgoes.resolve_left hitem)).1 hroot
  · refine (hmem p hp).2 fun hgoes => ?_
    exact (mem_released_iff.1 (hgoes.resolve_left hitem)).2.2 ⟨q, hq, (hmem q hq).1 hkept, hpoint⟩

/-- Rows with a playlist that is pointed at twice, one that contains itself and one that points back
at the playlist. -/
def tangledRows : Rows :=
  .ofList ["P.playlist.Q.1", "Q.playlist.T.1", "Q.playlist.Z.2", "T.playlist.Z.1", "Z.track.X.1",
    "T.playlist.T.2", "Z.playlist.P.2", "P.track.A.2", "O.track.Y.7"]

theorem removeSubtree_removes_tangled :
    tangledRows.Readable ∧ ∃ gone kept, Removes "P" "Q" tangledRows gone kept :=
  have h : tangledRows.Readable := by decide +kernel
  ⟨h, removeSubtree_removes h "P" "Q"⟩

end Playlists
