import Playlists.Proofs.Edit.Batch
import Playlists.Proofs.Edit.Removal

/-!
# `Proofs/Edit/Dialects.lean` — the same work on two media

Two media look rows up in different ways, refuse a row that is there already in different words and
report removed rows in different orders. On rows that can be read none of that shows in what is
stored: the same work, begun on the same rows, ends on the same rows, and its outcomes differ in the
words and the orders alone.

`Tally` is the relation of the two outcomes and `Twin` that of two pieces of work. `Twin` is kept by
`Twin.bind`, `Twin.attempt_bind` and `Twin.forM`, so a piece of work is compared step by step along
its definition. Where media really differ, and the steps have to be looked into, are a change of a
row, a look-up and a removal.

One removal does not follow its steps. `Edit.removeSubtree` stops being the same on both sides as
soon as removed rows come in different orders, since that decides what is taken from its list next.
What it comes to is the same nonetheless (`Rows.Readable.removeSubtree_eq`).
-/

set_option autoImplicit false

namespace Playlists

/-! ## Outcomes and work compared -/

/-- Two outcomes are related results, one and the same refusal, or two refusals of one repeated row
in the words of either side. -/
inductive Tally {α β : Type} (repeated repeated' : String → Failure) (R : α → β → Prop) :
    Except Failure α → Except Failure β → Prop where
  | ok {a : α} {b : β} (h : R a b) : Tally repeated repeated' R (.ok a) (.ok b)
  | refused (failure : Failure) : Tally repeated repeated' R (.error failure) (.error failure)
  | repeated (path : String) :
    Tally repeated repeated' R (.error (repeated path)) (.error (repeated' path))

theorem Tally.refl {α : Type} {repeated repeated' : String → Failure} (x : Except Failure α) :
    Tally repeated repeated' Eq x x := by
  cases x with
  | error failure => exact .refused failure
  | ok a => exact .ok rfl

/-- Begun on the same readable rows, both pieces of work end on the same readable rows, with
outcomes that tally. -/
def Twin {α β : Type} (d d' : Dialect) (playlist : String) (R : α → β → Prop) (x : Edit α)
    (y : Edit β) : Prop :=
  ∀ rows : Rows, rows.Readable → ∃ outcome outcome' after,
    Tally (d.repeated · playlist) (d'.repeated · playlist) R outcome outcome' ∧
      Rows.Readable after ∧ x rows = attempt outcome after ∧ y rows = attempt outcome' after

/-- What a write-back re-keys ends up under paths of the tree. -/
theorem WriteBack.new_mem_of_movesTo {moves : Moves} {t : Tree} {changed : List Move}
    (h : movesTo moves t = .ok changed) {m : Move} (hm : m ∈ changed) : m.new ∈ t.paths := by
  obtain ⟨all, hall, h⟩ := Failure.bind_eq_ok_iff.1 h
  cases h
  obtain ⟨p, hp, hmove⟩ := Failure.exists_of_mem_mapM hall (List.mem_filter.1 hm).1
  rw [moveTo] at hmove
  split at hmove
  · cases hmove
    exact hp
  · cases hmove

namespace Twin

variable {α β γ δ : Type} {d d' : Dialect} {playlist : String} {R : α → β → Prop}
  {S : γ → δ → Prop}

/-! ## Steps in a row -/

theorem pure {a : α} {b : β} (h : R a b) : Twin d d' playlist R (pure a) (pure b) :=
  fun rows hrows => ⟨.ok a, .ok b, rows, .ok h, hrows, rfl, rfl⟩

theorem attempt (x : Except Failure α) : Twin d d' playlist Eq (attempt x) (attempt x) :=
  fun rows hrows => ⟨x, x, rows, .refl x, hrows, rfl, rfl⟩

theorem bind {x : Edit α} {y : Edit β} {f : α → Edit γ} {g : β → Edit δ}
    (h : Twin d d' playlist R x y) (hnext : ∀ a b, R a b → Twin d d' playlist S (f a) (g b)) :
    Twin d d' playlist S (x >>= f) (y >>= g) := by
  intro rows hrows
  obtain ⟨outcome, outcome', after, htally, hafter, hx, hy⟩ := h rows hrows
  cases htally with
  | ok hab =>
    rw [Run.bind_of_ok hx, Run.bind_of_ok hy]
    exact hnext _ _ hab after hafter
  | refused failure =>
    exact ⟨_, _, after, .refused failure, hafter, Run.bind_of_error hx, Run.bind_of_error hy⟩
  | repeated path =>
    exact ⟨_, _, after, .repeated path, hafter, Run.bind_of_error hx, Run.bind_of_error hy⟩

/-- What goes on after something that needs no rows may rely on how that came out. -/
theorem attempt_bind {x : Except Failure α} {f : α → Edit γ} {g : α → Edit δ}
    (hnext : ∀ a, x = .ok a → Twin d d' playlist S (f a) (g a)) :
    Twin d d' playlist S (Playlists.attempt x >>= f) (Playlists.attempt x >>= g) := by
  cases x with
  | ok a => exact hnext a rfl
  | error failure =>
    exact fun rows hrows => ⟨_, _, rows, .refused failure, hrows, rfl, rfl⟩

theorem forM {l : List α} {f g : α → Edit Unit} (h : ∀ a ∈ l, Twin d d' playlist Eq (f a) (g a)) :
    Twin d d' playlist Eq (l.forM f) (l.forM g) := by
  induction l with
  | nil => exact pure rfl
  | cons a rest ih =>
    rw [List.forall_mem_cons] at h
    exact bind h.1 fun _ _ _ => ih h.2

/-- Work whose result is handed on under another name. -/
theorem answer {x : Edit α} {y : Edit β} {f : α → γ} {g : β → δ} (h : Twin d d' playlist R x y)
    (hnext : ∀ a b, R a b → S (f a) (g b)) :
    Twin d d' playlist S (do return f (← x)) (do return g (← y)) :=
  bind h fun a b hab => pure (hnext a b hab)

/-! ## Reading -/

theorem rows : Twin d d' playlist Eq Edit.rows Edit.rows :=
  fun rows hrows => ⟨.ok rows.toList, .ok rows.toList, rows, .refl _, hrows, rfl, rfl⟩

theorem rowsUnder (lead : String) :
    Twin d d' playlist Eq (Edit.rowsUnder d lead) (Edit.rowsUnder d' lead) := by
  intro rows hrows
  have hunder : rows.toList.filter (d.isUnder lead) = rows.toList.filter (d'.isUnder lead) :=
    (hrows.filter_isUnder d lead).trans (hrows.filter_isUnder d' lead).symm
  exact ⟨.ok _, .ok _, rows, .ok hunder, hrows, rfl, rfl⟩

theorem lastPosition (parent : String) :
    Twin d d' playlist Eq (Edit.lastPosition d parent) (Edit.lastPosition d' parent) :=
  fun rows hrows => ⟨_, _, rows, .refl _, hrows, hrows.lastPosition_eq d parent,
    hrows.lastPosition_eq d' parent⟩

theorem pointsAt (kind : Kind) (item : String) :
    Twin d d' playlist Eq (Edit.pointsAt d kind item) (Edit.pointsAt d' kind item) := by
  intro rows hrows
  have hany : rows.toList.any (d.pointsAt kind item) = rows.toList.any (d'.pointsAt kind item) :=
    Bool.eq_iff_iff.2 ((any_pointsAt_iff d hrows).trans (any_pointsAt_iff d' hrows).symm)
  exact ⟨.ok _, .ok _, rows, .ok hany, hrows, rfl, rfl⟩

/-! ## Writing -/

theorem change {c : RowChange} (hword : ∀ p, c = .add p → p.position < UInt64.size) :
    Twin d d' playlist Eq (Edit.change d playlist c) (Edit.change d' playlist c) := by
  intro rows hrows
  cases c with
  | add p =>
    by_cases hrow : p.text ∈ rows.toList
    · exact ⟨_, _, rows, .repeated p.text, hrows, Edit.change_add_eq_error d hrow,
        Edit.change_add_eq_error d' hrow⟩
    · exact ⟨_, _, _, .ok rfl, hrows.put (hword p rfl), Edit.change_add_eq_ok d hrow,
        Edit.change_add_eq_ok d' hrow⟩
  | remove p =>
    by_cases hrow : p.text ∈ rows.toList
    · exact ⟨_, _, _, .ok rfl, hrows.filter _, Edit.change_remove_eq_ok d hrow,
        Edit.change_remove_eq_ok d' hrow⟩
    · exact ⟨_, _, rows, .refused _, hrows, Edit.change_remove_eq_error d hrow,
        Edit.change_remove_eq_error d' hrow⟩

theorem write {batch : Write} (hword : ∀ p ∈ batch.added, p.position < UInt64.size) :
    Twin d d' playlist Eq (Edit.write ⟨d, .never⟩ playlist batch)
      (Edit.write ⟨d', .never⟩ playlist batch) := by
  refine forM fun c hc => change fun p hp => hword p ?_
  subst hp
  cases batch with
  | insert paths =>
    obtain ⟨q, hq, heq⟩ := List.mem_map.1 hc
    cases heq
    exact hq
  | rekey moves =>
    rcases List.mem_append.1 hc with hold | hnew
    · obtain ⟨m, -, heq⟩ := List.mem_map.1 hold
      cases heq
    · obtain ⟨m, hm, heq⟩ := List.mem_map.1 hnew
      cases heq
      exact List.mem_map_of_mem hm

theorem append (parent : String) (kind : Kind) (item : String) :
    Twin d d' playlist Eq (Edit.append ⟨d, .never⟩ playlist parent kind item)
      (Edit.append ⟨d', .never⟩ playlist parent kind item) := by
  refine bind (lastPosition parent) fun last last' hlast => ?_
  subst hlast
  refine attempt_bind fun position hposition => attempt_bind fun path hpath => ?_
  have hword : path.position < UInt64.size := by
    obtain ⟨root, -, h⟩ := Failure.bind_eq_ok_iff.1 hpath
    obtain ⟨label, -, h⟩ := Failure.bind_eq_ok_iff.1 h
    cases h
    exact (positionAfter_lt_size hposition).2
  exact bind (write (List.forall_mem_singleton.2 hword)) fun _ _ _ => pure rfl

/-! ## Writing trees -/

theorem insertAll (w : WriteBack) {t : Tree} (ht : t.Storable) :
    Twin d d' w.playlist Eq (w.insertAll ⟨d, .never⟩ t) (w.insertAll ⟨d', .never⟩ t) :=
  attempt_bind fun _ _ => bind (write ht) fun _ _ _ => pure rfl

theorem updateAll (w : WriteBack) {t : Tree} (ht : t.Storable) (moves : Moves) :
    Twin d d' w.playlist Eq (w.updateAll ⟨d, .never⟩ t moves)
      (w.updateAll ⟨d', .never⟩ t moves) := by
  refine attempt_bind fun _ _ => attempt_bind fun changed hchanged => ?_
  -- Rows only come to paths of the tree, so none comes that cannot be read.
  have hword : ∀ p ∈ changed.map Move.new, p.position < UInt64.size :=
    List.forall_mem_map.2 fun m hm => ht _ (WriteBack.new_mem_of_movesTo hchanged hm)
  by_cases hstill : changed.isEmpty = true
  · rw [if_pos hstill, if_pos hstill]
    exact pure rfl
  · rw [if_neg hstill, if_neg hstill]
    exact bind (write hword) fun _ _ _ => pure rfl

/-! ## Removing -/

/-- Tests that agree on paths take the same rows away. They are reported in either order. -/
theorem removeWhere {doomed doomed' : String → Bool}
    (h : ∀ p : Path, doomed p.text = doomed' p.text) :
    Twin d d' playlist List.Perm (Edit.removeWhere d doomed) (Edit.removeWhere d' doomed') := by
  intro rows hrows
  -- Every row is a path, so the tests agree on all there is to test.
  have hrow : ∀ row ∈ rows.toList, doomed row = doomed' row := by
    intro row hrow
    obtain ⟨p, -, rfl⟩ := hrows.text_mem hrow
    exact h p
  have hgone : rows.filter doomed = rows.filter doomed' :=
    KeyedList.ext_toList (List.filter_congr hrow)
  have hkept : rows.filter (fun row => !doomed row) = rows.filter fun row => !doomed' row :=
    KeyedList.ext_toList (List.filter_congr fun row hmem => congrArg (!·) (hrow row hmem))
  have hperm : (d.report (rows.filter doomed).toList).Perm
      (d'.report (rows.filter doomed').toList) :=
    hgone ▸ (d.report_perm _).trans (d'.report_perm _).symm
  refine ⟨.ok _, .ok _, _, .ok hperm, hrows.filter _, rfl, ?_⟩
  rw [hkept]
  rfl

theorem removeItem (item : String) :
    Twin d d' playlist List.Perm (Edit.removeItem d item) (Edit.removeItem d' item) :=
  removeWhere fun p => by rw [d.isOfItem_text, d'.isOfItem_text]

theorem removeUnder (lead : String) :
    Twin d d' playlist List.Perm (Edit.removeUnder d lead) (Edit.removeUnder d' lead) :=
  removeWhere fun p => by rw [d.isUnder_text, d'.isUnder_text]

theorem removeSubtree (item : String) :
    Twin d d' playlist Eq (Edit.removeSubtree d playlist item)
      (Edit.removeSubtree d' playlist item) :=
  fun _ hrows => ⟨_, _, _, .ok rfl, hrows.remaining playlist item,
    hrows.removeSubtree_eq d playlist item, hrows.removeSubtree_eq d' playlist item⟩

theorem clear : Twin d d' playlist Eq Edit.clear Edit.clear :=
  fun _ _ => ⟨_, _, .empty, .ok rfl, fun _ hrow => absurd hrow KeyedList.mem_empty, rfl, rfl⟩

end Twin

end Playlists
