import Mathlib.Data.List.Nodup
import Playlists.Edit.Append
import Playlists.Edit.WriteBack
import Playlists.Proofs.Edit.Run

/-!
# `Proofs/Edit/Batch.lean` — writing many rows at once

A batch of rows is written one row after another, and each row is looked at when its turn comes. On
a medium that never fails the outcome can be said in advance: if the rows to go are there and the
rows to come are not, each of them once, the batch succeeds (`rekey_eq_ok`, `insert_eq_ok`). The
rows to go are all gone before the first one comes, so a row may come to where another has just
left.

A medium that fails only ever fails. What succeeds on it succeeds with the same result on one that
does not (`Run.Below`), so whatever is proved of successful work on a medium that never fails holds
on every medium.
-/

set_option autoImplicit false

namespace Playlists

namespace Edit

variable {playlist : String} {rows : Rows} {paths : List Path}

/-- The rows without those of some paths. -/
def lacking (rows : Rows) (paths : List Path) : Rows :=
  rows.filter fun row => !(paths.map Path.text).contains row

theorem mem_lacking {row : String} :
    row ∈ (lacking rows paths).toList ↔ row ∈ rows.toList ∧ ∀ p ∈ paths, p.text ≠ row := by
  rw [lacking, KeyedList.mem_filter, Bool.not_eq_true', ← Bool.not_eq_true,
    List.contains_iff_mem, List.mem_map, not_exists]
  simp only [not_and]

theorem mem_of_contains {row : String} (h : rows.contains row = true) : row ∈ rows.toList := by
  obtain ⟨row, hrow, rfl⟩ := KeyedList.contains_iff.1 h
  exact hrow

theorem change_remove_eq_ok (d : Dialect) {p : Path} (h : p.text ∈ rows.toList) :
    change d playlist (.remove p) rows = .ok () (rows.erase p.text) := by
  have hthere : rows.contains p.text = true := KeyedList.contains_iff.2 ⟨_, h, rfl⟩
  rw [change, Run.bind_of_ok (Run.get_eq rows), if_pos hthere]
  rfl

theorem change_add_eq_ok (d : Dialect) {p : Path} (h : p.text ∉ rows.toList) :
    change d playlist (.add p) rows = .ok () (rows.put p.text) := by
  have hfree : ¬ rows.contains p.text = true := fun hthere => h (mem_of_contains hthere)
  rw [change, Run.bind_of_ok (Run.get_eq rows), if_neg hfree]
  rfl

theorem change_remove_eq_error (d : Dialect) {p : Path} (h : p.text ∉ rows.toList) :
    change d playlist (.remove p) rows = .error (.missingPath p.text playlist) rows := by
  have hmissing : ¬ rows.contains p.text = true := fun hthere => h (mem_of_contains hthere)
  rw [change, Run.bind_of_ok (Run.get_eq rows), if_neg hmissing]
  rfl

theorem change_add_eq_error (d : Dialect) {p : Path} (h : p.text ∈ rows.toList) :
    change d playlist (.add p) rows = .error (d.repeated p.text playlist) rows := by
  have hthere : rows.contains p.text = true := KeyedList.contains_iff.2 ⟨_, h, rfl⟩
  rw [change, Run.bind_of_ok (Run.get_eq rows), if_pos hthere]
  rfl

/-- Why a row cannot be changed. -/
def refusal (d : Dialect) (playlist : String) : RowChange → Failure
  | .add path => d.repeated path.text playlist
  | .remove path => .missingPath path.text playlist

theorem change_ok_or_error (d : Dialect) (playlist : String) (c : RowChange) (rows : Rows) :
    (∃ after, change d playlist c rows = .ok () after) ∨
      ∃ after, change d playlist c rows = .error (refusal d playlist c) after := by
  cases c with
  | add p =>
    by_cases hrow : p.text ∈ rows.toList
    · exact .inr ⟨rows, change_add_eq_error d hrow⟩
    · exact .inl ⟨_, change_add_eq_ok d hrow⟩
  | remove p =>
    by_cases hrow : p.text ∈ rows.toList
    · exact .inl ⟨_, change_remove_eq_ok d hrow⟩
    · exact .inr ⟨rows, change_remove_eq_error d hrow⟩

theorem forM_remove_eq_ok (d : Dialect) (hnodup : paths.Nodup)
    (h : ∀ p ∈ paths, p.text ∈ rows.toList) :
    (paths.map RowChange.remove).forM (change d playlist) rows = .ok () (lacking rows paths) := by
  induction paths generalizing rows with
  | nil =>
    have hall : lacking rows [] = rows := KeyedList.ext_mem fun row => by simp [mem_lacking]
    rw [hall]
    rfl
  | cons p rest ih =>
    rw [List.nodup_cons] at hnodup
    -- Each path is there once, so the others are still there when it is gone.
    have hrest : ∀ q ∈ rest, q.text ∈ (rows.erase p.text).toList := by
      intro q hq
      refine KeyedList.mem_erase.2 ⟨h q (List.mem_cons_of_mem _ hq), fun htext => hnodup.1 ?_⟩
      exact Path.text_injective htext ▸ hq
    have hlast : lacking (rows.erase p.text) rest = lacking rows (p :: rest) := by
      refine KeyedList.ext_mem fun row => ?_
      rw [mem_lacking, mem_lacking, KeyedList.mem_erase, List.forall_mem_cons, and_assoc,
        ne_comm (a := p.text)]
      rfl
    show (change d playlist (.remove p) >>= fun _ =>
      (rest.map RowChange.remove).forM (change d playlist)) rows = _
    rw [Run.bind_of_ok (change_remove_eq_ok d (h p List.mem_cons_self)), ih hnodup.2 hrest, hlast]

theorem forM_add_eq_ok (d : Dialect) (hnodup : paths.Nodup)
    (h : ∀ p ∈ paths, p.text ∉ rows.toList) :
    (paths.map RowChange.add).forM (change d playlist) rows
      = .ok () (rows.putAll (paths.map Path.text)) := by
  induction paths generalizing rows with
  | nil => rfl
  | cons p rest ih =>
    rw [List.nodup_cons] at hnodup
    have hrest : ∀ q ∈ rest, q.text ∉ (rows.put p.text).toList := by
      intro q hq hmem
      rcases KeyedList.mem_put.1 hmem with htext | ⟨hold, -⟩
      · exact hnodup.1 (Path.text_injective htext ▸ hq)
      · exact h q (List.mem_cons_of_mem _ hq) hold
    show (change d playlist (.add p) >>= fun _ =>
      (rest.map RowChange.add).forM (change d playlist)) rows = _
    rw [Run.bind_of_ok (change_add_eq_ok d (h p List.mem_cons_self)), ih hnodup.2 hrest]
    rfl

/-- Rows that are not there yet can be inserted. -/
theorem insert_eq_ok (d : Dialect) (hnodup : paths.Nodup) (h : ∀ p ∈ paths, p.text ∉ rows.toList) :
    insert ⟨d, .never⟩ playlist paths rows = .ok () (rows.putAll (paths.map Path.text)) :=
  forM_add_eq_ok d hnodup h

/-- Moving rows is taking all the old ones away and then bringing all the new ones in. -/
theorem rekey_eq_bind (d : Dialect) (playlist : String) (moves : List Move) (rows : Rows) :
    rekey ⟨d, .never⟩ playlist moves rows
      = (((moves.map Move.old).map RowChange.remove).forM (change d playlist) >>= fun _ =>
          ((moves.map Move.new).map RowChange.add).forM (change d playlist)) rows := by
  rw [List.map_map, List.map_map]
  show (moves.map (fun m => RowChange.remove m.old)
    ++ moves.map (fun m => RowChange.add m.new)).forM (change d playlist) rows = _
  rw [List.forM_eq_forM, List.forM_append]
  rfl

/-- Rows can be moved to where no other row stays. -/
theorem rekey_eq_ok (d : Dialect) {moves : List Move} (hold : (moves.map Move.old).Nodup)
    (hnew : (moves.map Move.new).Nodup) (hthere : ∀ m ∈ moves, m.old.text ∈ rows.toList)
    (hfree : ∀ m ∈ moves, m.new.text ∈ rows.toList → ∃ n ∈ moves, n.old = m.new) :
    rekey ⟨d, .never⟩ playlist moves rows
      = .ok () ((lacking rows (moves.map Move.old)).putAll
          ((moves.map Move.new).map Path.text)) := by
  have hremove : ((moves.map Move.old).map RowChange.remove).forM (change d playlist) rows
      = .ok () (lacking rows (moves.map Move.old)) :=
    forM_remove_eq_ok d hold (List.forall_mem_map.2 hthere)
  have hadd : ((moves.map Move.new).map RowChange.add).forM (change d playlist)
      (lacking rows (moves.map Move.old))
        = .ok () ((lacking rows (moves.map Move.old)).putAll
            ((moves.map Move.new).map Path.text)) := by
    -- By the time a row comes, one that was in its place has left.
    refine forM_add_eq_ok d hnew (List.forall_mem_map.2 fun m hm hmem => ?_)
    obtain ⟨hrow, hgone⟩ := mem_lacking.1 hmem
    obtain ⟨n, hn, heq⟩ := hfree m hm hrow
    exact hgone n.old (List.mem_map_of_mem hn) (congrArg Path.text heq)
  rw [rekey_eq_bind, Run.bind_of_ok hremove, hadd]

/-! ### What a batch that was written tells of the rows -/

theorem of_change_remove_eq_ok {d : Dialect} {p : Path} {after : Rows}
    (h : change d playlist (.remove p) rows = .ok () after) :
    p.text ∈ rows.toList ∧ after = rows.erase p.text := by
  by_cases hrow : p.text ∈ rows.toList
  · rw [change_remove_eq_ok d hrow] at h
    cases h
    exact ⟨hrow, rfl⟩
  · rw [change_remove_eq_error d hrow] at h
    cases h

theorem of_change_add_eq_ok {d : Dialect} {p : Path} {after : Rows}
    (h : change d playlist (.add p) rows = .ok () after) :
    p.text ∉ rows.toList ∧ after = rows.put p.text := by
  by_cases hrow : p.text ∈ rows.toList
  · rw [change_add_eq_error d hrow] at h
    cases h
  · rw [change_add_eq_ok d hrow] at h
    cases h
    exact ⟨hrow, rfl⟩

/-- A row that has been taken away is not there for a second time. -/
theorem of_forM_remove_eq_ok {d : Dialect} {after : Rows}
    (h : (paths.map RowChange.remove).forM (change d playlist) rows = .ok () after) :
    paths.Nodup ∧ ∀ p ∈ paths, p.text ∈ rows.toList := by
  induction paths generalizing rows with
  | nil => exact ⟨.nil, List.forall_mem_nil _⟩
  | cons p rest ih =>
    obtain ⟨u, left, hfirst, hrest⟩ := Run.bind_eq_ok_iff.1 h
    obtain ⟨hrow, rfl⟩ := of_change_remove_eq_ok hfirst
    obtain ⟨hnodup, hthere⟩ := ih hrest
    refine ⟨List.nodup_cons.2 ⟨fun hp => ?_, hnodup⟩, List.forall_mem_cons.2 ⟨hrow, fun q hq => ?_⟩⟩
    · exact (KeyedList.mem_erase.1 (hthere p hp)).2 rfl
    · exact (KeyedList.mem_erase.1 (hthere q hq)).1

/-- A row that has been added is in the way of a second one. -/
theorem of_forM_add_eq_ok {d : Dialect} {after : Rows}
    (h : (paths.map RowChange.add).forM (change d playlist) rows = .ok () after) :
    paths.Nodup ∧ ∀ p ∈ paths, p.text ∉ rows.toList := by
  induction paths generalizing rows with
  | nil => exact ⟨.nil, List.forall_mem_nil _⟩
  | cons p rest ih =>
    obtain ⟨u, grown, hfirst, hrest⟩ := Run.bind_eq_ok_iff.1 h
    obtain ⟨hrow, rfl⟩ := of_change_add_eq_ok hfirst
    obtain ⟨hnodup, hfree⟩ := ih hrest
    refine ⟨List.nodup_cons.2 ⟨fun hp => ?_, hnodup⟩,
      List.forall_mem_cons.2 ⟨hrow, fun q hq hold => ?_⟩⟩
    · exact hfree p hp (KeyedList.mem_put.2 (.inl rfl))
    · refine hfree q hq (KeyedList.mem_put.2 (.inr ⟨hold, fun htext => ?_⟩))
      exact hrow ((show q.text = p.text from htext) ▸ hold)

/-- Rows that were moved were there, no two of them came from or went to one place, and none went to
where another stayed. -/
theorem of_rekey_eq_ok {d : Dialect} {moves : List Move} {after : Rows}
    (h : rekey ⟨d, .never⟩ playlist moves rows = .ok () after) :
    ((moves.map Move.old).Nodup ∧ ∀ m ∈ moves, m.old.text ∈ rows.toList) ∧
    ((moves.map Move.new).Nodup ∧
      ∀ m ∈ moves, m.new.text ∈ rows.toList → ∃ n ∈ moves, n.old = m.new) ∧
    after = (lacking rows (moves.map Move.old)).putAll ((moves.map Move.new).map Path.text) := by
  rw [rekey_eq_bind] at h
  obtain ⟨u, left, hremove, hadd⟩ := Run.bind_eq_ok_iff.1 h
  obtain ⟨holds, hthere⟩ := of_forM_remove_eq_ok hremove
  cases hremove.symm.trans (forM_remove_eq_ok d holds hthere)
  obtain ⟨hnews, hfree⟩ := of_forM_add_eq_ok hadd
  cases hadd.symm.trans (forM_add_eq_ok d hnews hfree)
  refine ⟨⟨holds, fun m hm => hthere m.old (List.mem_map_of_mem hm)⟩,
    ⟨hnews, fun m hm hrow => ?_⟩, rfl⟩
  -- A row that no move takes away would still be there and refuse the new one.
  by_contra hstays
  refine hfree m.new (List.mem_map_of_mem hm) (mem_lacking.2 ⟨hrow, fun p hp htext => ?_⟩)
  obtain ⟨n, hn, rfl⟩ := List.mem_map.1 hp
  exact hstays ⟨n, hn, Path.text_injective htext⟩

/-- A batch that a medium writes is written alike by one that never fails. -/
theorem write_below (backend : Backend) (playlist : String) (batch : Write) :
    Run.Below (write backend playlist batch) (write ⟨backend.dialect, .never⟩ playlist batch) := by
  intro rows u after h
  cases hfault : backend.faults batch with
  | none =>
    rw [write, hfault] at h
    exact h
  | some interruption =>
    rw [write, hfault] at h
    obtain ⟨-, t, -, hthrow⟩ := Run.bind_eq_ok_iff.1 h
    cases hthrow

end Edit

end Playlists
