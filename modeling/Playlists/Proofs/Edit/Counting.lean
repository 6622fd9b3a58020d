import Mathlib
import Playlists.Proofs.Edit.WriteBack

/-!
# `Proofs/Edit/Counting.lean` — how many rows a write leaves

A row is put only where it was not, and taken only where it was. So a write that succeeds changes
the number of rows by what its batch says (`Write.gain`), whatever the rows are: insertions count
every path once, and moves count nothing. That also holds of a write-back, for which it matters that
the entries it inserts are as many as the paths that were created and are new
(`Moves.size_arrived`).
-/

set_option autoImplicit false

namespace Playlists

open Run (Ensures)

/-- By how many rows a change makes a playlist larger. -/
def RowChange.gain : RowChange → Int
  | add _ => 1
  | remove _ => -1

/-- By how many rows a batch makes a playlist larger. -/
def Write.gain (batch : Write) : Int :=
  (batch.changes.map RowChange.gain).sum

namespace Write

theorem gain_insert (paths : List Path) : (insert paths).gain = paths.length := by
  simp [gain, changes, Function.comp_def, RowChange.gain]

theorem gain_rekey (moves : List Move) : (rekey moves).gain = 0 := by
  simp [gain, changes, Function.comp_def, RowChange.gain]

end Write

namespace Edit

variable (d : Dialect) (playlist : String) (rows : Rows)

theorem change_counts (c : RowChange) :
    Ensures (change d playlist c) rows fun _ after => (after.size : Int) = rows.size + c.gain := by
  intro u after h
  cases c with
  | add p =>
    by_cases hrow : p.text ∈ rows.toList
    · rw [change_add_eq_error d hrow] at h
      cases h
    · rw [change_add_eq_ok d hrow] at h
      cases h
      have hnew : ∀ row ∈ rows.toList, row ≠ p.text := fun row hmem heq => hrow (heq ▸ hmem)
      have hsize : (rows.put p.text).size = rows.size + 1 := KeyedList.size_put_of_not_contains hnew
      simp [hsize, RowChange.gain]
  | remove p =>
    by_cases hrow : p.text ∈ rows.toList
    · rw [change_remove_eq_ok d hrow] at h
      cases h
      have hsize : (rows.erase p.text).size + 1 = rows.size := KeyedList.size_erase_of_mem hrow
      simp [← hsize, RowChange.gain]
    · rw [change_remove_eq_error d hrow] at h
      cases h

theorem forM_change_counts (changes : List RowChange) :
    Ensures (changes.forM (change d playlist)) rows
      fun _ after => (after.size : Int) = rows.size + (changes.map RowChange.gain).sum := by
  induction changes generalizing rows with
  | nil => exact .pure (Int.add_zero _).symm
  | cons c rest ih =>
    refine .bind (change_counts d playlist rows c) fun _ t ht => ?_
    intro u after h
    rw [ih t u after h, ht, List.map_cons, List.sum_cons, Int.add_assoc]

/-- A write that succeeds changes the number of rows by what its batch says. -/
theorem write_counts (backend : Backend) (batch : Write) :
    Ensures (write backend playlist batch) rows
      fun _ after => (after.size : Int) = rows.size + batch.gain := by
  intro u after h
  exact forM_change_counts backend.dialect playlist rows batch.changes u after
    (write_below backend playlist batch rows u after h)

theorem insert_counts (backend : Backend) (paths : List Path) :
    Ensures (insert backend playlist paths) rows
      fun _ after => after.size = rows.size + paths.length := by
  intro u after h
  have hsize := write_counts playlist rows backend (.insert paths) u after h
  rw [Write.gain_insert] at hsize
  exact_mod_cast hsize

theorem rekey_counts (backend : Backend) (moves : List Move) :
    Ensures (rekey backend playlist moves) rows fun _ after => after.size = rows.size := by
  intro u after h
  have hsize := write_counts playlist rows backend (.rekey moves) u after h
  rw [Write.gain_rekey, Int.add_zero] at hsize
  exact_mod_cast hsize

end Edit

namespace WriteBack

variable (w : WriteBack) (backend : Backend) (t : Tree) (rows : Rows)

theorem insertAll_counts :
    Ensures (w.insertAll backend t) rows fun _ after => after.size = rows.size + t.size := by
  refine .after_attempt fun _ _ => ?_
  refine .bind (Edit.insert_counts w.playlist rows backend t.paths) fun _ after hafter => .pure ?_
  rw [hafter, Tree.paths, List.length_map]
  rfl

theorem updateAll_counts (moves : Moves) :
    Ensures (w.updateAll backend t moves) rows fun _ after => after.size = rows.size := by
  refine .after_attempt fun _ _ => .after_attempt fun changed _ => ?_
  refine .ite (fun _ => .pure rfl) fun _ => ?_
  exact .bind (Edit.rekey_counts w.playlist rows backend changed) fun _ _ hafter => .pure hafter

end WriteBack

/-- Of fresh paths that are in the tree, every one is where one entry comes from. -/
theorem Moves.size_arrived {before after : Tree} {steps : List (Entry × Entry)}
    (h : before.Rearranges after steps) {fresh : List Path} (hnodup : fresh.Nodup)
    (hfresh : ∀ p ∈ fresh, p ∈ before.paths) :
    ((Tree.movesAmong steps).arrived fresh after).size = fresh.length := by
  have horigins : (((Tree.movesAmong steps).arrived fresh after).paths.map
      (Tree.movesAmong steps).origin).Nodup := by
    refine List.Nodup.map_on (fun p hp q hq heq => ?_) (Tree.nodup_paths _)
    exact h.origin_inj (mem_paths_arrived.1 hp).1 (mem_paths_arrived.1 hq).1 heq
  -- Each fresh path is where exactly one entry comes from.
  have hperm : (((Tree.movesAmong steps).arrived fresh after).paths.map
      (Tree.movesAmong steps).origin).Perm fresh := by
    refine (List.perm_ext_iff_of_nodup horigins hnodup).2 fun p => ?_
    rw [List.mem_map]
    constructor
    · rintro ⟨q, hq, rfl⟩
      exact (mem_paths_arrived.1 hq).2
    · intro hp
      obtain ⟨q, hq, rfl⟩ := h.exists_origin (hfresh p hp)
      exact ⟨q, mem_paths_arrived.2 ⟨hq, hp⟩, rfl⟩
  have hlength := hperm.length_eq
  rwa [List.length_map, Tree.paths, List.length_map] at hlength

end Playlists
