import Playlists.Proofs.Edit.WriteBack

/-!
# `Proofs/Edit/Moving.lean` — moving rows never changes what is stored

The moves that a write-back is given need not come from a renumbering. They may bring two entries
from one path, from a path that is not stored, or to one that is; they may form chains and cycles;
they may say nothing of an entry, or speak of entries that are not in the tree. Whatever they say,
the write-back takes only those that change an entry's path, and of these only the position
(`Moves.steps`, `WriteBack.movesTo_eq_ok_iff`).

What remains is decided by the rows: the batch goes through only if every row it takes is there, and
once, and every row it brings is not (`Edit.of_rekey_eq_ok`). So one row comes for each that goes,
of the same item and the same kind under the same label, and the rows say of what is stored what
they said before (`perm_entries_of_rekeyed`).
-/

set_option autoImplicit false

namespace Playlists

open Run (Ensures)

/-- What a path says of its entry apart from the position: where it is, what it points at, and the
item. -/
def Path.entry (p : Path) : Label × Kind × Label :=
  (p.root, p.kind, p.item)

theorem Path.entry_eq_of_sameEntry {p q : Path} (h : p.sameEntry q = true) : p.entry = q.entry := by
  obtain ⟨hroot, hkind, hitem⟩ := Path.sameEntry_iff.1 h
  rw [Path.entry, hroot, hkind, hitem]
  rfl

/-! ## Rows that are moved -/

namespace Edit

variable {d : Dialect} {playlist : String} {moves : List Move} {rows after : Rows}

theorem mem_rows_of_rekeyed (h : rekey ⟨d, .never⟩ playlist moves rows = .ok () after)
    {row : String} : row ∈ after.toList ↔
      (row ∈ rows.toList ∧ ∀ m ∈ moves, m.old.text ≠ row) ∨ ∃ m ∈ moves, m.new.text = row := by
  obtain ⟨-, -, rfl⟩ := of_rekey_eq_ok h
  rw [KeyedList.mem_texts_putAll, mem_lacking, or_comm]
  simp only [List.map_map, List.mem_map, Function.comp_apply, forall_exists_index, and_imp,
    forall_apply_eq_imp_iff₂]

/-- The paths of some rows that no move takes. -/
def staying (rows : Rows) (moves : List Move) : List Path :=
  rows.paths.filter fun p => !(moves.map Move.old).contains p

theorem mem_staying {p : Path} :
    p ∈ staying rows moves ↔ p ∈ rows.paths ∧ p ∉ moves.map Move.old := by
  rw [staying, List.mem_filter, Bool.not_eq_true', ← Bool.not_eq_true, List.contains_iff_mem]

theorem nodup_staying : (staying rows moves).Nodup :=
  rows.nodup_paths.filter _

/-- Before the moves there are the paths that go and those that stay. -/
theorem perm_old_append_staying (h : rekey ⟨d, .never⟩ playlist moves rows = .ok () after)
    (hword : ∀ m ∈ moves, m.old.position < UInt64.size) :
    rows.paths.Perm (moves.map Move.old ++ staying rows moves) := by
  obtain ⟨⟨holds, hthere⟩, -, -⟩ := of_rekey_eq_ok h
  have hdisjoint : (moves.map Move.old).Disjoint (staying rows moves) := fun p hp hstays =>
    (mem_staying.1 hstays).2 hp
  refine (List.perm_ext_iff_of_nodup rows.nodup_paths
    (List.Nodup.append holds nodup_staying hdisjoint)).2 fun p => ?_
  rw [List.mem_append, mem_staying]
  constructor
  · intro hp
    by_cases hgoes : p ∈ moves.map Move.old
    · exact .inl hgoes
    · exact .inr ⟨hp, hgoes⟩
  -- Of a row that goes it is known that it is there. That it can be read takes a position that is a
  -- word.
  · rintro (hp | ⟨hp, -⟩)
    · obtain ⟨m, hm, rfl⟩ := List.mem_map.1 hp
      exact Rows.mem_paths.2 ⟨hthere m hm, hword m hm⟩
    · exact hp

/-- After the moves there are the paths that come and those that stay. -/
theorem perm_new_append_staying (h : rekey ⟨d, .never⟩ playlist moves rows = .ok () after)
    (hword : ∀ m ∈ moves, m.new.position < UInt64.size) :
    after.paths.Perm (moves.map Move.new ++ staying rows moves) := by
  obtain ⟨-, ⟨hnews, hfree⟩, -⟩ := of_rekey_eq_ok h
  have hdisjoint : (moves.map Move.new).Disjoint (staying rows moves) := by
    intro p hp hstays
    obtain ⟨hrow, hkept⟩ := mem_staying.1 hstays
    obtain ⟨m, hm, rfl⟩ := List.mem_map.1 hp
    -- A row can only come where there is one if that one goes.
    obtain ⟨n, hn, heq⟩ := hfree m hm (Rows.mem_paths.1 hrow).1
    exact hkept (heq ▸ List.mem_map_of_mem hn)
  refine (List.perm_ext_iff_of_nodup after.nodup_paths
    (List.Nodup.append hnews nodup_staying hdisjoint)).2 fun p => ?_
  rw [List.mem_append, mem_staying, Rows.mem_paths, mem_rows_of_rekeyed h, Rows.mem_paths]
  constructor
  · rintro ⟨⟨hrow, hkept⟩ | ⟨m, hm, htext⟩, hlt⟩
    · refine .inr ⟨⟨hrow, hlt⟩, fun hgoes => ?_⟩
      obtain ⟨m, hm, rfl⟩ := List.mem_map.1 hgoes
      exact hkept m hm rfl
    · exact .inl (Path.text_injective htext ▸ List.mem_map_of_mem hm)
  · rintro (hp | ⟨⟨hrow, hlt⟩, hkept⟩)
    · obtain ⟨m, hm, rfl⟩ := List.mem_map.1 hp
      exact ⟨.inr ⟨m, hm, rfl⟩, hword m hm⟩
    · refine ⟨.inl ⟨hrow, fun m hm htext => hkept ?_⟩, hlt⟩
      exact Path.text_injective htext ▸ List.mem_map_of_mem hm

/-- One row comes for each that goes, and it says the same of its entry. -/
theorem perm_entries_of_rekeyed (h : rekey ⟨d, .never⟩ playlist moves rows = .ok () after)
    (hsame : ∀ m ∈ moves, m.old.entry = m.new.entry)
    (hword : ∀ m ∈ moves, m.old.position < UInt64.size ∧ m.new.position < UInt64.size) :
    (after.paths.map Path.entry).Perm (rows.paths.map Path.entry) := by
  have hbefore := perm_old_append_staying h fun m hm => (hword m hm).1
  have hafter := perm_new_append_staying h fun m hm => (hword m hm).2
  have hmoved : (moves.map Move.new ++ staying rows moves).map Path.entry
      = (moves.map Move.old ++ staying rows moves).map Path.entry := by
    rw [List.map_append, List.map_append, List.map_map, List.map_map]
    exact congrArg (· ++ _) (List.map_congr_left fun m hm => (hsame m hm).symm)
  have hentries := hafter.map Path.entry
  rw [hmoved] at hentries
  exact hentries.trans (hbefore.map Path.entry).symm

end Edit

namespace WriteBack

variable {w : WriteBack} {backend : Backend} {t : Tree} {moves : Moves} {rows after : Rows}

/-! ## What is written at all -/

/-- A tree is written if it has an entry, all of them agree with their paths, and all stand under
labels that the playlist knows. -/
theorem check_eq_ok_iff : w.check t = .ok () ↔
    t.isEmpty = false ∧ t.Agreeing ∧ ∀ p ∈ t.paths, p.root.text ∈ w.roots.toList := by
  constructor
  · intro h
    rw [check] at h
    split at h
    · cases h
    · next hne =>
      obtain ⟨u, hvalid, hknown⟩ := Failure.bind_eq_ok_iff.1 h
      refine ⟨Bool.eq_false_iff.2 hne, Tree.validate_eq_ok_iff.1 hvalid, fun p hp => ?_⟩
      obtain ⟨e, he, rfl⟩ := List.mem_map.1 hp
      have hroot := Failure.forM_eq_ok_iff.1 hknown e he
      rw [checkRoot] at hroot
      split at hroot
      · next hcontains => exact Edit.mem_of_contains hcontains
      · cases hroot
  · rintro ⟨hne, ha, hroots⟩
    exact check_eq_ok hne ha hroots

theorem moveTo_eq_ok_iff {p : Path} {m : Move} :
    moveTo moves p = .ok m ↔ (moves.origin p).sameEntry p = true ∧ ⟨moves.origin p, p⟩ = m := by
  rw [moveTo]
  split
  · next hsame => simp [hsame]
  · next hother => simp [hother]

/-- The moves to write are the steps of the displaced entries. -/
theorem movesTo_eq_ok_iff {changed : List Move} : movesTo moves t = .ok changed ↔
    (∀ p ∈ t.paths, (moves.origin p).sameEntry p = true) ∧ moves.steps t = changed := by
  have hall : (∀ p ∈ t.paths, (moves.origin p).sameEntry p = true) →
      movesTo moves t = .ok (moves.steps t) := by
    intro hsame
    rw [movesTo, Failure.mapM_eq_ok fun p hp => moveTo_eq_ok_iff.2 ⟨hsame p hp, rfl⟩]
    refine congrArg Except.ok ?_
    rw [Moves.steps, Moves.displaced, Tree.paths, Tree.paths, KeyedList.filter, List.map_map,
      List.map_map, List.filter_map]
    rfl
  constructor
  -- One move that changes an identity refuses all of them, so success tells of every entry.
  · intro h
    obtain ⟨every, hevery, -⟩ := Failure.bind_eq_ok_iff.1 h
    have hsame : ∀ p ∈ t.paths, (moves.origin p).sameEntry p = true := by
      intro p hp
      obtain ⟨m, hm⟩ := Failure.exists_eq_ok_of_mapM hevery hp
      exact (moveTo_eq_ok_iff.1 hm).1
    rw [hall hsame] at h
    exact ⟨hsame, Except.ok.inj h⟩
  · rintro ⟨hsame, rfl⟩
    exact hall hsame

/-- What a write-back has found in order when it succeeds, and what it has written. -/
theorem updateAll_ensures (w : WriteBack) (backend : Backend) (t : Tree) (moves : Moves)
    (rows : Rows) : Ensures (w.updateAll backend t moves) rows fun n after =>
      (∀ p ∈ t.paths, p.root.text ∈ w.roots.toList) ∧
      (∀ p ∈ t.paths, (moves.origin p).sameEntry p = true) ∧ n = (moves.displaced t).size ∧
      Edit.rekey ⟨backend.dialect, .never⟩ w.playlist (moves.steps t) rows = .ok () after := by
  refine .after_attempt fun _ hcheck => .after_attempt fun changed hchanged => ?_
  obtain ⟨-, -, hroots⟩ := check_eq_ok_iff.1 hcheck
  obtain ⟨hsame, rfl⟩ := movesTo_eq_ok_iff.1 hchanged
  have hsize : (moves.steps t).length = (moves.displaced t).size := by
    rw [Moves.steps, List.length_map, Tree.paths, List.length_map]
    rfl
  -- No moves are not written at all, which comes to the same as a batch of none.
  refine .ite (fun hnone => .pure ⟨hroots, hsame, hsize, ?_⟩) fun _ => ?_
  · rw [List.isEmpty_iff.1 hnone]
    rfl
  · refine .bind (P := fun _ after => Edit.rekey ⟨backend.dialect, .never⟩ w.playlist
      (moves.steps t) rows = .ok () after) (fun u after hrun => ?_) fun _ after hrekey =>
        .pure ⟨hroots, hsame, hsize, hrekey⟩
    exact Edit.write_below backend w.playlist (.rekey (moves.steps t)) rows u after hrun

/-- A write-back that finds something out of order stops before it touches a row. -/
theorem updateAll_eq_error (hbad : ¬ (t.isEmpty = false ∧ t.Agreeing ∧
      ∀ p ∈ t.paths, p.root.text ∈ w.roots.toList) ∨
      ¬ ∀ p ∈ t.paths, (moves.origin p).sameEntry p = true) :
    ∃ failure, w.updateAll backend t moves rows = .error failure rows := by
  rw [updateAll]
  cases hcheck : w.check t with
  | error failure => exact ⟨failure, Run.bind_of_error (Run.attempt_error failure)⟩
  | ok u =>
    rw [Run.bind_of_ok (Run.attempt_ok u)]
    cases hmoves : movesTo moves t with
    | error failure => exact ⟨failure, Run.bind_of_error (Run.attempt_error failure)⟩
    | ok changed =>
      exact absurd hbad (not_or.2 ⟨not_not.2 (check_eq_ok_iff.1 hcheck),
        not_not.2 (movesTo_eq_ok_iff.1 hmoves).1⟩)

/-- The path that an entry had before is as storable as the paths that the moves speak of. -/
theorem origin_lt_size (hmoves : ∀ m ∈ moves.toList, m.old.position < UInt64.size) {p : Path}
    (hp : p.position < UInt64.size) : (moves.origin p).position < UInt64.size := by
  rw [Moves.origin]
  split
  · next m hm => exact hmoves m (KeyedList.find?_eq_some_iff.1 hm).1
  · exact hp

/-- **A write-back can only move rows, whatever moves it is given.** If it succeeds, on whatever
medium, the rows are those that there were, without the former ones of the entries that have moved
and with the present ones of these, which stand under labels that the playlist knows; what the rows
that can be read say of their entries besides the position is the same, as often as before; and the
entries that have moved are counted. If there is nothing to write, if an entry disagrees with its
path or stands under another label, or if a move would change more than a position, it stops before
it touches a row. Positions of paths are machine words. -/
theorem updateAll_only_moves (w : WriteBack) (backend : Backend) {t : Tree} (ht : t.Storable)
    {moves : Moves} (hmoves : ∀ m ∈ moves.toList, m.old.position < UInt64.size) (rows : Rows) :
    (∀ n after, w.updateAll backend t moves rows = .ok n after →
      (after.paths.map Path.entry).Perm (rows.paths.map Path.entry) ∧
      (∀ row, row ∈ after.toList ↔
        (row ∈ rows.toList ∧ ∀ p ∈ (moves.displaced t).paths, (moves.origin p).text ≠ row) ∨
        ∃ p ∈ (moves.displaced t).paths, p.text = row) ∧
      (∀ p ∈ (moves.displaced t).paths, p.root.text ∈ w.roots.toList) ∧
      n = (moves.displaced t).size) ∧
    (t.isEmpty = true ∨ (∃ e ∈ t.toList, e.agrees = false) ∨
        (∃ p ∈ t.paths, p.root.text ∉ w.roots.toList) ∨
        (∃ p ∈ t.paths, (moves.origin p).sameEntry p = false) →
      ∃ failure, w.updateAll backend t moves rows = .error failure rows) := by
  constructor
  · intro n after hrun
    obtain ⟨hroots, hsame, hn, hrekey⟩ := updateAll_ensures w backend t moves rows n after hrun
    -- What holds of every entry holds of the displaced ones, and the written moves are theirs.
    have hstep : ∀ {P : Move → Prop}, (∀ p ∈ t.paths, P ⟨moves.origin p, p⟩) →
        ∀ m ∈ moves.steps t, P m := by
      intro P hP m hm
      obtain ⟨p, hp, rfl⟩ := List.mem_map.1 hm
      exact hP p (Moves.mem_paths_displaced.1 hp).1
    refine ⟨Edit.perm_entries_of_rekeyed hrekey (hstep fun p hp => ?_) (hstep fun p hp => ?_),
      fun row => ?_, fun p hp => ?_, hn⟩
    · exact Path.entry_eq_of_sameEntry (hsame p hp)
    · exact ⟨origin_lt_size hmoves (ht p hp), ht p hp⟩
    · rw [Edit.mem_rows_of_rekeyed hrekey, Moves.steps]
      simp only [List.mem_map, forall_exists_index, and_imp, forall_apply_eq_imp_iff₂,
        exists_exists_and_eq_and]
    · exact hroots p (Moves.mem_paths_displaced.1 hp).1
  · intro hbad
    apply updateAll_eq_error
    rcases hbad with hempty | ⟨e, he, hdisagrees⟩ | ⟨p, hp, hroot⟩ | ⟨p, hp, hother⟩
    · exact .inl fun h => absurd (hempty.symm.trans h.1) Bool.noConfusion
    · refine .inl fun h => ?_
      rw [h.2.1 e he, Entry.agrees] at hdisagrees
      exact absurd (Node.agrees_ofPath e.path) (Bool.eq_false_iff.1 hdisagrees)
    · exact .inl fun h => hroot (h.2.2 p hp)
    · exact .inr fun h => Bool.eq_false_iff.1 hother (h p hp)

/-- Rows of two playlists and one that cannot be read. -/
def crossedRows : Rows :=
  .ofList ["P.track.A.1", "P.track.A.2", "P.track.B.3", "P.track.B.4", "P.track.C", "Q.track.A.1"]

/-- The tree after two entries have changed places and two have gone one further. -/
def crossedTree : Tree :=
  .ofPaths (["P.track.A.1", "P.track.A.2", "P.track.B.4", "P.track.B.5",
    "Q.track.A.1"].filterMap Path.decode?)

/-- Moves between paths that rows spell. -/
def movesBetween (olds news : List String) : Moves :=
  .ofList (List.zipWith Move.mk (olds.filterMap Path.decode?) (news.filterMap Path.decode?))

/-- The moves that lead to the tree, and one of an entry that is not there. -/
def crossingMoves : Moves :=
  movesBetween ["P.track.A.2", "P.track.A.1", "P.track.B.3", "P.track.B.4", "P.track.Z.1"]
    ["P.track.A.1", "P.track.A.2", "P.track.B.4", "P.track.B.5", "P.track.Z.2"]

/-- A move that makes another item of one. -/
def disguisingMoves : Moves :=
  movesBetween ["P.track.A.1"] ["P.track.B.5"]

/-- Who knows both playlists. -/
def crossedWriter : WriteBack :=
  ⟨"P", .ofList ["P", "Q"]⟩

theorem updateAll_only_moves_crossed :
    crossedTree.Storable ∧
    (∀ m ∈ crossingMoves.toList ++ disguisingMoves.toList, m.old.position < UInt64.size) ∧
    (∃ after, crossedWriter.updateAll ⟨.memory, .never⟩ crossedTree crossingMoves crossedRows
        = .ok 4 after ∧ (after.paths.map Path.entry).Perm (crossedRows.paths.map Path.entry)) ∧
    (∃ p ∈ crossedTree.paths, (disguisingMoves.origin p).sameEntry p = false) ∧
    ∃ failure, crossedWriter.updateAll ⟨.memory, .never⟩ crossedTree disguisingMoves crossedRows
      = .error failure crossedRows := by
  have ht : crossedTree.Storable := by
    have hwords : ∀ p ∈ crossedTree.paths, p.position < UInt64.size := by decide +kernel
    exact hwords
  have hmoves : ∀ m ∈ crossingMoves.toList ++ disguisingMoves.toList,
      m.old.position < UInt64.size := by decide +kernel
  obtain ⟨hcrossing, hdisguising⟩ := List.forall_mem_append.1 hmoves
  have hother : ∃ p ∈ crossedTree.paths, (disguisingMoves.origin p).sameEntry p = false := by
    decide +kernel
  have hsuccess : ∃ n after, crossedWriter.updateAll ⟨.memory, .never⟩ crossedTree crossingMoves
      crossedRows = .ok n after := Run.exists_of_isOk_outcome (by decide +kernel)
  obtain ⟨n, after, hrun⟩ := hsuccess
  obtain ⟨hperm, -, -, rfl⟩ := (updateAll_only_moves crossedWriter ⟨.memory, .never⟩ ht hcrossing
    crossedRows).1 n after hrun
  have hcount : (crossingMoves.displaced crossedTree).size = 4 := by decide +kernel
  rw [hcount] at hrun
  exact ⟨ht, hmoves, ⟨after, hrun, hperm⟩, hother,
    (updateAll_only_moves crossedWriter ⟨.memory, .never⟩ ht hdisguising crossedRows).2
      (.inr (.inr (.inr hother)))⟩

end WriteBack

end Playlists
