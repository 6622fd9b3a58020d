import Playlists.Proofs.Edit.Moving

/-!
# `Proofs/Edit/Rekeying.lean` — many rows moved at once

Rows are moved one after another, first all the old ones away and then all the new ones in, and the
work stops at the first row that is missing or in the way. What comes of it can be said without that
order all the same. The old paths have to be rows, each of them taken once (`Departs`); the new ones
have to be different from each other and from the rows that stay (`Arrives`). If both hold the rows
are exchanged; otherwise one is missing (`rekey_eq_error_of_missing`) or one is in the way
(`rekey_eq_error_of_repeated`). Neither condition looks at the order of the moves, so neither does
which of the three it is (`rekey_endsAlike`). What does depend on it, once a run has stopped, is the
row that it has stopped at and the rows that it has staged by then (`rekey_stops_at`).

Moves that exchange paths, or positions, among the rows that they take meet no row that stays
(`Departs.arrives_of_perm`, `TradesPlaces.arrives`). Neither do the moves of siblings by one
position, if all that stands in their way goes with them (`arrives_shift`).
-/

set_option autoImplicit false

namespace Playlists

/-- Where an entry stands among the entries of its playlist. -/
def Path.place (p : Path) : Label × Nat :=
  (p.root, p.position)

namespace Edit

/-! ## What moves need -/

/-- The rows that moves take away are there, and each is taken once. -/
structure Departs (rows : Rows) (moves : List Move) : Prop where
  nodup : (moves.map Move.old).Nodup
  stored : ∀ m ∈ moves, m.old.text ∈ rows.toList

/-- The rows that moves bring are different ones, and none is there already and stays. -/
structure Arrives (rows : Rows) (moves : List Move) : Prop where
  nodup : (moves.map Move.new).Nodup
  free : ∀ m ∈ moves, m.new.text ∈ rows.toList → ∃ n ∈ moves, n.old = m.new

/-- Two runs of the same moves end alike: both with the same rows, both at an old path that is
missing, or both at a new one that is in the way. -/
inductive EndsAlike (d : Dialect) (playlist : String) (moves : List Move) :
    EStateM.Result Failure Rows Unit → EStateM.Result Failure Rows Unit → Prop where
  | done (after : Rows) : EndsAlike d playlist moves (.ok () after) (.ok () after)
  | missing {m n : Move} (hm : m ∈ moves) (hn : n ∈ moves) (staged staged' : Rows) :
    EndsAlike d playlist moves (.error (.missingPath m.old.text playlist) staged)
      (.error (.missingPath n.old.text playlist) staged')
  | repeated {m n : Move} (hm : m ∈ moves) (hn : n ∈ moves) (staged staged' : Rows) :
    EndsAlike d playlist moves (.error (d.repeated m.new.text playlist) staged)
      (.error (d.repeated n.new.text playlist) staged')

/-- Moves that exchange the places of rows, each of which stands at its place alone. -/
structure TradesPlaces (rows : Rows) (moves : List Move) : Prop where
  places : (moves.map fun m => m.new.place).Perm (moves.map fun m => m.old.place)
  alone : ∀ m ∈ moves, ∀ p ∈ rows.paths, p.place = m.old.place → p = m.old
  words : ∀ m ∈ moves, m.old.position < UInt64.size

/-- The paths of some rows under a label, from a position on. -/
def standing (rows : Rows) (label : Label) (first : Nat) : List Path :=
  rows.paths.filter fun p => p.root == label && decide (first ≤ p.position)

/-- Moves of some paths to positions that are computed from their own. -/
def shift (f : Nat → Nat) (paths : List Path) : List Move :=
  paths.map fun p => ⟨p, p.withPosition (f p.position)⟩

instance (rows : Rows) (moves : List Move) : Decidable (Departs rows moves) :=
  decidable_of_iff ((moves.map Move.old).Nodup ∧ ∀ m ∈ moves, m.old.text ∈ rows.toList)
    ⟨fun h => ⟨h.1, h.2⟩, fun h => ⟨h.nodup, h.stored⟩⟩

instance (rows : Rows) (moves : List Move) : Decidable (Arrives rows moves) :=
  decidable_of_iff ((moves.map Move.new).Nodup ∧
      ∀ m ∈ moves, m.new.text ∈ rows.toList → ∃ n ∈ moves, n.old = m.new)
    ⟨fun h => ⟨h.1, h.2⟩, fun h => ⟨h.nodup, h.free⟩⟩

instance (rows : Rows) (moves : List Move) : Decidable (TradesPlaces rows moves) :=
  decidable_of_iff ((moves.map fun m => m.new.place).Perm (moves.map fun m => m.old.place) ∧
      (∀ m ∈ moves, ∀ p ∈ rows.paths, p.place = m.old.place → p = m.old) ∧
      ∀ m ∈ moves, m.old.position < UInt64.size)
    ⟨fun h => ⟨h.1, h.2.1, h.2.2⟩, fun h => ⟨h.places, h.alone, h.words⟩⟩

variable {d : Dialect} {playlist : String} {rows after : Rows} {moves moves' : List Move}

theorem Departs.perm (h : Departs rows moves) (hperm : moves'.Perm moves) : Departs rows moves' where
  nodup := (hperm.map Move.old).nodup_iff.2 h.nodup
  stored m hm := h.stored m (hperm.mem_iff.1 hm)

theorem Arrives.perm (h : Arrives rows moves) (hperm : moves'.Perm moves) : Arrives rows moves' where
  nodup := (hperm.map Move.new).nodup_iff.2 h.nodup
  free m hm hrow := by
    obtain ⟨n, hn, heq⟩ := h.free m (hperm.mem_iff.1 hm) hrow
    exact ⟨n, hperm.mem_iff.2 hn, heq⟩

/-! ## How a run ends -/

/-- Moves succeed exactly if all they take is there and all they bring finds its place. -/
theorem rekey_succeeds_iff : (∃ after, rekey ⟨d, .never⟩ playlist moves rows = .ok () after) ↔
    Departs rows moves ∧ Arrives rows moves := by
  constructor
  · intro hex
    obtain ⟨after, h⟩ := hex
    obtain ⟨⟨holds, hstored⟩, ⟨hnews, hfree⟩, -⟩ := of_rekey_eq_ok h
    exact ⟨⟨holds, hstored⟩, ⟨hnews, hfree⟩⟩
  · intro h
    exact ⟨_, rekey_eq_ok d h.1.nodup h.2.nodup h.1.stored h.2.free⟩

/-- If a row to go is not there, the run ends at such a row. -/
theorem rekey_eq_error_of_missing (h : ¬ Departs rows moves) : ∃ m ∈ moves, ∃ staged : Rows,
    rekey ⟨d, .never⟩ playlist moves rows = .error (.missingPath m.old.text playlist) staged := by
  rw [rekey_eq_bind]
  rcases Run.forM_ok_or_error (l := (moves.map Move.old).map RowChange.remove)
    (change_ok_or_error d playlist) rows with ⟨left, hremoved⟩ | ⟨c, hc, staged, hstopped⟩
  · obtain ⟨hnodup, hstored⟩ := of_forM_remove_eq_ok hremoved
    exact absurd ⟨hnodup, fun m hm => hstored m.old (List.mem_map_of_mem hm)⟩ h
  · obtain ⟨p, hp, rfl⟩ := List.mem_map.1 hc
    obtain ⟨m, hm, rfl⟩ := List.mem_map.1 hp
    exact ⟨m, hm, staged, Run.bind_of_error hstopped⟩

/-- The row that a run stops at is the first one missing. The rows before it are away by then. -/
theorem rekey_stops_at (d : Dialect) (playlist : String) {i : Nat} (hi : i < moves.length)
    (h : Departs rows (moves.take i))
    (hmissing : moves[i].old.text ∉ (lacking rows ((moves.take i).map Move.old)).toList) :
    rekey ⟨d, .never⟩ playlist moves rows = .error (.missingPath moves[i].old.text playlist)
      (lacking rows ((moves.take i).map Move.old)) := by
  have hsplit : (moves.map Move.old).map RowChange.remove
      = ((moves.take i).map Move.old).map RowChange.remove
        ++ .remove moves[i].old :: ((moves.drop (i + 1)).map Move.old).map RowChange.remove := by
    rw [← List.map_cons, ← List.map_cons, ← List.map_append, ← List.map_append,
      ← List.drop_eq_getElem_cons hi, List.take_append_drop]
  have hbefore : (((moves.take i).map Move.old).map RowChange.remove).forM (change d playlist) rows
      = .ok () (lacking rows ((moves.take i).map Move.old)) :=
    forM_remove_eq_ok d h.nodup (List.forall_mem_map.2 h.stored)
  rw [rekey_eq_bind, hsplit, List.forM_eq_forM, List.forM_append]
  refine Run.bind_of_error ((Run.bind_of_ok hbefore).trans ?_)
  rw [List.forM_cons]
  exact Run.bind_of_error (change_remove_eq_error d hmissing)

/-- If all rows to go are there, a run that does not succeed ends at a row that is in the way. -/
theorem rekey_eq_error_of_repeated (h : Departs rows moves) (h' : ¬ Arrives rows moves) :
    ∃ m ∈ moves, ∃ staged : Rows,
      rekey ⟨d, .never⟩ playlist moves rows = .error (d.repeated m.new.text playlist) staged := by
  have hremoved : ((moves.map Move.old).map RowChange.remove).forM (change d playlist) rows
      = .ok () (lacking rows (moves.map Move.old)) :=
    forM_remove_eq_ok d h.nodup (List.forall_mem_map.2 h.stored)
  have hrun := (rekey_eq_bind d playlist moves rows).trans (Run.bind_of_ok hremoved)
  rcases Run.forM_ok_or_error (l := (moves.map Move.new).map RowChange.add)
    (change_ok_or_error d playlist) (lacking rows (moves.map Move.old)) with
    ⟨after, hadded⟩ | ⟨c, hc, staged, hstopped⟩
  · exact absurd (rekey_succeeds_iff.1 ⟨after, hrun.trans hadded⟩).2 h'
  · obtain ⟨p, hp, rfl⟩ := List.mem_map.1 hc
    obtain ⟨m, hm, rfl⟩ := List.mem_map.1 hp
    exact ⟨m, hm, staged, hrun.trans hstopped⟩

/-- A run that ends like a successful one leaves what that leaves. -/
theorem EndsAlike.eq_of_done {result : EStateM.Result Failure Rows Unit}
    (h : EndsAlike d playlist moves result (.ok () after)) : result = .ok () after := by
  cases h
  rfl

/-- The same moves in another order leave the same rows. -/
theorem rekey_eq_of_perm (h : rekey ⟨d, .never⟩ playlist moves rows = .ok () after)
    (hperm : moves'.Perm moves) : rekey ⟨d, .never⟩ playlist moves' rows = .ok () after := by
  obtain ⟨hdeparts, harrives⟩ := rekey_succeeds_iff.1 ⟨after, h⟩
  obtain ⟨after', h'⟩ := rekey_succeeds_iff.2 ⟨hdeparts.perm hperm, harrives.perm hperm⟩
  have hrows : after' = after := by
    refine KeyedList.ext_mem fun row => ?_
    rw [mem_rows_of_rekeyed h', mem_rows_of_rekeyed h]
    simp only [hperm.mem_iff]
  rw [h', hrows]

/-- How moves end does not depend on their order. -/
theorem rekey_endsAlike (d : Dialect) (playlist : String) (rows : Rows)
    (hperm : moves'.Perm moves) :
    EndsAlike d playlist moves (rekey ⟨d, .never⟩ playlist moves' rows)
      (rekey ⟨d, .never⟩ playlist moves rows) := by
  -- Whether the old paths are there and the new ones free does not depend on the order, so both
  -- runs get equally far.
  by_cases hdeparts : Departs rows moves
  · by_cases harrives : Arrives rows moves
    · obtain ⟨after, h⟩ := rekey_succeeds_iff.2 ⟨hdeparts, harrives⟩
      rw [h, rekey_eq_of_perm h hperm]
      exact .done after
    · obtain ⟨m, hm, staged, h⟩ := rekey_eq_error_of_repeated hdeparts harrives
      obtain ⟨n, hn, staged', h'⟩ := rekey_eq_error_of_repeated (hdeparts.perm hperm)
        fun harrives' => harrives (harrives'.perm hperm.symm)
      rw [h, h']
      exact .repeated (hperm.mem_iff.1 hn) hm staged' staged
  · obtain ⟨m, hm, staged, h⟩ := rekey_eq_error_of_missing hdeparts
    obtain ⟨n, hn, staged', h'⟩ := rekey_eq_error_of_missing
      fun hdeparts' => hdeparts (hdeparts'.perm hperm.symm)
    rw [h, h']
    exact .missing (hperm.mem_iff.1 hn) hm staged' staged

/-! ## Moves that meet no row that stays -/

/-- Where the new paths are the old ones in another order, nothing is in the way. -/
theorem Departs.arrives_of_perm (h : Departs rows moves)
    (hperm : (moves.map Move.new).Perm (moves.map Move.old)) : Arrives rows moves where
  nodup := hperm.nodup_iff.2 h.nodup
  free _ hm _ := List.mem_map.1 (hperm.mem_iff.1 (List.mem_map_of_mem hm))

/-- Rows that take each other's places are the same rows afterwards. -/
theorem rekey_eq_self_of_perm (h : Departs rows moves)
    (hperm : (moves.map Move.new).Perm (moves.map Move.old)) :
    rekey ⟨d, .never⟩ playlist moves rows = .ok () rows := by
  obtain ⟨after, hrun⟩ := rekey_succeeds_iff.2 ⟨h, h.arrives_of_perm hperm⟩
  have hrows : after = rows := by
    refine KeyedList.ext_mem fun row => ?_
    have hcome : (∃ m ∈ moves, m.new.text = row) ↔ ∃ m ∈ moves, m.old.text = row := by
      have hmem : row ∈ (moves.map Move.new).map Path.text ↔
          row ∈ (moves.map Move.old).map Path.text := (hperm.map Path.text).mem_iff
      simpa only [List.map_map, List.mem_map, Function.comp_apply] using hmem
    rw [mem_rows_of_rekeyed hrun, hcome]
    constructor
    · rintro (⟨hrow, -⟩ | ⟨m, hm, rfl⟩)
      · exact hrow
      · exact h.stored m hm
    · intro hrow
      -- A row that goes comes back, since its path is the new one of another move.
      by_cases hgoes : ∃ m ∈ moves, m.old.text = row
      · exact .inr hgoes
      · exact .inl ⟨hrow, fun m hm htext => hgoes ⟨m, hm, htext⟩⟩
  rw [hrun, hrows]

/-- Where places are exchanged among rows that stand at theirs alone, nothing is in the way either. -/
theorem TradesPlaces.arrives (h : TradesPlaces rows moves) (hdeparts : Departs rows moves) :
    Arrives rows moves where
  nodup := by
    have holds : ((moves.map Move.old).map Path.place).Nodup := by
      refine hdeparts.nodup.map_on fun p hp q hq hplace => ?_
      obtain ⟨m, hm, rfl⟩ := List.mem_map.1 hp
      obtain ⟨n, hn, rfl⟩ := List.mem_map.1 hq
      exact h.alone n hn m.old (Rows.mem_paths.2 ⟨hdeparts.stored m hm, h.words m hm⟩) hplace
    rw [List.map_map] at holds
    have hnews : (moves.map fun m => m.new.place).Nodup := h.places.nodup_iff.2 holds
    -- The new places are the old ones in another order, and no place is taken twice.
    refine List.Nodup.of_map Path.place ?_
    rw [List.map_map]
    exact hnews
  free m hm hrow := by
    obtain ⟨n, hn, hplace⟩ := List.mem_map.1 (h.places.mem_iff.1 (List.mem_map_of_mem hm))
    have hposition : n.old.position = m.new.position := congrArg Prod.snd hplace
    have hpath : m.new ∈ rows.paths := Rows.mem_paths.2 ⟨hrow, hposition ▸ h.words n hn⟩
    exact ⟨n, hn, (h.alone n hn m.new hpath hplace.symm).symm⟩

theorem mem_standing {label : Label} {first : Nat} {p : Path} :
    p ∈ standing rows label first ↔ p ∈ rows.paths ∧ p.root = label ∧ first ≤ p.position := by
  rw [standing, List.mem_filter, Bool.and_eq_true, beq_iff_eq, decide_eq_true_iff]

theorem departs_shift (f : Nat → Nat) (label : Label) (first : Nat) :
    Departs rows (shift f (standing rows label first)) where
  nodup := by
    rw [shift, List.map_map]
    exact (List.map_id _).symm ▸ rows.nodup_paths.filter _
  stored := by
    refine List.forall_mem_map.2 fun p hp => ?_
    exact (Rows.mem_paths.1 (mem_standing.1 hp).1).1

/-- Siblings that stay apart can be shifted together with all that stands in their way. -/
theorem arrives_shift {f : Nat → Nat} {label : Label} {first : Nat}
    (hapart : ∀ m n, first ≤ m → first ≤ n → f m = f n → m = n)
    (hway : ∀ p ∈ standing rows label first, ∀ q ∈ rows.paths, q.root = label →
      q.position = f p.position → first ≤ q.position)
    (hwords : ∀ p ∈ standing rows label first, f p.position < UInt64.size) :
    Arrives rows (shift f (standing rows label first)) where
  nodup := by
    rw [shift, List.map_map]
    refine (rows.nodup_paths.filter _).map_on fun p hp q hq heq => ?_
    obtain ⟨-, -, hfirst⟩ := mem_standing.1 hp
    obtain ⟨-, -, hfirst'⟩ := mem_standing.1 hq
    obtain ⟨hroot, hkind, hitem, hposition⟩ := Path.mk.inj heq
    cases p
    cases q
    exact Path.mk.injEq .. ▸ ⟨hroot, hkind, hitem, hapart _ _ hfirst hfirst' hposition⟩
  free := by
    refine List.forall_mem_map.2 fun p hp hrow => ?_
    obtain ⟨-, hroot, -⟩ := mem_standing.1 hp
    have hpath : p.withPosition (f p.position) ∈ rows.paths :=
      Rows.mem_paths.2 ⟨hrow, hwords p hp⟩
    -- Whoever stands in the way is a sibling behind the first one, and is shifted as well.
    have hgoes := mem_standing.2 ⟨hpath, hroot, hway p hp _ hpath hroot rfl⟩
    exact ⟨_, List.mem_map_of_mem hgoes, rfl⟩

/-- Room for one more entry can be made anywhere among siblings, if the last can go on by one. -/
theorem rekey_makes_room {label : Label} {first : Nat}
    (hwords : ∀ p ∈ standing rows label first, p.position + 1 < UInt64.size) :
    ∃ after, rekey ⟨d, .never⟩ playlist (shift (· + 1) (standing rows label first)) rows
      = .ok () after := by
  refine rekey_succeeds_iff.2 ⟨departs_shift _ label first, arrives_shift ?_ ?_ hwords⟩
  · intro m n _ _ heq
    exact Nat.succ.inj heq
  · intro p hp q _ _ hposition
    have hfirst := (mem_standing.1 hp).2.2
    omega

/-- Siblings behind a position that none of them has can be moved up by one. -/
theorem rekey_closes_gap {label : Label} {gap : Nat}
    (hgap : ∀ p ∈ rows.paths, p.root = label → p.position ≠ gap) :
    ∃ after, rekey ⟨d, .never⟩ playlist (shift (· - 1) (standing rows label (gap + 1))) rows
      = .ok () after := by
  refine rekey_succeeds_iff.2 ⟨departs_shift _ label _, arrives_shift ?_ ?_ ?_⟩
  · intro m n hm hn heq
    omega
  · intro p hp q hq hroot hposition
    have hfirst := (mem_standing.1 hp).2.2
    have hne := hgap q hq hroot
    omega
  · intro p hp
    exact Nat.lt_of_le_of_lt (Nat.sub_le _ _) (Rows.mem_paths.1 (mem_standing.1 hp).1).2

/-! ## All at once, and in turn -/

/-- **Rows are moved all at once.** Whatever rows are staged, on every medium that does not fail of
its own, moves succeed exactly if the old paths are different rows, and the new paths are different
and none of them is a row that stays. The rows are then those that there were, without the old paths
and with the new ones. So it always succeeds to exchange paths, and positions among entries that
stand alone at theirs, and to shift the entries of a playlist from a position on by one, up if no
position is the last word and down if the position before them is free. In another order the same
moves end alike: with the same rows, at a row that is missing, or at one that is in the way. -/
theorem rekey_at_once (d : Dialect) (playlist : String) (rows : Rows) :
    (∀ moves : List Move,
      ((∃ after, rekey ⟨d, .never⟩ playlist moves rows = .ok () after) ↔
        Departs rows moves ∧ Arrives rows moves) ∧
      (∀ after, rekey ⟨d, .never⟩ playlist moves rows = .ok () after → ∀ row, row ∈ after.toList ↔
        (row ∈ rows.toList ∧ ∀ m ∈ moves, m.old.text ≠ row) ∨ ∃ m ∈ moves, m.new.text = row) ∧
      (Departs rows moves → (moves.map Move.new).Perm (moves.map Move.old) →
        rekey ⟨d, .never⟩ playlist moves rows = .ok () rows) ∧
      (Departs rows moves → TradesPlaces rows moves →
        ∃ after, rekey ⟨d, .never⟩ playlist moves rows = .ok () after) ∧
      ∀ moves' : List Move, moves'.Perm moves →
        EndsAlike d playlist moves (rekey ⟨d, .never⟩ playlist moves' rows)
          (rekey ⟨d, .never⟩ playlist moves rows)) ∧
    ∀ label : Label,
      (∀ first, (∀ p ∈ standing rows label first, p.position + 1 < UInt64.size) →
        ∃ after, rekey ⟨d, .never⟩ playlist (shift (· + 1) (standing rows label first)) rows
          = .ok () after) ∧
      ∀ gap, (∀ p ∈ rows.paths, p.root = label → p.position ≠ gap) →
        ∃ after, rekey ⟨d, .never⟩ playlist (shift (· - 1) (standing rows label (gap + 1))) rows
          = .ok () after := by
  refine ⟨fun moves => ⟨rekey_succeeds_iff, ?_, ?_, ?_, ?_⟩, fun label => ⟨?_, ?_⟩⟩
  · intro after hrun row
    exact mem_rows_of_rekeyed hrun
  · intro hdeparts hperm
    exact rekey_eq_self_of_perm hdeparts hperm
  · intro hdeparts htrades
    exact rekey_succeeds_iff.2 ⟨hdeparts, htrades.arrives hdeparts⟩
  · intro moves' hperm
    exact rekey_endsAlike d playlist rows hperm
  · intro first hwords
    exact rekey_makes_room hwords
  · intro gap hgap
    exact rekey_closes_gap hgap

/-- Moves between paths that rows spell. -/
def between (olds news : List String) : List Move :=
  List.zipWith Move.mk (olds.filterMap Path.decode?) (news.filterMap Path.decode?)

/-- The only row there is. -/
def strayRows : Rows :=
  .ofList ["P.track.A.1"]

/-- Moves of that row and of two that are not there. -/
def strayMoves : List Move :=
  between ["P.track.A.1", "P.track.B.1", "P.track.C.1"]
    ["P.track.A.2", "P.track.B.2", "P.track.C.2"]

/-- In another order the same moves may stop at another row, with other rows staged. -/
theorem rekey_stops_in_turn :
    strayMoves.reverse.Perm strayMoves ∧ strayRows ≠ .empty ∧
    (rekey ⟨.memory, .never⟩ "P" strayMoves strayRows
        = .error (.missingPath "P.track.B.1" "P") .empty ∧
      rekey ⟨.memory, .never⟩ "P" strayMoves.reverse strayRows
        = .error (.missingPath "P.track.C.1" "P") strayRows) ∧
    rekey ⟨.relational, .never⟩ "P" strayMoves strayRows
        = .error (.missingPath "P.track.B.1" "P") .empty ∧
      rekey ⟨.relational, .never⟩ "P" strayMoves.reverse strayRows
        = .error (.missingPath "P.track.C.1" "P") strayRows := by
  have hsecond (d : Dialect) : rekey ⟨d, .never⟩ "P" strayMoves strayRows
      = .error (.missingPath "P.track.B.1" "P") .empty := by
    have hold : strayMoves[1].old.text = "P.track.B.1" := by decide +kernel
    have hleft : lacking strayRows ((strayMoves.take 1).map Move.old) = .empty := by
      decide +kernel
    have hrun : rekey ⟨d, .never⟩ "P" strayMoves strayRows
        = .error (.missingPath strayMoves[1].old.text "P")
          (lacking strayRows ((strayMoves.take 1).map Move.old)) :=
      rekey_stops_at d "P" (by decide +kernel) (by decide +kernel) (by decide +kernel)
    rwa [hold, hleft] at hrun
  have hfirst (d : Dialect) : rekey ⟨d, .never⟩ "P" strayMoves.reverse strayRows
      = .error (.missingPath "P.track.C.1" "P") strayRows := by
    have hold : strayMoves.reverse[0].old.text = "P.track.C.1" := by decide +kernel
    have hleft : lacking strayRows ((strayMoves.reverse.take 0).map Move.old) = strayRows := by
      decide +kernel
    have hrun : rekey ⟨d, .never⟩ "P" strayMoves.reverse strayRows
        = .error (.missingPath strayMoves.reverse[0].old.text "P")
          (lacking strayRows ((strayMoves.reverse.take 0).map Move.old)) :=
      rekey_stops_at d "P" (by decide +kernel) (by decide +kernel) (by decide +kernel)
    rwa [hold, hleft] at hrun
  exact ⟨List.reverse_perm _, by decide +kernel, ⟨hsecond .memory, hfirst .memory⟩,
    hsecond .relational, hfirst .relational⟩

/-- Rows of two playlists, and one that cannot be read. -/
def turningRows : Rows :=
  .ofList ["R.track.A.1", "R.track.B.2", "R.playlist.Q.3", "R.track", "Q.track.A.2"]

/-- Three entries that take each other's positions. -/
def turningMoves : List Move :=
  between ["R.track.A.1", "R.track.B.2", "R.playlist.Q.3"]
    ["R.track.A.2", "R.track.B.3", "R.playlist.Q.1"]

/-- Two rows that take each other's paths. -/
def crossingPaths : List Move :=
  between ["R.track.B.2", "Q.track.A.2"] ["Q.track.A.2", "R.track.B.2"]

/-- The label of the first playlist. -/
def turningLabel : Label :=
  ⟨"R", by decide, List.all_eq_true.1 rfl⟩

theorem rekey_at_once_turning :
    Departs turningRows turningMoves ∧ TradesPlaces turningRows turningMoves ∧
    (∃ after, rekey ⟨.memory, .never⟩ "R" turningMoves turningRows = .ok () after ∧
      rekey ⟨.memory, .never⟩ "R" turningMoves.reverse turningRows = .ok () after ∧
      "R.playlist.Q.1" ∈ after.toList ∧ "R.track.A.1" ∉ after.toList) ∧
    rekey ⟨.relational, .never⟩ "R" crossingPaths turningRows = .ok () turningRows ∧
    (∃ after, rekey ⟨.memory, .never⟩ "R"
      (shift (· + 1) (standing turningRows turningLabel 2)) turningRows = .ok () after) ∧
    ∃ after, rekey ⟨.relational, .never⟩ "R"
      (shift (· - 1) (standing turningRows turningLabel 1)) turningRows = .ok () after := by
  have hdeparts : Departs turningRows turningMoves := by decide +kernel
  have htrades : TradesPlaces turningRows turningMoves := by decide +kernel
  have hcrossing : Departs turningRows crossingPaths := by decide +kernel
  have hpaths : (crossingPaths.map Move.new).Perm (crossingPaths.map Move.old) := by
    decide +kernel
  obtain ⟨hmoves, hshifts⟩ := rekey_at_once .memory "R" turningRows
  obtain ⟨hmoves', hshifts'⟩ := rekey_at_once .relational "R" turningRows
  obtain ⟨-, hrows, -, hplaces, horders⟩ := hmoves turningMoves
  obtain ⟨after, hrun⟩ := hplaces hdeparts htrades
  have halike := horders turningMoves.reverse (List.reverse_perm _)
  rw [hrun] at halike
  refine ⟨hdeparts, htrades, ⟨after, hrun, halike.eq_of_done, ?_, ?_⟩, ?_, ?_, ?_⟩
  · rw [hrows after hrun]
    decide +kernel
  · rw [hrows after hrun]
    decide +kernel
  · exact (hmoves' crossingPaths).2.2.1 hcrossing hpaths
  · exact (hshifts turningLabel).1 2 (by decide +kernel)
  · exact (hshifts' turningLabel).2 0 (by decide +kernel)

end Edit

end Playlists
