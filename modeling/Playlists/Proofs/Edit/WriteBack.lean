import Playlists.Operation.Add
import Playlists.Proofs.Edit.Batch
import Playlists.Proofs.Tree.Rearrangement

/-!
# `Proofs/Edit/WriteBack.lean` — the rows after a write-back are the rows of the tree

Of a tree that was changed in memory only the difference is written: entries that moved are re-keyed
and entries that are new are inserted. What makes this exact is that the moves account for every
entry (`Moves.Accounts`): each entry knows the one row it comes from, and each row is where one
entry comes from. A new path may be the old path of another entry then, but never that of an entry
that stays, so no row is in the way (`Accounts.updateAll_eq_ok`).

New entries come from no row. Their paths are taken by no entry that was there before, wherever it
went, so inserting them meets no row either (`insertAll_eq_ok`).
-/

set_option autoImplicit false

namespace Playlists

open Edit

/-! ## What a write-back refuses -/

namespace WriteBack

variable {w : WriteBack} {t full : Tree} {playlist : String}

theorem mem_knownRoots (h : full.Agreeing) {label : String} :
    label ∈ (full.knownRoots playlist).toList ↔
      label = playlist ∨ ∃ p ∈ full.paths, p.PointsAt label := by
  rw [Tree.knownRoots, KeyedList.mem_texts_ofList, List.mem_cons, List.mem_map]
  refine or_congr_right ?_
  constructor
  · intro hex
    obtain ⟨e, he, hid⟩ := hex
    obtain ⟨he, hkind⟩ := List.mem_filter.1 he
    rw [h e he] at hkind hid
    exact ⟨e.path, Tree.mem_paths_of_mem he, beq_iff_eq.1 hkind, hid⟩
  · intro hex
    obtain ⟨p, hp, hkind, hitem⟩ := hex
    refine ⟨Entry.ofPath p, List.mem_filter.2 ⟨h.mem_iff.2 ⟨p, hp, rfl⟩, ?_⟩, hitem⟩
    exact beq_iff_eq.2 hkind

/-- A playlist that hangs together knows every label that its entries stand under. -/
theorem mem_roots_of_rooted (h : full.Agreeing) (hr : Rooted playlist full.paths) :
    ∀ p ∈ full.paths, p.root.text ∈ (forTree playlist full).roots.toList :=
  fun p hp => (mem_knownRoots h).2 (hr p hp)

/-- A tree of entries that agree with their paths and stand under known labels is accepted. -/
theorem check_eq_ok (hne : t.isEmpty = false) (ha : t.Agreeing)
    (hroots : ∀ p ∈ t.paths, p.root.text ∈ w.roots.toList) : w.check t = .ok () := by
  have hvalid : t.validate = .ok () := Tree.validate_eq_ok_iff.2 ha
  have hknown : t.forEach w.checkRoot = .ok () := Failure.forM_eq_ok_iff.2 fun e he => by
    rw [checkRoot, if_pos]
    exact KeyedList.contains_iff.2 ⟨_, hroots _ (Tree.mem_paths_of_mem he), rfl⟩
  rw [check, hne, hvalid, hknown]
  rfl

end WriteBack

/-! ## Moves that account for every row -/

/-- The moves know for every entry of a tree the one row that it comes from. -/
structure Moves.Accounts (moves : Moves) (rows : Rows) (t : Tree) : Prop where
  stored : ∀ p ∈ t.paths, (moves.origin p).text ∈ rows.toList
  every : ∀ row ∈ rows.toList, ∃ p ∈ t.paths, (moves.origin p).text = row
  inj : ∀ p ∈ t.paths, ∀ q ∈ t.paths, moves.origin p = moves.origin q → p = q
  same : ∀ p ∈ t.paths, (moves.origin p).sameEntry p = true

namespace Moves

/-- The entries of a tree that come from elsewhere. -/
def displaced (moves : Moves) (t : Tree) : Tree :=
  t.filter fun e => moves.origin e.path != e.path

theorem mem_paths_displaced {moves : Moves} {t : Tree} {p : Path} :
    p ∈ (moves.displaced t).paths ↔ p ∈ t.paths ∧ moves.origin p ≠ p := by
  rw [displaced, Tree.mem_paths_filter (f := fun p => moves.origin p != p), bne_iff_ne]

/-- The moves that have to be written. -/
def steps (moves : Moves) (t : Tree) : List Move :=
  (moves.displaced t).paths.map fun p => ⟨moves.origin p, p⟩

namespace Accounts

variable {moves : Moves} {rows : Rows} {t : Tree} {playlist : String}

theorem movesTo_eq_ok (h : moves.Accounts rows t) :
    WriteBack.movesTo moves (moves.displaced t) = .ok (moves.steps t) := by
  have hmapM : (moves.displaced t).paths.mapM (WriteBack.moveTo moves) = .ok (moves.steps t) :=
    Failure.mapM_eq_ok fun p hp => by
      rw [WriteBack.moveTo, if_pos (h.same p (mem_paths_displaced.1 hp).1)]
  have hkeep : (moves.steps t).filter (fun m => m.old != m.new) = moves.steps t := by
    refine List.filter_eq_self.2 fun m hm => ?_
    obtain ⟨p, hp, rfl⟩ := List.mem_map.1 hm
    exact bne_iff_ne.2 (mem_paths_displaced.1 hp).2
  rw [WriteBack.movesTo, hmapM]
  exact congrArg Except.ok hkeep

theorem nodup_new (moves : Moves) (t : Tree) : ((moves.steps t).map Move.new).Nodup := by
  rw [steps, List.map_map]
  show ((moves.displaced t).paths.map id).Nodup
  rw [List.map_id]
  exact (moves.displaced t).nodup_paths

theorem nodup_old (h : moves.Accounts rows t) : ((moves.steps t).map Move.old).Nodup := by
  rw [steps, List.map_map]
  refine List.Nodup.map_on (fun p hp q hq heq => ?_) (moves.displaced t).nodup_paths
  exact h.inj p (mem_paths_displaced.1 hp).1 q (mem_paths_displaced.1 hq).1 heq

/-- Where an entry moves to there is no row, or one that moves away. -/
theorem exists_old_eq (h : moves.Accounts rows t) {p : Path} (hp : p ∈ (moves.displaced t).paths)
    (hrow : p.text ∈ rows.toList) : ∃ n ∈ moves.steps t, n.old = p := by
  obtain ⟨q, hq, hfrom⟩ := h.every _ hrow
  have horigin := Path.text_injective hfrom
  refine ⟨⟨moves.origin q, q⟩, List.mem_map.2 ⟨q, mem_paths_displaced.2 ⟨hq, fun hstay => ?_⟩, rfl⟩,
    horigin⟩
  -- If `q` stays it is `p`, which moves.
  have hqp : q = p := hstay.symm.trans horigin
  exact (mem_paths_displaced.1 hp).2 (hqp ▸ horigin)

/-- Re-keying the entries that come from elsewhere leaves the rows of the tree. -/
theorem rekey_eq_ok (h : moves.Accounts rows t) (d : Dialect) :
    rekey ⟨d, .never⟩ playlist (moves.steps t) rows = .ok () t.toRows := by
  rw [Edit.rekey_eq_ok d h.nodup_old (nodup_new moves t)]
  · refine congrArg _ (KeyedList.ext_mem fun row => ?_)
    rw [KeyedList.mem_texts_putAll, mem_lacking, Tree.mem_toRows]
    simp only [steps, List.map_map, List.mem_map, Function.comp_apply, forall_exists_index,
      and_imp, forall_apply_eq_imp_iff₂]
    constructor
    · intro hrow
      rcases hrow with ⟨p, hp, rfl⟩ | ⟨hrow, hstays⟩
      · exact ⟨p, (mem_paths_displaced.1 hp).1, rfl⟩
      · obtain ⟨p, hp, rfl⟩ := h.every row hrow
        -- The row is not given up, so the entry that comes from it has stayed.
        have hstay : moves.origin p = p := by
          by_contra hne
          exact hstays p (mem_paths_displaced.2 ⟨hp, hne⟩) rfl
        exact ⟨p, hp, by rw [hstay]⟩
    · intro hrow
      obtain ⟨p, hp, rfl⟩ := hrow
      by_cases hstay : moves.origin p = p
      · refine .inr ⟨hstay ▸ h.stored p hp, fun q hq heq => ?_⟩
        obtain ⟨hq, hne⟩ := mem_paths_displaced.1 hq
        have hpq := h.inj q hq p hp ((Path.text_injective heq).trans hstay.symm)
        exact hne (hpq ▸ hstay)
      · exact .inl ⟨p, mem_paths_displaced.2 ⟨hp, hstay⟩, rfl⟩
  · intro m hm
    obtain ⟨p, hp, rfl⟩ := List.mem_map.1 hm
    exact h.stored p (mem_paths_displaced.1 hp).1
  · intro m hm hrow
    obtain ⟨p, hp, rfl⟩ := List.mem_map.1 hm
    exact h.exists_old_eq hp hrow

/-- With nothing displaced the rows are those of the tree already. -/
theorem toRows_eq_of_isEmpty (h : moves.Accounts rows t)
    (hempty : (moves.displaced t).isEmpty = true) : t.toRows = rows := by
  have hstay : ∀ p ∈ t.paths, moves.origin p = p := by
    intro p hp
    by_contra hne
    have hmem := mem_paths_displaced.2 ⟨hp, hne⟩
    rw [Tree.paths, List.isEmpty_iff.1 hempty] at hmem
    exact List.not_mem_nil hmem
  refine KeyedList.ext_mem fun row => ?_
  rw [Tree.mem_toRows]
  constructor
  · intro hrow
    obtain ⟨p, hp, rfl⟩ := hrow
    exact hstay p hp ▸ h.stored p hp
  · intro hrow
    obtain ⟨p, hp, rfl⟩ := h.every row hrow
    exact ⟨p, hp, by rw [hstay p hp]⟩

/-- Writing the entries that come from elsewhere leaves the rows of the tree. -/
theorem updateAll_eq_ok (h : moves.Accounts rows t) (d : Dialect) {w : WriteBack}
    (hne : (moves.displaced t).isEmpty = false) (ha : t.Agreeing)
    (hroots : ∀ p ∈ (moves.displaced t).paths, p.root.text ∈ w.roots.toList) :
    w.updateAll ⟨d, .never⟩ (moves.displaced t) moves rows
      = .ok (moves.steps t).length t.toRows := by
  have hcheck : w.check (moves.displaced t) = .ok () :=
    WriteBack.check_eq_ok hne (fun e he => ha e (KeyedList.mem_filter.1 he).1) hroots
  have hsome : ¬ (moves.steps t).isEmpty = true := by
    rw [steps, Tree.paths, List.isEmpty_map, List.isEmpty_map]
    exact Bool.eq_false_iff.1 hne
  rw [WriteBack.updateAll, hcheck, h.movesTo_eq_ok]
  refine (Run.bind_of_ok (Run.attempt_ok ())).trans ?_
  refine (Run.bind_of_ok (Run.attempt_ok (moves.steps t))).trans ?_
  rw [if_neg hsome]
  exact Run.bind_of_ok (h.rekey_eq_ok d)

/-- The moves that a rearrangement makes account for the rows of the tree before. -/
theorem of_rearranges {before after : Tree} {steps : List (Entry × Entry)}
    (h : before.Rearranges after steps) :
    (Tree.movesAmong steps).Accounts before.toRows after where
  stored p hp := Tree.mem_toRows.2 ⟨_, h.origin_mem hp, rfl⟩
  every row hrow := by
    obtain ⟨p, hp, rfl⟩ := Tree.mem_toRows.1 hrow
    obtain ⟨q, hq, horigin⟩ := h.exists_origin hp
    exact ⟨q, hq, congrArg Path.text horigin⟩
  inj _ hp _ hq heq := h.origin_inj hp hq heq
  same _ hp := h.origin_sameEntry hp

end Accounts

/-! ## New entries among the others -/

/-- The entries of a tree that come from other than `fresh` paths. -/
def settled (moves : Moves) (fresh : List Path) (t : Tree) : Tree :=
  t.filter fun e => !fresh.contains (moves.origin e.path)

/-- The entries of a tree that come from `fresh` paths. -/
def arrived (moves : Moves) (fresh : List Path) (t : Tree) : Tree :=
  t.filter fun e => fresh.contains (moves.origin e.path)

section Arrived

variable {moves : Moves} {fresh : List Path} {rows : Rows} {t grown : Tree} {playlist : String}

theorem mem_paths_settled {p : Path} :
    p ∈ (moves.settled fresh t).paths ↔ p ∈ t.paths ∧ moves.origin p ∉ fresh := by
  rw [settled, Tree.mem_paths_filter (f := fun p => !fresh.contains (moves.origin p)),
    Bool.not_eq_true', ← Bool.not_eq_true, List.contains_iff_mem]

theorem mem_paths_arrived {p : Path} :
    p ∈ (moves.arrived fresh t).paths ↔ p ∈ t.paths ∧ moves.origin p ∈ fresh := by
  rw [arrived, Tree.mem_paths_filter (f := fun p => fresh.contains (moves.origin p)),
    List.contains_iff_mem]

theorem Accounts.settled {steps : List (Entry × Entry)} (h : grown.Rearranges t steps)
    (hgrown : ∀ p, p ∈ grown.paths ↔ p ∈ fresh ∨ p ∈ rows.paths) (hrows : rows.Readable)
    (hfresh : ∀ p ∈ fresh, p ∉ rows.paths) :
    (Tree.movesAmong steps).Accounts rows ((Tree.movesAmong steps).settled fresh t) where
  stored p hp := by
    obtain ⟨hp, hold⟩ := mem_paths_settled.1 hp
    have hrow := ((hgrown _).1 (h.origin_mem hp)).resolve_left hold
    exact (Rows.mem_paths.1 hrow).1
  every row hrow := by
    obtain ⟨p, hp, rfl⟩ := hrows.text_mem hrow
    obtain ⟨q, hq, horigin⟩ := h.exists_origin ((hgrown p).2 (.inr hp))
    exact ⟨q, mem_paths_settled.2 ⟨hq, fun hnew => hfresh _ hnew (horigin ▸ hp)⟩,
      congrArg Path.text horigin⟩
  inj _ hp _ hq heq := h.origin_inj (mem_paths_settled.1 hp).1 (mem_paths_settled.1 hq).1 heq
  same _ hp := h.origin_sameEntry (mem_paths_settled.1 hp).1

/-- Once all others have moved, nothing is in the way of the new entries. -/
theorem insertAll_arrived (d : Dialect) {w : WriteBack}
    (hne : (moves.arrived fresh t).isEmpty = false) (ha : t.Agreeing)
    (hroots : ∀ p ∈ (moves.arrived fresh t).paths, p.root.text ∈ w.roots.toList) :
    w.insertAll ⟨d, .never⟩ (moves.arrived fresh t) (moves.settled fresh t).toRows
      = .ok (moves.arrived fresh t).size t.toRows := by
  have hcheck : w.check (moves.arrived fresh t) = .ok () :=
    WriteBack.check_eq_ok hne (fun e he => ha e (KeyedList.mem_filter.1 he).1) hroots
  have hfree : ∀ p ∈ (moves.arrived fresh t).paths,
      p.text ∉ (moves.settled fresh t).toRows.toList := by
    intro p hp hrow
    obtain ⟨q, hq, htext⟩ := Tree.mem_toRows.1 hrow
    rw [Path.text_injective htext] at hq
    exact (mem_paths_settled.1 hq).2 (mem_paths_arrived.1 hp).2
  have hall : (moves.settled fresh t).toRows.putAll ((moves.arrived fresh t).paths.map Path.text)
      = t.toRows := by
    refine KeyedList.ext_mem fun row => ?_
    rw [KeyedList.mem_texts_putAll, Tree.mem_toRows, Tree.mem_toRows, List.mem_map]
    simp only [mem_paths_settled, mem_paths_arrived]
    -- An entry of the tree has either arrived or been settled, so together they are the tree.
    constructor
    · intro hrow
      rcases hrow with ⟨p, ⟨hp, -⟩, htext⟩ | ⟨p, ⟨hp, -⟩, htext⟩
      · exact ⟨p, hp, htext⟩
      · exact ⟨p, hp, htext⟩
    · intro hrow
      obtain ⟨p, hp, htext⟩ := hrow
      by_cases hnew : moves.origin p ∈ fresh
      · exact .inl ⟨p, ⟨hp, hnew⟩, htext⟩
      · exact .inr ⟨p, ⟨hp, hnew⟩, htext⟩
  rw [WriteBack.insertAll, hcheck]
  refine (Run.bind_of_ok (Run.attempt_ok ())).trans ?_
  refine (Run.bind_of_ok (Edit.insert_eq_ok d (Tree.nodup_paths _) hfree)).trans ?_
  rw [hall]
  rfl

/-- With nothing new all entries are settled. -/
theorem settled_eq_of_isEmpty (hempty : (moves.arrived fresh t).isEmpty = true) :
    moves.settled fresh t = t := by
  refine KeyedList.ext_mem fun e => ?_
  rw [settled, KeyedList.mem_filter]
  refine and_iff_left_of_imp fun he => ?_
  have hold := List.filter_eq_nil_iff.1 (List.isEmpty_iff.1 hempty) e he
  rw [Bool.not_eq_true', ← Bool.not_eq_true]
  exact hold

end Arrived

end Moves

end Playlists
