import Playlists.Proofs.Edit.Removal
import Playlists.Proofs.Edit.WriteBack
import Playlists.Proofs.Tree.Children
import Playlists.Proofs.Tree.Growth
import Playlists.Proofs.Tree.Renumbering

/-!
# `Proofs/Operation/Add.lean` — adding entries, in memory and in the rows

What an addition comes to is decided on the tree of the rows: `enlarge` for a batch, `extend` for a
single item. The rows then become those of the tree that was made, and nothing else can go wrong
(`addItems_eq`, `appendItem_eq`).

The two get there by different ways. A batch is built up in memory and written as a difference. A
single item is looked up among the rows, and only if it nests a playlist is the tree read at all;
the rows and the tree have to agree about labels and positions for that.
-/

set_option autoImplicit false

namespace Playlists

open Edit

open Staging (within_rows begin_rows commit_rows)

/-- How work on `rows` ends that was decided in memory: with the rows of the tree that was made, or
with nothing changed. -/
def Rows.written {α : Type} (rows : Rows) :
    Except Failure (α × Tree) → EStateM.Result Failure Rows α
  | .ok (a, after) => .ok a after.toRows
  | .error failure => .error failure rows

namespace Operation

variable {rows : Rows} {playlist : Label} {config : Config}

/-- Nobody holds the lock of a playlist against the transaction that takes it. -/
theorem lock_rows (config : Config) (playlist : Label) :
    (lock config playlist : Edit Unit) = pure () := by
  rw [lock]
  split
  · rfl
  · rfl

theorem load_rows (config : Config) (playlist : Label) :
    (load config playlist : Edit Tree) = fetchTree playlist := by
  rw [load, lock_rows, pure_bind]

theorem fetchTree_eq_ok (h : rows.Readable) : fetchTree playlist rows = .ok rows.tree rows := by
  show attempt (Tree.ofRows rows.toList) rows = _
  rw [h.ofRows_eq]
  rfl

/-- Work goes on after the tree was read only if all rows can be read. -/
theorem ensures_after_fetchTree {α : Type} {next : Tree → Edit α} {Q : α → Rows → Prop}
    (hnext : rows.Readable → Run.Ensures (next rows.tree) rows Q) :
    Run.Ensures (fetchTree playlist >>= next) rows Q := by
  show Run.Ensures (fun rows => (attempt (Tree.ofRows rows.toList) >>= next) rows) rows Q
  refine Run.Ensures.after_attempt fun tree htree => ?_
  have hread : rows.Readable := by
    intro row hrow
    rw [Tree.ofRows_eq_map] at htree
    obtain ⟨paths, hpaths, -⟩ := Failure.map_eq_ok_iff.1 htree
    exact Failure.exists_eq_ok_of_mapM hpaths hrow
  rw [hread.ofRows_eq] at htree
  cases htree
  exact hnext hread

/-! ## A batch -/

/-- What adding a batch comes to in memory: the paths of the items and the tree with them. -/
def enlarge (config : Config) (playlist : Label) (items : List NewItem) (explicit : Option UInt64)
    (rebalance : Bool) (t : Tree) : Except Failure (List Path × Tree) :=
  if items.isEmpty then .error .nothingToWrite
  else do
    config.checkRoom playlist.text t.size items.length
    match (Tree.add playlist.text items explicit) t with
    | .error failure _ => .error failure
    | .ok created grown =>
      let (after, moves) := if rebalance then grown.rebalance else (grown, .empty)
      .ok (created.map moves.destination, after)

theorem enlarge_eq (items : List NewItem) (explicit : Option UInt64) (rebalance : Bool) (t : Tree) :
    enlarge config playlist items explicit rebalance t
      = if items.isEmpty then .error .nothingToWrite
        else config.checkRoom playlist.text t.size items.length >>= fun _ =>
          (Run.outcome (Tree.add playlist.text items explicit t)).map fun result =>
            (result.1.map (result.2.balanced rebalance).2.destination,
              (result.2.balanced rebalance).1) := by
  rw [enlarge]
  cases Tree.add playlist.text items explicit t <;> rfl

/-- A batch is added exactly if there is one, it fits, and the tree can grow by it. -/
theorem enlarge_eq_ok_iff {t after : Tree} {items : List NewItem} {explicit : Option UInt64}
    {rebalance : Bool} {paths : List Path} :
    enlarge config playlist items explicit rebalance t = .ok (paths, after) ↔
      items ≠ [] ∧ config.Allows (t.size + items.length) ∧ ∃ created grown,
        Tree.Grown playlist.text (if items.length = 1 then explicit else none) t items created
          grown ∧
        paths = created.map (grown.balanced rebalance).2.destination ∧
        after = (grown.balanced rebalance).1 := by
  constructor
  · intro h
    rw [enlarge] at h
    split at h
    · cases h
    next hsome =>
    obtain ⟨_, hroom, h⟩ := Failure.bind_eq_ok_iff.1 h
    cases hadd : Tree.add playlist.text items explicit t with
    | error failure t' =>
      rw [hadd] at h
      cases h
    | ok created grown =>
      rw [hadd] at h
      cases h
      exact ⟨mt List.isEmpty_iff.2 hsome, Config.checkRoom_eq_ok_iff.1 hroom, created, grown,
        Tree.grown_of_mapM hadd, rfl, rfl⟩
  · rintro ⟨hsome, hroom, created, grown, hgrown, rfl, rfl⟩
    have hadd : Tree.add playlist.text items explicit t = .ok created grown := hgrown.mapM_eq_ok
    rw [enlarge_eq, if_neg (mt List.isEmpty_iff.1 hsome), Config.checkRoom_eq_ok_iff.2 hroom, hadd]
    rfl

theorem difference_eq (before : Tree) (created : List Path) (after : Tree) (moves : Moves) :
    difference before created after moves
      = (moves.arrived (created.filter fun p => !before.contains p.text) after,
        moves.displaced (moves.settled (created.filter fun p => !before.contains p.text) after)) := by
  refine Prod.ext rfl (KeyedList.ext_mem fun e => ?_)
  rw [Moves.displaced, Moves.settled, KeyedList.mem_filter, KeyedList.mem_filter, and_assoc,
    ← Bool.and_eq_true]
  exact KeyedList.mem_filter

/-- Moving the settled entries and then inserting the others writes the whole tree. -/
theorem writeDifference_eq_ok {α : Type} (d : Dialect) {moves : Moves} {fresh : List Path}
    {after : Tree} {w : WriteBack} (haccounts : moves.Accounts rows (moves.settled fresh after))
    (ha : after.Agreeing)
    (hroots : ∀ p ∈ after.paths, moves.origin p ≠ p ∨ moves.origin p ∈ fresh →
      p.root.text ∈ w.roots.toList) (a : α) :
    (do
      unless (moves.displaced (moves.settled fresh after)).isEmpty do
        discard (w.updateAll ⟨d, .never⟩ (moves.displaced (moves.settled fresh after)) moves)
      unless (moves.arrived fresh after).isEmpty do
        discard (w.insertAll ⟨d, .never⟩ (moves.arrived fresh after))
      return a : Edit α) rows = .ok a after.toRows := by
  have hinsert : (do
      unless (moves.arrived fresh after).isEmpty do
        discard (w.insertAll ⟨d, .never⟩ (moves.arrived fresh after))
      return a : Edit α) (moves.settled fresh after).toRows = .ok a after.toRows := by
    by_cases hnew : (moves.arrived fresh after).isEmpty = true
    · rw [if_pos hnew, Moves.settled_eq_of_isEmpty hnew]
      rfl
    · rw [if_neg hnew]
      have hne := Bool.eq_false_iff.2 hnew
      have hnewRoots : ∀ p ∈ (moves.arrived fresh after).paths, p.root.text ∈ w.roots.toList := by
        intro p hp
        obtain ⟨hp, hfresh⟩ := Moves.mem_paths_arrived.1 hp
        exact hroots p hp (.inr hfresh)
      exact Run.bind_of_ok (Run.discard_of_ok (Moves.insertAll_arrived d hne ha hnewRoots))
  -- Both writes are left out where they have nothing to do, so both may change nothing.
  by_cases hmoved : (moves.displaced (moves.settled fresh after)).isEmpty = true
  · rw [if_pos hmoved, ← haccounts.toRows_eq_of_isEmpty hmoved]
    exact hinsert
  · rw [if_neg hmoved]
    have hne := Bool.eq_false_iff.2 hmoved
    have hmovedRoots : ∀ p ∈ (moves.displaced (moves.settled fresh after)).paths,
        p.root.text ∈ w.roots.toList := by
      intro p hp
      obtain ⟨hp, hmove⟩ := Moves.mem_paths_displaced.1 hp
      exact hroots p (Moves.mem_paths_settled.1 hp).1 (.inl hmove)
    have hupdate := haccounts.updateAll_eq_ok d hne
      (fun e he => ha e (KeyedList.mem_filter.1 he).1) hmovedRoots
    exact (Run.bind_of_ok (Run.discard_of_ok hupdate)).trans hinsert

/-- The rows that a batch writes stand under labels that the tree knows. Rows that a batch leaves
alone may stand anywhere, so only numbering afresh needs a playlist that hangs together. -/
theorem mem_roots_of_written {t grown : Tree} {explicit : Option UInt64} {items : List NewItem}
    {created : List Path} {rebalance : Bool}
    (hgrown : Tree.Grown playlist.text explicit t items created grown) (ha : t.Agreeing)
    (hr : rebalance = true → Rooted playlist.text t.paths) :
    ∀ p ∈ (grown.balanced rebalance).1.paths,
      (grown.balanced rebalance).2.origin p ≠ p ∨
        (grown.balanced rebalance).2.origin p ∈ created →
      p.root.text ∈ (WriteBack.forTree playlist.text (grown.balanced rebalance).1).roots.toList := by
  have hag := hgrown.agreeing ha
  intro p hp hwritten
  cases rebalance with
  | true =>
    have hsteps := grown.rearranges_rebalance
    exact WriteBack.mem_roots_of_rooted (hsteps.agreeing hag)
      (hsteps.rooted (hgrown.rooted (hr rfl))) p hp
  | false =>
    -- Nothing moves, so what is written is new.
    have hnew : p ∈ created := hwritten.resolve_left fun hne => hne rfl
    exact (WriteBack.mem_knownRoots hag).2 (hgrown.known_root p hnew)

theorem addItems_eq (d : Dialect) (h : rows.Readable) (items : List NewItem)
    (explicit : Option UInt64) (rebalance : Bool)
    (hr : rebalance = true → Rooted playlist.text rows.paths) :
    addItems ⟨d, .never⟩ config playlist items explicit rebalance rows
      = rows.written (enlarge config playlist items explicit rebalance rows.tree) := by
  rw [addItems, enlarge]
  by_cases hempty : items.isEmpty = true
  · rw [if_pos hempty, if_pos hempty]
    rfl
  rw [if_neg hempty, if_neg hempty]
  simp only [begin_rows, commit_rows, pure_bind, load_rows]
  rw [Run.bind_of_ok (fetchTree_eq_ok h)]
  cases config.checkRoom playlist.text rows.tree.size items.length with
  | error failure => rfl
  | ok _ =>
  cases hadd : Tree.add playlist.text items explicit rows.tree with
  | error failure t => rfl
  | ok created grown =>
    have hgrown := Tree.grown_of_mapM hadd
    rw [← rows.paths_tree] at hr
    have hroots := mem_roots_of_written hgrown rows.agreeing_tree hr
    obtain ⟨steps, hsteps, hmoves⟩ := grown.exists_rearranges_balanced rebalance
    dsimp only
    rw [Tree.balanced] at hsteps hmoves hroots
    generalize (if rebalance then grown.rebalance else (grown, .empty)) = balanced at *
    obtain ⟨after, moves⟩ := balanced
    dsimp only at hsteps hmoves hroots ⊢
    rw [difference_eq]
    have ha : after.Agreeing := hsteps.agreeing (hgrown.agreeing rows.agreeing_tree)
    -- A created path that is a row already overwrites its entry, so only the others count as fresh.
    have haccounts : moves.Accounts rows
        (moves.settled (created.filter fun p => !rows.tree.contains p.text) after) := by
      subst hmoves
      have hnew : ∀ p, p ∈ created.filter (fun p => !rows.tree.contains p.text) ↔
          p ∈ created ∧ p ∉ rows.paths := fun p => by
        rw [List.mem_filter, Bool.not_eq_true', ← Bool.not_eq_true, Tree.contains_text_iff,
          rows.paths_tree]
      refine .settled hsteps (fun p => ?_) h fun p hp => ((hnew p).1 hp).2
      rw [hgrown.mem_paths, rows.paths_tree, hnew]
      by_cases hp : p ∈ rows.paths
      · simp [hp]
      · simp [hp]
    refine writeDifference_eq_ok d haccounts ha (fun p hp hwritten => hroots p hp ?_) _
    exact hwritten.imp_right fun hnew => (List.mem_filter.1 hnew).1

/-! ## A single item -/

/-- What appending one item comes to in memory: its path and the tree with it. -/
def extend (config : Config) (playlist : Label) (parent : Option String) (kind : Kind)
    (item : String) (t : Tree) : Except Failure (Path × Tree) := do
  config.checkRoom playlist.text t.size 1
  (t.pathFor playlist.text none ⟨kind, item, parent⟩).map fun path =>
    (path, t.put (Entry.ofPath path))

theorem extend_eq_ok_iff {t after : Tree} {parent : Option String} {kind : Kind} {item : String}
    {p : Path} :
    extend config playlist parent kind item t = .ok (p, after) ↔ config.Allows (t.size + 1) ∧
      t.pathFor playlist.text none ⟨kind, item, parent⟩ = .ok p ∧
      t.put (Entry.ofPath p) = after := by
  rw [extend]
  constructor
  · intro h
    obtain ⟨_, hroom, h⟩ := Failure.bind_eq_ok_iff.1 h
    obtain ⟨q, hq, heq⟩ := Failure.map_eq_ok_iff.1 h
    cases heq
    exact ⟨Config.checkRoom_eq_ok_iff.1 hroom, hq, rfl⟩
  · rintro ⟨hroom, hp, rfl⟩
    rw [Config.checkRoom_eq_ok_iff.2 hroom, hp]
    rfl

/-- A batch of one item is that item appended. -/
theorem enlarge_singleton (item : NewItem) (t : Tree) :
    enlarge config playlist [item] none false t
      = (extend config playlist item.parent item.kind item.id t).map (.map ([·]) id) := by
  have hsome : ¬ [item].isEmpty = true := Bool.false_ne_true
  rw [enlarge_eq, extend, if_neg hsome, List.length_singleton]
  cases config.checkRoom playlist.text t.size 1 with
  | error failure => rfl
  | ok _ =>
    rw [Tree.add, List.mapM_cons, Run.outcome_bind, ite_self, Tree.outcome_addOne]
    cases t.pathFor playlist.text none item with
    | error failure => rfl
    | ok p => rfl

/-- Asking for a place is asking for room for one row more. -/
theorem checkPlace_rows (config : Config) (playlist : Label) (rows : Rows) :
    checkPlace config playlist rows = attempt (config.checkRoom playlist.text rows.size 1) rows := by
  rw [checkPlace, Config.checkRoom]
  cases config.maxPlaylistItems with
  | none => rfl
  | some limit =>
    show (if rows.size ≥ limit.toNat then _ else _ : Edit Unit) rows = _
    dsimp only
    by_cases hfull : rows.size ≥ limit.toNat
    · rw [if_pos hfull, if_pos (Nat.lt_succ_of_le hfull)]
      rfl
    · rw [if_neg hfull, if_neg (mt Nat.le_of_lt_succ hfull)]
      rfl

/-- The last position among the rows is the last one among the children in memory. -/
theorem lastPosition_eq (h : rows.Readable) {label : String} (hlabel : '.' ∉ label.toList) :
    lastPosition rows.toList label = .ok (rows.tree.maxChildPosition label) := by
  have hrows : rows.toList = rows.tree.rows := congrArg KeyedList.toList h.tree_toRows.symm
  exact rows.agreeing_tree.lastPosition_eq rows.storable_tree hlabel (.of_eq hrows)

/-- An appended item takes the next position in memory, and its row is put to the others. -/
theorem append_eq (d : Dialect) (h : rows.Readable) {parent : String} (hparent : '.' ∉ parent.toList)
    (kind : Kind) (item : String) :
    append ⟨d, .never⟩ playlist.text parent kind item rows
      = rows.written ((rows.tree.nextPosition parent >>= Path.create parent kind item).map
          fun path => (path, rows.tree.put (Entry.ofPath path))) := by
  -- The rows are asked for the last position, not the tree; on readable rows both give the same.
  have hlast : Edit.lastPosition d parent rows = .ok (rows.tree.maxChildPosition parent) rows := by
    rw [h.lastPosition_eq d, lastPosition_eq h hparent]
    rfl
  rw [append, within_rows, Run.bind_of_ok hlast]
  cases hnext : rows.tree.nextPosition parent with
  | error failure =>
    rw [Tree.nextPosition] at hnext
    rw [hnext]
    rfl
  | ok position =>
    have hafter := hnext
    rw [Tree.nextPosition] at hafter
    rw [hafter, Run.bind_of_ok (Run.attempt_ok position)]
    show _ = rows.written ((Path.create parent kind item position).map _)
    cases hpath : Path.create parent kind item position with
    | error failure => rfl
    | ok path =>
      obtain ⟨rfl, -, -, rfl⟩ := Path.create_eq_ok_iff.1 hpath
      have hfree : ∀ p ∈ [path], p.text ∉ rows.toList := by
        intro p hp hrow
        rw [List.mem_singleton.1 hp] at hrow
        refine Tree.not_mem_of_nextPosition rows.agreeing_tree hnext ?_
        rw [rows.paths_tree]
        exact Rows.mem_paths.2 ⟨hrow, (positionAfter_lt_size hnext).2⟩
      rw [Run.bind_of_ok (Run.attempt_ok path), within_rows,
        Run.bind_of_ok (insert_eq_ok d (List.nodup_singleton path) hfree)]
      show EStateM.Result.ok path (rows.put path.text)
        = .ok path (Tree.toRows (rows.tree.put (Entry.ofPath path)))
      rw [Tree.toRows_put, h.tree_toRows]

/-- Below a holder that is part of the playlist only the check for cycles stands before the item. -/
theorem append_checked_eq (d : Dialect) (h : rows.Readable) {holder : String}
    (hholder : holder = playlist.text ∨ rows.tree.nests holder = true) (kind : Kind)
    (item : String) :
    (if kind = Kind.playlist then
        fetchTree playlist >>= fun tree =>
          attempt (tree.checkAcyclic playlist.text holder kind item) >>= fun _ =>
            append ⟨d, .never⟩ playlist.text holder kind item
      else append ⟨d, .never⟩ playlist.text holder kind item : Edit Path) rows
      = rows.written ((rows.tree.checkAcyclic playlist.text holder kind item >>= fun _ =>
          rows.tree.nextPosition holder >>= Path.create holder kind item).map
        fun path => (path, rows.tree.put (Entry.ofPath path))) := by
  have hdot : '.' ∉ holder.toList := by
    rcases hholder with rfl | hnests
    · exact playlist.dot_not_mem
    · obtain ⟨p, -, -, rfl⟩ := Tree.nests_eq_true_iff.1 hnests
      exact p.item.dot_not_mem
  by_cases hkind : kind = .playlist
  · rw [if_pos hkind, Run.bind_of_ok (fetchTree_eq_ok h)]
    cases rows.tree.checkAcyclic playlist.text holder kind item with
    | error failure => rfl
    | ok _ => exact append_eq d h hdot kind item
  -- A track is never refused, so the tree that only the check needs is not read for it.
  · have hfree : rows.tree.checkAcyclic playlist.text holder kind item = .ok () :=
      Tree.checkAcyclic_eq_ok_iff.2 fun hcycle => hkind hcycle.1
    rw [if_neg hkind, hfree]
    exact append_eq d h hdot kind item

theorem appendItem_eq (d : Dialect) (h : rows.Readable) (parent : Option String) (kind : Kind)
    (item : String) :
    appendItem ⟨d, .never⟩ config playlist parent kind item rows
      = rows.written (extend config playlist parent kind item rows.tree) := by
  rw [appendItem, extend, begin_rows, commit_rows, pure_bind, lock_rows, pure_bind, h.size_tree]
  simp only [pure_bind, bind_pure, within_rows]
  cases hroom : config.checkRoom playlist.text rows.size 1 with
  | error failure =>
    rw [Run.bind_of_error ((checkPlace_rows config playlist rows).trans (Run.attempt_of_error hroom))]
    rfl
  | ok _ =>
  -- From here both sides ask in the same order: is the holder known, then is there a cycle.
  rw [Run.bind_of_ok ((checkPlace_rows config playlist rows).trans (Run.attempt_of_ok hroom)),
    Tree.pathFor]
  dsimp only
  generalize parent.getD playlist.text = holder
  by_cases hown : holder = playlist.text
  · have hholder : holder = playlist.text ∨ rows.tree.nests holder = true := .inl hown
    rw [if_pos hown, if_pos hholder]
    exact append_checked_eq d h hholder kind item
  have hlook : pointsAt d .playlist holder rows
      = .ok (rows.toList.any (d.pointsAt .playlist holder)) rows := rfl
  have hnests : rows.toList.any (d.pointsAt .playlist holder) = true ↔
      rows.tree.nests holder = true := by
    rw [Tree.nests_eq_true_iff, rows.paths_tree]
    exact any_pointsAt_iff d h
  rw [if_neg hown, Run.bind_of_ok hlook]
  by_cases hpoint : rows.toList.any (d.pointsAt .playlist holder) = true
  · have hholder : holder = playlist.text ∨ rows.tree.nests holder = true :=
      .inr (hnests.1 hpoint)
    rw [if_pos hpoint, if_pos hholder]
    exact append_checked_eq d h hholder kind item
  · have hholder : ¬ (holder = playlist.text ∨ rows.tree.nests holder = true) :=
      not_or.2 ⟨hown, fun hnest => hpoint (hnests.2 hnest)⟩
    rw [if_neg hpoint, if_neg hholder]
    rfl

end Operation

end Playlists
