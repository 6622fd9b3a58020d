import Playlists.Proofs.Nesting.Ancestors
import Playlists.Proofs.Tree.Batch
import Playlists.Proofs.Tree.Children

/-!
# `Proofs/Tree/Allocation.lean` — the positions of a batch, and when there are enough of them

Every item of a batch looks for the last position under its parent anew, in a tree that grows with
each of them. All the same the positions can be told in advance: the items of one parent take the
positions that follow the last one there was, in their order and without a gap
(`Grown.map_position`), because the last position is all that one item leaves to the next
(`lastUnder_put`).

So it can be told in advance whether a batch is refused. `InOrder` says that nothing but positions
can be wrong with it: its names are labels, its parents are there or come earlier in the batch, and
no nesting leads back to where it starts. Then it is refused exactly when some parent has too few
positions left (`InOrder.outcome`).
-/

set_option autoImplicit false

namespace Playlists

open Relation

namespace Path

/-- The last position under a label, and zero if nothing stands under it. -/
def lastUnder (paths : List Path) (parent : String) : Nat :=
  ((paths.filter (·.isUnder parent)).map position).max?.getD 0

/-- The last position is within a bound exactly when all positions under the label are. -/
theorem lastUnder_le_iff {paths : List Path} {parent : String} {n : Nat} :
    lastUnder paths parent ≤ n ↔ ∀ p ∈ paths, p.root.text = parent → p.position ≤ n := by
  have hall : (∀ p ∈ paths, p.root.text = parent → p.position ≤ n) ↔
      ∀ m ∈ (paths.filter (·.isUnder parent)).map position, m ≤ n := by
    rw [List.forall_mem_map]
    simp [isUnder]
  rw [hall, lastUnder]
  cases hmax : ((paths.filter (·.isUnder parent)).map position).max? with
  | none =>
    rw [List.max?_eq_none_iff.1 hmax]
    simp
  | some last =>
    obtain ⟨hmem, hle⟩ := List.max?_eq_some_iff.1 hmax
    exact ⟨fun hlast m hm => Nat.le_trans (hle m hm) hlast, fun hbound => hbound last hmem⟩

end Path

namespace Tree

variable {t grown : Tree} {playlist parent : String} {earlier items : List NewItem}
  {item : NewItem} {created : List Path} {p : Path}

/-! ## One position -/

/-- The next position is one behind the last, as long as that is a machine word. -/
theorem nextPosition_eq (ha : t.Agreeing) (hdot : '.' ∉ parent.toList) :
    t.nextPosition parent =
      if Path.lastUnder t.paths parent + 1 < UInt64.size
      then .ok (Path.lastUnder t.paths parent + 1)
      else .error (.noPositionLeft (Path.lastUnder t.paths parent) parent) := by
  rw [nextPosition, ha.maxChildPosition_eq hdot, Path.lastUnder]
  cases ((t.paths.filter (·.isUnder parent)).map Path.position).max? with
  | none => rfl
  | some last => rfl

/-- An entry at the next position becomes the last of its siblings and of nobody else's. -/
theorem lastUnder_put (hlast : p.position = Path.lastUnder t.paths p.root.text + 1) :
    Path.lastUnder (paths (t.put (Entry.ofPath p))) parent
      = Path.lastUnder t.paths parent + if p.root.text = parent then 1 else 0 := by
  apply eq_of_forall_ge_iff
  intro n
  have hput : Path.lastUnder (paths (t.put (Entry.ofPath p))) parent ≤ n ↔
      (p.root.text = parent → p.position ≤ n) ∧ Path.lastUnder t.paths parent ≤ n := by
    rw [Path.lastUnder_le_iff, Path.lastUnder_le_iff]
    simp [mem_paths_put]
  rw [hput]
  split
  · next hroot =>
    obtain rfl := hroot
    rw [hlast, forall_prop_of_true rfl, and_iff_left_of_imp Nat.le_of_succ_le]
  · next hroot => simp [hroot]

theorem Takes.position_eq (h : t.Takes playlist none item p) (ha : t.Agreeing) :
    p.position = Path.lastUnder t.paths p.root.text + 1 := by
  have hn := h.position
  dsimp only at hn
  rw [nextPosition_eq ha p.root.dot_not_mem] at hn
  split at hn
  · exact (Except.ok.inj hn).symm
  · cases hn

/-! ## The positions of a batch -/

/-- How many items go to a parent. -/
def countFor (playlist parent : String) (items : List NewItem) : Nat :=
  items.countP fun item => item.parent.getD playlist == parent

theorem countFor_cons (playlist parent : String) (item : NewItem) (items : List NewItem) :
    countFor playlist parent (item :: items)
      = countFor playlist parent items + if item.parent.getD playlist = parent then 1 else 0 := by
  simp [countFor, List.countP_cons]

/-- **The items of one parent take the positions behind its last child, one after another.** -/
theorem Grown.map_position (h : Grown playlist none t items created grown) (ha : t.Agreeing)
    (parent : String) : (created.filter (·.isUnder parent)).map Path.position
      = List.range' (Path.lastUnder t.paths parent + 1) (countFor playlist parent items) := by
  induction h with
  | nil t => rfl
  | cons first rest ih =>
    have htakes := pathFor_eq_ok first
    have hposition := htakes.position_eq ha
    have hrest := ih (agreeing_put ha _)
    rw [lastUnder_put hposition, htakes.root] at hrest
    rw [countFor_cons, List.filter_cons, Path.isUnder, htakes.root]
    split
    · next hroot =>
      have hparent := beq_iff_eq.1 hroot
      rw [if_pos hparent] at hrest ⊢
      rw [List.map_cons, hrest, hposition, htakes.root, hparent, List.range'_succ]
    · next hroot =>
      rw [if_neg fun hparent => hroot (beq_iff_eq.2 hparent)] at hrest ⊢
      exact hrest

theorem Grown.position_lt_size (h : Grown playlist none t items created grown) :
    ∀ p ∈ created, p.position < UInt64.size := by
  induction h with
  | nil t => exact List.forall_mem_nil _
  | cons first rest ih => exact List.forall_mem_cons.2 ⟨(pathFor_eq_ok first).position_lt_size, ih⟩

/-- What a batch of appended items puts into a tree. -/
structure Appends (t : Tree) (playlist : String) (items : List NewItem) (created : List Path)
    (grown : Tree) : Prop where
  carries : List.Forall₂ (fun item p => Path.Carries playlist item p) items created
  positions : ∀ parent, (created.filter (·.isUnder parent)).map Path.position
    = List.range' (Path.lastUnder t.paths parent + 1) (countFor playlist parent items)
  nodup : created.Nodup
  fresh : ∀ p ∈ created, p ∉ t.paths
  /-- No position is beyond the machine words. -/
  words : ∀ p ∈ created, p.position < UInt64.size
  entries : ∀ e, e ∈ grown.toList ↔ e ∈ t.toList ∨ ∃ p ∈ created, Entry.ofPath p = e

theorem Grown.appends (h : Grown playlist none t items created grown) (ha : t.Agreeing) :
    t.Appends playlist items created grown where
  carries := h.carries
  positions := h.map_position ha
  nodup := h.nodup_appended ha
  fresh := h.not_mem_of_mem_created ha
  words := h.position_lt_size
  entries e := by
    rw [(h.agreeing ha).mem_iff, ha.mem_iff, ← exists_or]
    refine exists_congr fun p => ?_
    rw [h.mem_paths, or_and_right, or_comm]

/-! ## Batches with nothing wrong but positions -/

/-- By the entries of a tree, or by those that `items` are to become, `outer` nests `inner`. -/
def NestsWith (t : Tree) (playlist : String) (items : List NewItem) (outer inner : String) : Prop :=
  Nests t.paths outer inner ∨
    ∃ item ∈ items, item.parent.getD playlist = outer ∧ item.kind = .playlist ∧ item.id = inner

/-- Nothing but its position can be wrong with an item that comes after `earlier` ones. -/
structure Admits (t : Tree) (playlist : String) (earlier : List NewItem) (item : NewItem) :
    Prop where
  parent_label : ∃ label : Label, label.text = item.parent.getD playlist
  item_label : ∃ label : Label, label.text = item.id
  parent_known : item.parent.getD playlist = playlist ∨
    ∃ outer, t.NestsWith playlist earlier outer (item.parent.getD playlist)
  /-- A playlist is neither the one that is added to nor leads to its parent. -/
  acyclic : item.kind = .playlist → item.id ≠ playlist ∧
    ¬ ReflTransGen (fun a b => t.NestsWith playlist earlier a b ∧ b ≠ playlist) item.id
      (item.parent.getD playlist)

/-- Nothing but positions can be wrong with a batch. -/
def InOrder (t : Tree) (playlist : String) (items : List NewItem) : Prop :=
  ∀ earlier item later, items = earlier ++ item :: later → t.Admits playlist earlier item

/-- Some parent of a batch would need a position beyond the machine words. -/
def Overflows (t : Tree) (playlist : String) (items : List NewItem) : Prop :=
  ∃ parent, 0 < countFor playlist parent items ∧
    UInt64.size ≤ Path.lastUnder t.paths parent + countFor playlist parent items

theorem nestsWith_nil (t : Tree) (playlist : String) :
    t.NestsWith playlist [] = Nests t.paths := by
  funext outer inner
  simp [NestsWith]

/-- An item that has its path nests what it was going to nest. -/
theorem nestsWith_put (hp : p.Carries playlist item) :
    NestsWith (t.put (Entry.ofPath p)) playlist items
      = t.NestsWith playlist (item :: items) := by
  obtain ⟨hroot, hkind, hitem⟩ := hp
  funext outer inner
  rw [NestsWith, NestsWith, nests_put_iff, Path.PointsAt, hroot, hkind, hitem]
  simp only [List.mem_cons, exists_eq_or_imp, or_assoc]

theorem admits_put_iff (hp : p.Carries playlist item) {later : NewItem} :
    Admits (t.put (Entry.ofPath p)) playlist earlier later
      ↔ t.Admits playlist (item :: earlier) later := by
  have hnests : NestsWith (t.put (Entry.ofPath p)) playlist earlier
      = t.NestsWith playlist (item :: earlier) := nestsWith_put hp
  constructor
  · intro h
    exact ⟨h.parent_label, h.item_label, hnests ▸ h.parent_known, hnests ▸ h.acyclic⟩
  · intro h
    exact ⟨h.parent_label, h.item_label, hnests ▸ h.parent_known, hnests ▸ h.acyclic⟩

theorem inOrder_nil (t : Tree) (playlist : String) : t.InOrder playlist [] :=
  fun _ _ _ hitems => absurd hitems.symm (List.append_ne_nil_of_right_ne_nil _ (by simp))

/-- A batch is in order if its first item is and the rest is once the first item has its path. -/
theorem inOrder_cons_iff (hp : p.Carries playlist item) :
    t.InOrder playlist (item :: items) ↔
      t.Admits playlist [] item ∧ InOrder (t.put (Entry.ofPath p)) playlist items := by
  constructor
  · intro h
    refine ⟨h [] item items rfl, fun earlier x later hitems => ?_⟩
    apply (admits_put_iff hp).2
    apply h (item :: earlier) x later
    rw [hitems, List.cons_append]
  · rintro ⟨hfirst, hrest⟩ earlier x later hitems
    rcases List.cons_eq_append_iff.1 hitems with ⟨rfl, heq⟩ | ⟨earlier', rfl, heq⟩
    · obtain ⟨rfl, -⟩ := List.cons.inj heq
      exact hfirst
    · exact (admits_put_iff hp).1 (hrest earlier' x later heq)

theorem InOrder.head (h : t.InOrder playlist (item :: items)) : t.Admits playlist [] item :=
  h [] item items rfl

/-- Only the position is left to be found for an item that is admitted. -/
theorem Admits.pathFor_eq (h : t.Admits playlist [] item) :
    t.pathFor playlist none item = (do
      let position ← t.nextPosition (item.parent.getD playlist)
      Path.create (item.parent.getD playlist) item.kind item.id position) := by
  have hparent : item.parent.getD playlist = playlist ∨
      t.nests (item.parent.getD playlist) = true := by
    refine h.parent_known.imp_right fun hex => ?_
    obtain ⟨outer, hnests⟩ := hex
    rw [nestsWith_nil] at hnests
    obtain ⟨q, hq, -, hpoint⟩ := hnests
    exact nests_eq_true_iff.2 ⟨q, hq, hpoint⟩
  -- The check follows the same nestings as `Admits`, the playlist left out.
  have hcheck : t.checkAcyclic playlist (item.parent.getD playlist) item.kind item.id = .ok () := by
    rw [checkAcyclic_eq_ok_iff, contains_ancestors_iff]
    rintro ⟨hkind, hback⟩
    have hfree := h.acyclic hkind
    rw [nestsWith_nil] at hfree
    exact not_or.2 hfree hback
  rw [pathFor, if_pos hparent, hcheck]
  rfl

theorem Admits.exists_pathFor_eq_ok (h : t.Admits playlist [] item) (ha : t.Agreeing)
    (hword : Path.lastUnder t.paths (item.parent.getD playlist) + 1 < UInt64.size) :
    ∃ p, t.pathFor playlist none item = .ok p := by
  obtain ⟨root, hroot⟩ := h.parent_label
  obtain ⟨label, hlabel⟩ := h.item_label
  rw [h.pathFor_eq, nextPosition_eq ha (hroot ▸ root.dot_not_mem), if_pos hword]
  exact ⟨⟨root, item.kind, label, _⟩, Path.create_eq_ok_iff.2 ⟨hroot, rfl, hlabel, rfl⟩⟩

theorem Admits.pathFor_eq_error (h : t.Admits playlist [] item) (ha : t.Agreeing)
    (hfull : ¬ Path.lastUnder t.paths (item.parent.getD playlist) + 1 < UInt64.size) :
    t.pathFor playlist none item = .error (.noPositionLeft
      (Path.lastUnder t.paths (item.parent.getD playlist)) (item.parent.getD playlist)) := by
  obtain ⟨root, hroot⟩ := h.parent_label
  rw [h.pathFor_eq, nextPosition_eq ha (hroot ▸ root.dot_not_mem), if_neg hfull]
  rfl

/-- An item that is given a path is admitted. -/
theorem Takes.admits (h : t.Takes playlist none item p) : t.Admits playlist [] item where
  parent_label := ⟨p.root, h.root⟩
  item_label := ⟨p.item, h.item⟩
  parent_known := by
    rw [← h.root, nestsWith_nil]
    refine h.rooted.imp_right fun hex => ?_
    obtain ⟨q, hq, hpoint⟩ := hex
    exact ⟨q.root.text, q, hq, rfl, hpoint⟩
  acyclic hkind := by
    have hfree := h.acyclic
    rw [contains_ancestors_iff, h.kind, h.item, h.root] at hfree
    rw [nestsWith_nil]
    exact not_or.1 fun hback => hfree ⟨hkind, hback⟩

/-- A batch that is taken was in order. -/
theorem Grown.inOrder (h : Grown playlist none t items created grown) :
    t.InOrder playlist items := by
  induction h with
  | nil t => exact inOrder_nil t playlist
  | cons first rest ih =>
    have hp := pathFor_eq_ok first
    exact (inOrder_cons_iff hp.carries).2 ⟨hp.admits, ih⟩

theorem overflows_of_first
    (hfull : ¬ Path.lastUnder t.paths (item.parent.getD playlist) + 1 < UInt64.size) :
    t.Overflows playlist (item :: items) := by
  refine ⟨item.parent.getD playlist, ?_, ?_⟩
  · rw [countFor_cons, if_pos rfl]
    exact Nat.succ_pos _
  · rw [countFor_cons, if_pos rfl]
    omega

/-- What is left of a batch needs the positions that it needed before its first item had one. -/
theorem overflows_put_iff (hp : t.Takes playlist none item p) (ha : t.Agreeing) :
    Overflows (t.put (Entry.ofPath p)) playlist items ↔ t.Overflows playlist (item :: items) := by
  have hposition := hp.position_eq ha
  have hword := hp.position_lt_size
  refine exists_congr fun parent => ?_
  rw [lastUnder_put hposition, hp.root, countFor_cons]
  rw [hposition, hp.root] at hword
  split
  · next hparent =>
    rw [hparent] at hword
    omega
  · next hother => simp

/-- **A batch with nothing wrong but positions is refused exactly when they run out.** -/
theorem InOrder.outcome (h : t.InOrder playlist items) (ha : t.Agreeing) :
    (¬ t.Overflows playlist items ∧ ∃ created grown, Grown playlist none t items created grown) ∨
      t.Overflows playlist items ∧ ∃ parent last left, items.mapM (addOne playlist none) t
        = .error (.noPositionLeft last parent) left := by
  induction items generalizing t with
  | nil =>
    refine .inl ⟨fun hover => ?_, [], t, .nil t⟩
    obtain ⟨parent, hcount, -⟩ := hover
    exact Nat.lt_irrefl 0 hcount
  | cons item rest ih =>
    by_cases hword : Path.lastUnder t.paths (item.parent.getD playlist) + 1 < UInt64.size
    · obtain ⟨p, hpath⟩ := h.head.exists_pathFor_eq_ok ha hword
      have hp := pathFor_eq_ok hpath
      -- The rest is a batch in order for the grown tree, and needs what it needed before.
      have hrest := ih ((inOrder_cons_iff hp.carries).1 h).2 (agreeing_put ha p)
      rw [overflows_put_iff hp ha] at hrest
      refine hrest.imp (And.imp_right fun hgrown => ?_) (And.imp_right fun herror => ?_)
      · obtain ⟨created, grown, hgrown⟩ := hgrown
        exact ⟨p :: created, grown, .cons hpath hgrown⟩
      · obtain ⟨parent, last, left, herror⟩ := herror
        refine ⟨parent, last, left, ?_⟩
        rw [List.mapM_cons, Run.bind_of_ok (addOne_of_ok hpath), Run.bind_of_error herror]
    · have hpath := h.head.pathFor_eq_error ha hword
      refine .inr ⟨overflows_of_first hword, item.parent.getD playlist,
        Path.lastUnder t.paths (item.parent.getD playlist), t, ?_⟩
      rw [List.mapM_cons, Run.bind_of_error (addOne_of_error hpath)]

/-- **Appended items stand at the positions behind the last one, and only for want of positions are
they refused.** If a batch is taken, the items of each parent get the positions that follow its last
child, in the order of the items; their paths are new and differ from one another, and nothing else
changes. It is taken exactly when nothing else is wrong with it and no parent would need a position
beyond the machine words. -/
theorem add_appends (hvalid : t.validate = .ok ()) (playlist : String) (items : List NewItem)
    {explicit : Option UInt64} (hplace : items.length = 1 → explicit = none) :
    (∀ created grown, add playlist items explicit t = .ok created grown →
      t.Appends playlist items created grown) ∧
    ((∃ created grown, add playlist items explicit t = .ok created grown) ↔
      t.InOrder playlist items ∧ ¬ t.Overflows playlist items) ∧
    (t.InOrder playlist items → t.Overflows playlist items → ∃ failure left,
      add playlist items explicit t = .error failure left ∧
        failure.category = .invalidOperation ∧
        ∃ parent last, failure = .noPositionLeft last parent) := by
  have ha := validate_eq_ok_iff.1 hvalid
  have hadd : add playlist items explicit t = items.mapM (addOne playlist none) t := by
    rw [add, ite_eq_right_iff.2 hplace]
  rw [hadd]
  refine ⟨fun created grown hok => (grown_of_mapM hok).appends ha, ⟨fun hex => ?_, fun h => ?_⟩,
    fun horder hover => ?_⟩
  · obtain ⟨created, grown, hok⟩ := hex
    have horder := (grown_of_mapM hok).inOrder
    refine ⟨horder, fun hover => ?_⟩
    -- What is taken does not overflow, or the same batch would be refused.
    obtain ⟨hroom, -⟩ | ⟨-, parent, last, left, herror⟩ := horder.outcome ha
    · exact hroom hover
    · rw [hok] at herror
      cases herror
  · obtain ⟨-, created, grown, hgrown⟩ | ⟨hover, -⟩ := h.1.outcome ha
    · exact ⟨created, grown, hgrown.mapM_eq_ok⟩
    · exact absurd hover h.2
  · obtain ⟨hroom, -⟩ | ⟨-, parent, last, left, herror⟩ := horder.outcome ha
    · exact absurd hover hroom
    · exact ⟨_, left, herror, rfl, parent, last, rfl⟩

/-- Rows that leave two positions under the playlist. -/
def brimfulRows : Rows :=
  .ofList ["P.track.A.18446744073709551613", "P.playlist.Q.4", "Q.track.A.7"]

/-- A batch that takes both of them, one for a playlist that it adds to as well. -/
def brimmingBatch : List NewItem :=
  [⟨.playlist, "R", none⟩, ⟨.track, "B", some "Q"⟩, ⟨.track, "A", some "R"⟩,
    ⟨.track, "C", some "Q"⟩, ⟨.track, "D", none⟩]

/-- A batch that would take one more. -/
def spillingBatch : List NewItem :=
  [⟨.track, "B", none⟩, ⟨.track, "C", none⟩, ⟨.track, "D", none⟩]

theorem add_appends_brimful :
    brimfulRows.tree.validate = .ok () ∧
      (∃ created grown, add "P" brimmingBatch none brimfulRows.tree = .ok created grown ∧
        brimfulRows.tree.Appends "P" brimmingBatch created grown) ∧
      InOrder brimfulRows.tree "P" spillingBatch ∧ Overflows brimfulRows.tree "P" spillingBatch ∧
      ∃ failure left, add "P" spillingBatch none brimfulRows.tree = .error failure left ∧
        failure.category = .invalidOperation ∧
        ∃ parent last, failure = .noPositionLeft last parent := by
  have hvalid : brimfulRows.tree.validate = .ok () := validate_eq_ok_iff.2 brimfulRows.agreeing_tree
  have hok : ∃ created grown, add "P" brimmingBatch none brimfulRows.tree = .ok created grown :=
    Run.exists_of_isOk_outcome (by decide +kernel)
  have horder : InOrder brimfulRows.tree "P" spillingBatch := by
    intro earlier item later hitems
    have hlabel : ∀ text : String, text ≠ "" → text.toList.all isLabelCharacter = true →
        ∃ label : Label, label.text = text := fun text hne hall =>
      ⟨⟨text, hne, List.all_eq_true.1 hall⟩, rfl⟩
    have hadmits : ∀ text : String, (∃ label : Label, label.text = text) →
        Admits brimfulRows.tree "P" earlier ⟨.track, text, none⟩ := fun text hex =>
      ⟨hlabel "P" (by decide) (by decide), hex, .inl rfl, fun hkind => nomatch hkind⟩
    have hitem : item ∈ spillingBatch := hitems ▸ List.mem_append_right _ List.mem_cons_self
    simp only [spillingBatch, List.mem_cons, List.not_mem_nil, or_false] at hitem
    rcases hitem with rfl | rfl | rfl
    · exact hadmits "B" (hlabel "B" (by decide) (by decide))
    · exact hadmits "C" (hlabel "C" (by decide) (by decide))
    · exact hadmits "D" (hlabel "D" (by decide) (by decide))
  have hover : Overflows brimfulRows.tree "P" spillingBatch :=
    ⟨"P", by decide +kernel, by decide +kernel⟩
  refine ⟨hvalid, ?_, horder, hover, ?_⟩
  · obtain ⟨created, grown, hadd⟩ := hok
    exact ⟨created, grown, hadd, (add_appends hvalid "P" _ fun _ => rfl).1 _ _ hadd⟩
  · exact (add_appends hvalid "P" _ fun _ => rfl).2.2 horder hover

end Tree

end Playlists
