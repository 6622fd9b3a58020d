import Playlists.Proofs.Conformance.Spots
import Playlists.Proofs.Service.Ordering
import Playlists.Proofs.Tree.Allocation

/-!
# `Proofs/Conformance/Outcomes.lean` — what operations come to at a venue

What an operation does to the rows of some spots is decided on the spots. Each section names the
question that has to be answered of them, in a form that can be computed, and shows what the
operation comes to then:

* spots that follow on what is there are added as they are (`Addable`, `Venue.enlarge_eq`);
* an item goes with what it empties (`Leaves`, `Venue.reduce_eq`);
* rows that can be brought to other places are brought there (`Relocates`, `Venue.rekey_eq`);
* what is looked up is found among the spots (`Venue.lastPosition_eq`, `Venue.pointsAt_eq`,
  `Venue.rowsUnder_eq`, `Venue.playbackOrder_eq`).
-/

set_option autoImplicit false

namespace Playlists.Conformance

namespace Spot

/-! ## Questions about spots -/

/-- The last position under a label. -/
def last (spots : List Spot) (m : Mention) : Option Nat :=
  ((spots.filter (·.root = m)).map fun s => s.position.toNat).max?

/-- Nothing but the position can be wrong with a spot that is to be added: what it stands under is
there, and if it is a nested playlist, it is empty and does not contain itself. -/
def Fits (s : Spot) (spots : List Spot) : Prop :=
  (s.root = .self ∨ ∃ r ∈ spots, r.PointsAt s.root) ∧
    (s.kind = .playlist → s.item ≠ .self ∧ s.item ≠ s.root ∧ ∀ r ∈ spots, r.root ≠ s.item)

instance (s : Spot) (spots : List Spot) : Decidable (s.Fits spots) :=
  inferInstanceAs (Decidable (_ ∧ (_ → _)))

/-- A playlist that would be nested in what it holds itself. -/
def Closes (s : Spot) (spots : List Spot) : Prop :=
  s.kind = .playlist ∧ s.root ≠ .self ∧ ∃ r ∈ spots, r.root = s.item ∧ r.PointsAt s.root

instance (s : Spot) (spots : List Spot) : Decidable (s.Closes spots) :=
  inferInstanceAs (Decidable (_ ∧ _ ∧ ∃ r ∈ spots, r.root = s.item ∧ r.PointsAt s.root))

/-- Spots that are appended one after another come to stand where they say. -/
def Follow : List Spot → List Spot → Prop
  | _, [] => True
  | spots, s :: rest =>
    s.Fits spots ∧ s.position.toNat = (last spots s.root).getD 0 + 1 ∧ Follow (spots ++ [s]) rest

instance decidableFollow : ∀ spots new : List Spot, Decidable (Follow spots new)
  | _, [] => isTrue trivial
  | spots, s :: rest =>
    have := decidableFollow (spots ++ [s]) rest
    inferInstanceAs (Decidable (_ ∧ _ ∧ _))

/-- Spots can be added in one batch. -/
def Addable (spots new : List Spot) : Prop :=
  new ≠ [] ∧ Follow spots new

instance (spots new : List Spot) : Decidable (Addable spots new) :=
  inferInstanceAs (Decidable (_ ∧ _))

/-- The spot goes when `item` goes and the playlists in `gone` are emptied. -/
def Goes (s : Spot) (item : Mention) (gone : List Mention) : Prop :=
  s.item = item ∨ s.root ∈ gone

instance (s : Spot) (item : Mention) (gone : List Mention) : Decidable (s.Goes item gone) :=
  inferInstanceAs (Decidable (_ ∨ _))

/-- Nothing that stays points at a nested playlist any more, and something that goes did. -/
def Frees (spots : List Spot) (item : Mention) (gone : List Mention) (m : Mention) : Prop :=
  m ≠ .self ∧ (∃ s ∈ spots, s.Goes item gone ∧ s.PointsAt m) ∧
    ∀ s ∈ spots, s.PointsAt m → s.Goes item gone

instance (spots : List Spot) (item : Mention) (gone : List Mention) (m : Mention) :
    Decidable (Frees spots item gone m) :=
  inferInstanceAs (Decidable (_ ∧ (∃ s ∈ spots, s.Goes item gone ∧ s.PointsAt m) ∧
    ∀ s ∈ spots, s.PointsAt m → s.Goes item gone))

/-- Each playlist is freed by the emptying of those listed after it. -/
def FreesInTurn (spots : List Spot) (item : Mention) : List Mention → Prop
  | [] => True
  | m :: earlier => Frees spots item earlier m ∧ FreesInTurn spots item earlier

instance decidableFreesInTurn (spots : List Spot) (item : Mention) :
    ∀ gone : List Mention, Decidable (FreesInTurn spots item gone)
  | [] => isTrue trivial
  | _ :: earlier =>
    have := decidableFreesInTurn spots item earlier
    inferInstanceAs (Decidable (_ ∧ _))

/-- A removal of `item` empties the playlists in `gone`, and with them no other. -/
def Empties (spots : List Spot) (item : Mention) (gone : List Mention) : Prop :=
  FreesInTurn spots item gone ∧ ∀ s ∈ spots, Frees spots item gone s.item → s.item ∈ gone

/-- A removal of `item` from spots that are listed once leaves the spots `kept`. -/
def Leaves (spots : List Spot) (item : Mention) (gone : List Mention) (kept : List Spot) : Prop :=
  spots.Nodup ∧ Empties spots item gone ∧ spots.filter (fun s => ¬ s.Goes item gone) = kept

instance (spots : List Spot) (item : Mention) (gone : List Mention) (kept : List Spot) :
    Decidable (Leaves spots item gone kept) :=
  inferInstanceAs (Decidable (_ ∧ (_ ∧ ∀ s ∈ spots, _ → _) ∧ _))

/-- Spots that are listed once and are not there yet. -/
def Fresh (spots new : List Spot) : Prop :=
  new.Nodup ∧ ∀ s ∈ new, s ∉ spots

instance (spots new : List Spot) : Decidable (Fresh spots new) :=
  inferInstanceAs (Decidable (_ ∧ ∀ s ∈ new, s ∉ spots))

/-- Spots that are there can be brought to where nothing stays. -/
def Relocates (spots : List Spot) (moves : List (Spot × Spot)) : Prop :=
  (moves.map Prod.fst).Nodup ∧ (moves.map Prod.snd).Nodup ∧
    ∀ m ∈ moves, m.1 ∈ spots ∧ (m.2 ∈ spots → ∃ n ∈ moves, n.1 = m.2)

instance (spots : List Spot) (moves : List (Spot × Spot)) : Decidable (Relocates spots moves) :=
  inferInstanceAs (Decidable (_ ∧ _ ∧ ∀ m ∈ moves, _ ∧ (_ → ∃ n ∈ moves, n.1 = m.2)))

end Spot

namespace Venue

open Relation Spot

variable (v : Venue) {spots new kept : List Spot} {s : Spot} {m item : Mention} {d : Dialect}
  {config : Config}

/-! ## Looking spots up -/

theorem maxChildPosition_eq (spots : List Spot) (m : Mention) :
    (v.rows spots).tree.maxChildPosition (v.name m).text = last spots m := by
  have hmem : ∀ n, n ∈ ((v.rows spots).tree.childrenOf (v.name m).text).map (·.node.position) ↔
      n ∈ (spots.filter (·.root = m)).map fun s => s.position.toNat := by
    intro n
    rw [Tree.childrenOf_eq_filter _ (v.name m).dot_not_mem, Rows.toList_tree, List.filter_map,
      List.map_map, List.mem_map, List.mem_map]
    simp only [List.mem_filter, decide_eq_true_iff, mem_paths_rows]
    constructor
    · rintro ⟨-, ⟨⟨s, hs, rfl⟩, hroot⟩, rfl⟩
      exact ⟨s, ⟨hs, v.root_path_iff.1 (beq_iff_eq.1 hroot)⟩, rfl⟩
    · rintro ⟨s, ⟨hs, hroot⟩, rfl⟩
      exact ⟨v.path s, ⟨⟨s, hs, rfl⟩, beq_iff_eq.2 (v.root_path_iff.2 hroot)⟩, rfl⟩
  refine Option.ext fun n => ?_
  rw [Tree.maxChildPosition, last, List.max?_eq_some_iff, List.max?_eq_some_iff, hmem]
  simp only [hmem]

theorem nests_iff {a b : Mention} :
    Nests (v.rows spots).tree.paths (v.name a).text (v.name b).text ↔
      ∃ s ∈ spots, s.root = a ∧ s.PointsAt b := by
  rw [Nests, Rows.paths_tree, exists_mem_rows]
  exact exists_congr fun s => and_congr_right fun _ =>
    and_congr v.root_path_iff v.pointsAt_path_iff

theorem lastPosition_eq {position : Option Nat} (h : last spots m = position) :
    Edit.lastPosition d (v.name m).text (v.rows spots) = .ok position (v.rows spots) := by
  have hread := v.readable_rows spots
  rw [hread.lastPosition_eq, Operation.lastPosition_eq hread (v.name m).dot_not_mem,
    maxChildPosition_eq, h]
  rfl

theorem pointsAt_eq {kind : Kind} {found : Bool}
    (h : decide (∃ s ∈ spots, s.kind = kind ∧ s.item = m) = found) :
    Edit.pointsAt d kind (v.name m).text (v.rows spots) = .ok found (v.rows spots) := by
  have hfound : (v.rows spots).toList.any (d.pointsAt kind (v.name m).text) = found := by
    rw [← h, Bool.eq_iff_iff, decide_eq_true_iff, any_pointsAt_iff d (v.readable_rows spots),
      exists_mem_rows]
    exact exists_congr fun s => and_congr_right fun _ => and_congr_right fun _ => v.text_name_iff
  show EStateM.Result.ok _ _ = _
  rw [hfound]

/-- The rows under a label, if there is one at the most. -/
theorem rowsUnder_eq {under : List Spot} (h : spots.filter (·.root = m) = under)
    (hone : under.length ≤ 1) :
    Edit.rowsUnder d (Path.childPrefix (v.name m).text) (v.rows spots)
      = .ok (under.map (Spot.text v.label.text)) (v.rows spots) := by
  have hfilter : (v.rows spots).filter (Text.hasPrefix (Path.childPrefix (v.name m).text))
      = v.rows under := by
    rw [← h]
    refine v.eq_rows_filter (fun row => KeyedList.mem_filter) fun s _ => ?_
    rw [Path.hasPrefix_childPrefix_iff (v.name m).dot_not_mem, root_path_iff, decide_eq_true_iff]
  have hsorted : (under.map v.path).Pairwise fun p q => p.text < q.text := by
    cases under with
    | nil => exact .nil
    | cons s rest =>
      have hrest : rest.length = 0 := Nat.le_zero.1 (Nat.le_of_succ_le_succ hone)
      obtain rfl : rest = [] := List.length_eq_zero_iff.1 hrest
      exact List.pairwise_singleton _ _
  have hlist : (v.rows under).toList = under.map (Spot.text v.label.text) := by
    rw [rows, Rows.toList_spelling hsorted, map_text_path]
  rw [Run.rowsUnder_eq, (v.readable_rows spots).filter_isUnder, ← hlist, ← hfilter]
  rfl

/-! ## Adding -/

/-- The item that is asked for to add a spot. -/
def newItem (s : Spot) : NewItem :=
  ⟨s.kind, (v.name s.item).text,
    match s.root with
    | .self => none
    | .named name _ => some name.text⟩

theorem parent_newItem (s : Spot) :
    (v.newItem s).parent.getD v.label.text = (v.name s.root).text := by
  obtain ⟨root, kind, item, position⟩ := s
  cases root <;> rfl

theorem admits (h : s.Fits spots) :
    (v.rows spots).tree.Admits v.label.text [] (v.newItem s) where
  parent_label := ⟨v.name s.root, (v.parent_newItem s).symm⟩
  item_label := ⟨v.name s.item, rfl⟩
  parent_known := by
    rw [Tree.nestsWith_nil, parent_newItem]
    refine h.1.imp (v.text_name_eq_iff.2) ?_
    rintro ⟨r, hr, hpoint⟩
    exact ⟨(v.name r.root).text, v.nests_iff.2 ⟨r, hr, rfl, hpoint⟩⟩
  acyclic hkind := by
    obtain ⟨hself, hroot, hempty⟩ := h.2 hkind
    refine ⟨fun heq => hself (v.text_name_eq_iff.1 heq), fun hway => ?_⟩
    rw [Tree.nestsWith_nil, parent_newItem] at hway
    -- A way from the item to its parent would begin with an entry under the item.
    rcases hway.cases_head with heq | ⟨b, ⟨⟨p, hp, hunder, -⟩, -⟩, -⟩
    · exact hroot (v.text_name_iff.1 heq)
    · obtain ⟨r, hr, rfl⟩ := v.paths_tree.1 hp
      exact hempty r hr (v.root_path_iff.1 hunder)

/-- The next path under a label, if there is a position left for it. -/
theorem nextPath_eq (hposition : s.position.toNat = (last spots s.root).getD 0 + 1) :
    ((v.rows spots).tree.nextPosition (v.name s.root).text >>=
      Path.create (v.name s.root).text s.kind (v.name s.item).text) = .ok (v.path s) := by
  have hnext : (v.rows spots).tree.nextPosition (v.name s.root).text = .ok s.position.toNat := by
    have hword := s.position.toNat_lt_size
    rw [Tree.nextPosition, maxChildPosition_eq]
    cases hlast : last spots s.root with
    | none =>
      rw [hlast] at hposition
      rw [hposition]
      rfl
    | some n =>
      rw [hlast] at hposition
      rw [hposition] at hword ⊢
      exact if_pos hword
  rw [hnext]
  exact Path.create_eq_ok_iff.2 ⟨rfl, rfl, rfl, rfl⟩

theorem pathFor_eq_ok (h : s.Fits spots)
    (hposition : s.position.toNat = (last spots s.root).getD 0 + 1) :
    (v.rows spots).tree.pathFor v.label.text none (v.newItem s) = .ok (v.path s) := by
  rw [(v.admits h).pathFor_eq, parent_newItem]
  exact v.nextPath_eq hposition

/-- Behind the largest word there is no position left. -/
theorem pathFor_eq_error (h : s.Fits spots) (hfull : last spots s.root = some (UInt64.size - 1)) :
    (v.rows spots).tree.pathFor v.label.text none (v.newItem s)
      = .error (.noPositionLeft (UInt64.size - 1) (v.name s.root).text) := by
  rw [(v.admits h).pathFor_eq, parent_newItem, Tree.nextPosition, maxChildPosition_eq, hfull]
  rfl

/-- No playlist is nested in what it holds itself. -/
theorem pathFor_eq_cyclic (h : s.Closes spots) :
    (v.rows spots).tree.pathFor v.label.text none (v.newItem s)
      = .error (.cyclicNesting (v.name s.item).text (v.name s.root).text v.label.text) := by
  obtain ⟨hkind, hroot, hholds⟩ := h
  have hstep := v.nests_iff.2 hholds
  have hknown : (v.rows spots).tree.nests (v.name s.root).text = true := by
    obtain ⟨p, hp, -, hpoint⟩ := hstep
    exact Tree.nests_eq_true_iff.2 ⟨p, hp, hpoint⟩
  have hcycle : (v.rows spots).tree.checkAcyclic v.label.text (v.name s.root).text s.kind
      (v.name s.item).text = .error (.cyclicNesting (v.name s.item).text (v.name s.root).text
        v.label.text) := by
    refine Tree.checkAcyclic_eq_error_iff.2 ⟨rfl, hkind, Tree.contains_ancestors_iff.2 (.inr ?_)⟩
    exact .single ⟨hstep, fun heq => hroot (v.text_name_eq_iff.1 heq)⟩
  rw [Tree.pathFor, parent_newItem]
  dsimp only
  rw [if_pos (.inr hknown)]
  show ((v.rows spots).tree.checkAcyclic v.label.text (v.name s.root).text s.kind
    (v.name s.item).text >>= _) = _
  rw [hcycle]
  rfl

theorem grown (h : Follow spots new) :
    Tree.Grown v.label.text none (v.rows spots).tree (new.map v.newItem) (new.map v.path)
      (v.rows (spots ++ new)).tree := by
  induction new generalizing spots with
  | nil =>
    rw [List.append_nil]
    exact .nil _
  | cons s rest ih =>
    obtain ⟨hfits, hposition, hrest⟩ := h
    refine .cons (v.pathFor_eq_ok hfits hposition) ?_
    rw [put_path, List.append_cons spots s rest]
    exact ih hrest

/-- No limit is set by default. -/
theorem allows_any (n : Nat) : Config.Allows {} n :=
  fun _ hlimit => nomatch hlimit

/-- Spots that follow are added as they are, and numbered afresh with the others if that is
wanted. -/
theorem enlarge_eq (h : Addable spots new) (rebalance : Bool) :
    Operation.enlarge {} v.label (new.map v.newItem) none rebalance (v.rows spots).tree
      = .ok ((new.map v.path).map
            ((v.rows (spots ++ new)).tree.balanced rebalance).2.destination,
          ((v.rows (spots ++ new)).tree.balanced rebalance).1) := by
  obtain ⟨hnew, hfollow⟩ := h
  have hne : new.map v.newItem ≠ [] := mt List.map_eq_nil_iff.1 hnew
  refine Operation.enlarge_eq_ok_iff.2 ⟨hne, allows_any _, _, _, ?_, rfl, rfl⟩
  rw [ite_self]
  exact v.grown hfollow

theorem extend_eq (h : Addable spots [s]) :
    Operation.extend {} v.label (v.newItem s).parent s.kind (v.name s.item).text
        (v.rows spots).tree
      = .ok (v.path s, (v.rows (spots ++ [s])).tree) := by
  obtain ⟨-, hfits, hposition, -⟩ := h
  exact Operation.extend_eq_ok_iff.2
    ⟨allows_any _, v.pathFor_eq_ok hfits hposition, v.put_path spots s⟩

/-- What is appended to the rows needs a position and nothing else. -/
theorem append_eq (hposition : s.position.toNat = (last spots s.root).getD 0 + 1) :
    Edit.append ⟨d, .never⟩ v.label.text (v.name s.root).text s.kind (v.name s.item).text
        (v.rows spots)
      = .ok (v.path s) (v.rows (spots ++ [s])) := by
  rw [Operation.append_eq d (v.readable_rows spots) (v.name s.root).dot_not_mem,
    v.nextPath_eq hposition]
  show EStateM.Result.ok _ (Tree.toRows _) = _
  rw [put_path, (v.readable_rows _).tree_toRows]

/-- An item is refused if no path is found for it. -/
theorem extend_eq_error {failure : Failure}
    (hpath : (v.rows spots).tree.pathFor v.label.text none (v.newItem s) = .error failure) :
    Operation.extend {} v.label (v.newItem s).parent s.kind (v.name s.item).text
        (v.rows spots).tree
      = .error failure := by
  rw [Operation.extend, Config.checkRoom_eq_ok_iff.2 (allows_any _)]
  exact congrArg (Except.map _) hpath

/-! ## Removing -/

theorem goesWith_iff {gone : List Mention} :
    (v.path s).GoesWith (v.name item).text {l | ∃ m ∈ gone, (v.name m).text = l} ↔
      s.Goes item gone := by
  refine or_congr v.text_name_iff ?_
  constructor
  · rintro ⟨m, hm, heq⟩
    exact v.text_name_iff.1 heq ▸ hm
  · exact fun hroot => ⟨s.root, hroot, rfl⟩

theorem releases_iff {gone : List Mention} :
    Releases v.label.text (v.name item).text (v.rows spots).paths
        {l | ∃ m ∈ gone, (v.name m).text = l} (v.name m).text ↔
      Frees spots item gone m := by
  have hself : (v.name m).text ≠ v.label.text ↔ m ≠ .self := not_congr v.text_name_eq_iff
  rw [Releases, Frees, hself, exists_mem_rows, exists_mem_rows]
  simp only [goesWith_iff, pointsAt_path_iff, not_exists, not_and, not_imp_not]

/-- What is emptied is what is released. -/
theorem released_eq {gone : List Mention} (h : Empties spots item gone) :
    released v.label.text (v.name item).text (v.rows spots).paths
      = {l | ∃ m ∈ gone, (v.name m).text = l} := by
  obtain ⟨hturn, hclosed⟩ := h
  refine Set.Subset.antisymm (released_subset fun label hlabel => ?_) ?_
  · -- A label that is released is the item of some spot.
    obtain ⟨p, hp, -, hpoint⟩ := hlabel.2.1
    obtain ⟨s, hs, rfl⟩ := v.mem_paths_rows.1 hp
    obtain rfl : (v.name s.item).text = label := hpoint.2
    exact ⟨s.item, hclosed s hs (v.releases_iff.1 hlabel), rfl⟩
  · clear hclosed
    induction gone with
    | nil =>
      rintro l ⟨m, hm, -⟩
      exact absurd hm List.not_mem_nil
    | cons m earlier ih =>
      have hearlier := ih hturn.2
      rintro l ⟨m', hm', rfl⟩
      rcases List.mem_cons.1 hm' with rfl | hm'
      · exact mem_released_iff.2 (Releases.mono hearlier (v.releases_iff.2 hturn.1))
      · exact hearlier ⟨m', hm', rfl⟩

/-- What is left are the spots that do not go. -/
theorem remaining_eq {gone : List Mention} (h : Leaves spots item gone kept) :
    (v.rows spots).remaining v.label.text (v.name item).text = v.rows kept := by
  obtain ⟨-, hempties, hkept⟩ := h
  refine ((v.readable_rows spots).remaining _ _).ext (v.readable_rows kept) fun p => ?_
  rw [Rows.mem_paths_remaining, v.released_eq hempties, mem_paths_rows, mem_paths_rows, ← hkept]
  simp only [List.mem_filter, decide_eq_true_iff]
  constructor
  · rintro ⟨⟨s, hs, rfl⟩, hstays⟩
    exact ⟨s, ⟨hs, fun hgoes => hstays (v.goesWith_iff.2 hgoes)⟩, rfl⟩
  · rintro ⟨s, ⟨hs, hstays⟩, rfl⟩
    exact ⟨⟨s, hs, rfl⟩, fun hgoes => hstays (v.goesWith_iff.1 hgoes)⟩

theorem removeSubtree_eq {gone : List Mention} (h : Leaves spots item gone kept) :
    Edit.removeSubtree d v.label.text (v.name item).text (v.rows spots)
      = .ok (spots.length - kept.length) (v.rows kept) := by
  have hremaining := v.remaining_eq h
  obtain ⟨hnodup, -, rfl⟩ := h
  rw [(v.readable_rows spots).removeSubtree_eq, hremaining, v.size_rows hnodup,
    v.size_rows (hnodup.filter _)]

/-- What a removal comes to at a venue, numbered afresh or not. -/
theorem reduce_eq {gone : List Mention} (h : Leaves spots item gone kept)
    (hless : kept.length < spots.length) :
    Operation.reduce d config v.label (v.name item).text (v.rows spots)
      = .ok (spots.length - kept.length,
          ((v.rows kept).tree.balanced config.rebalanceOnRemove).1) := by
  rw [Operation.reduce, Label.read_text, v.removeSubtree_eq h, Tree.balanced_fst]
  exact if_neg (Nat.sub_ne_zero_of_lt hless)

/-! ## Writing rows -/

theorem insert_eq (h : Fresh spots new) :
    Edit.insert ⟨d, .never⟩ v.label.text (new.map v.path) (v.rows spots)
      = .ok () (v.rows (spots ++ new)) := by
  obtain ⟨hnodup, hfree⟩ := h
  rw [Edit.insert_eq_ok d (v.nodup_map_path hnodup), rows, Rows.putAll_spelling,
    ← List.map_append, ← rows]
  exact List.forall_mem_map.2 fun s hs hrow => hfree s hs (v.text_path_mem_rows.1 hrow)

/-- A row that is there is refused in the words of the medium. -/
theorem insert_eq_error (h : s ∈ spots) :
    Edit.insert ⟨d, .never⟩ v.label.text [v.path s] (v.rows spots)
      = .error (d.repeated (v.path s).text v.label.text) (v.rows spots) :=
  Run.bind_of_error (Edit.change_add_eq_error d (v.text_path_mem_rows.2 h))

/-- What is left when the rows of some spots are taken away. -/
theorem lacking_eq (spots gone : List Spot) :
    Edit.lacking (v.rows spots) (gone.map v.path) = v.rows (spots.filter (· ∉ gone)) := by
  refine v.eq_rows_filter (fun row => Edit.mem_lacking) fun s _ => ?_
  rw [List.forall_mem_map, decide_eq_true_iff]
  constructor
  · exact fun hkept hgone => hkept s hgone rfl
  · rintro hstays s' hs' heq
    exact hstays (v.path_injective (Path.text_injective heq) ▸ hs')

/-- A move between two spots. -/
def move (m : Spot × Spot) : Move :=
  ⟨v.path m.1, v.path m.2⟩

theorem rekey_eq {moves : List (Spot × Spot)} (h : Relocates spots moves) :
    Edit.rekey ⟨d, .never⟩ v.label.text (moves.map v.move) (v.rows spots)
      = .ok () (v.rows (spots.filter (· ∉ moves.map Prod.fst) ++ moves.map Prod.snd)) := by
  obtain ⟨hold, hnew, hmoves⟩ := h
  have holds : (moves.map v.move).map Move.old = (moves.map Prod.fst).map v.path := by
    rw [List.map_map, List.map_map]
    rfl
  have hnews : (moves.map v.move).map Move.new = (moves.map Prod.snd).map v.path := by
    rw [List.map_map, List.map_map]
    rfl
  rw [Edit.rekey_eq_ok d (holds ▸ v.nodup_map_path hold) (hnews ▸ v.nodup_map_path hnew), holds,
    hnews, v.lacking_eq, rows, Rows.putAll_spelling, ← List.map_append, ← rows]
  · exact List.forall_mem_map.2 fun m hm => v.text_path_mem_rows.2 (hmoves m hm).1
  · refine List.forall_mem_map.2 fun m hm hthere => ?_
    obtain ⟨n, hn, heq⟩ := (hmoves m hm).2 (v.text_path_mem_rows.1 hthere)
    exact ⟨v.move n, List.mem_map_of_mem hn, congrArg v.path heq⟩

/-! ## Ordering and playing -/

/-- The entries of the playlist take the order that the mentions lead to. -/
theorem rearrange_eq {items : List String} {ordered : List Spot} (h : InTurn spots)
    (hlength : spots.length < UInt64.size)
    (harrange : Operation.arrange v.label.text [] (spots.map v.path) items
      = .ok (ordered.map v.path)) :
    ∃ t : Tree, Operation.rearrange v.label items (v.rows spots).tree = .ok ((), t) ∧
      t.toRows = v.rows (numbered ordered) := by
  have ha := Rows.agreeing_tree (v.rows spots)
  have hsiblings : ((v.rows spots).tree.siblings v.label.text).map Entry.path
      = spots.map v.path := by
    rw [Tree.map_path_siblings ha, Rows.paths_tree, v.siblings_rows h]
  have hperm := (Operation.arrange_perm harrange).length_eq
  rw [List.nil_append, List.length_map, List.length_map] at hperm
  rw [← hsiblings] at harrange
  refine ⟨(v.rows spots).tree.reordered ((ordered.map v.path).map Entry.ofPath), ?_,
    KeyedList.ext_mem fun row => ?_⟩
  · rw [Operation.rearrange_eq ha, harrange]
    rfl
  · show _ ↔ row ∈ (Rows.spelling ((numbered ordered).map v.path)).toList
    rw [Tree.mem_toRows_reordered (Operation.perm_siblings_of_arrange ha harrange),
      ← v.map_path_numbered (hperm ▸ hlength), Rows.mem_spelling, List.mem_map]
    refine or_iff_left ?_
    rintro ⟨p, hp, hroot, -⟩
    obtain ⟨s, hs, rfl⟩ := v.paths_tree.1 hp
    exact hroot (congrArg v.name (h.1 s hs))

theorem rearrange_eq_error {items : List String} {failure : Failure} (h : InTurn spots)
    (harrange : Operation.arrange v.label.text [] (spots.map v.path) items = .error failure) :
    Operation.rearrange v.label items (v.rows spots).tree = .error failure := by
  have ha := Rows.agreeing_tree (v.rows spots)
  rw [Operation.rearrange_eq ha, Tree.map_path_siblings ha, Rows.paths_tree, v.siblings_rows h,
    harrange]
  rfl

theorem play_tracks (t : Tree) (unopened : List String) {paths : List Path}
    (h : ∀ p ∈ paths, p.kind = .track) :
    t.play unopened (paths.map Entry.ofPath) = paths.map Node.ofPath := by
  induction paths with
  | nil =>
    rw [List.map_nil, Tree.play]
    rfl
  | cons p rest ih =>
    rw [List.forall_mem_cons] at h
    have hkind : (Entry.ofPath p).node.kind = .track := h.1
    rw [List.map_cons, Tree.play, hkind, ih h.2]
    rfl

/-- Tracks of the playlist itself are played in their order. -/
theorem playbackOrder_eq (h : InTurn spots) (htracks : ∀ s ∈ spots, s.kind = .track) :
    (v.rows spots).tree.playbackOrder v.label.text = (spots.map v.path).map Node.ofPath := by
  rw [Tree.playbackOrder, Tree.siblings_eq_map (Rows.agreeing_tree _), Rows.paths_tree,
    v.siblings_rows h]
  exact play_tracks _ _ (List.forall_mem_map.2 htracks)

end Venue

end Playlists.Conformance
