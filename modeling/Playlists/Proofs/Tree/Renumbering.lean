import Mathlib.Data.List.Forall2
import Mathlib.Data.List.Nodup
import Playlists.Proofs.Tree.Rearrangement
import Playlists.Tree.Playback

/-!
# `Proofs/Tree/Renumbering.lean` — siblings at the positions one to n

`Tree.rebalance` numbers every group of siblings in the order they are played in. It takes the
entries of a tree one by one to the entries of the new tree (`rearranges_rebalance`), and the order
stays: the siblings afterwards are the siblings before, numbered (`siblings_rebalance`). So no
position exceeds the number of entries.
-/

set_option autoImplicit false

namespace Playlists

namespace Path

/-- Paths at the positions one to n. -/
def numbered (paths : List Path) : List Path :=
  (paths.zipIdx 1).map fun (p, position) => p.withPosition position

theorem length_numbered (paths : List Path) : (numbered paths).length = paths.length := by
  rw [numbered, List.length_map, List.length_zipIdx]

theorem map_position_numbered (paths : List Path) :
    (numbered paths).map position = List.range' 1 (numbered paths).length := by
  rw [length_numbered, numbered, List.map_map]
  exact List.zipIdx_map_snd 1 paths

end Path

namespace Tree

/-! ## Numbering one group -/

theorem map_fst_numbered (l : List Entry) : (numbered l).map Prod.fst = l := by
  rw [numbered, List.map_map]
  exact List.zipIdx_map_fst 1 l

theorem length_numbered (l : List Entry) : (numbered l).length = l.length := by
  rw [numbered, List.length_map, List.length_zipIdx]

theorem map_position_numbered (l : List Entry) :
    ((numbered l).map fun s => s.2.path.position) = List.range' 1 l.length := by
  rw [numbered, List.map_map]
  exact List.zipIdx_map_snd 1 l

theorem map_node_position_numbered (l : List Entry) :
    ((numbered l).map fun s => s.2.node.position) = List.range' 1 l.length := by
  rw [numbered, List.map_map]
  exact List.zipIdx_map_snd 1 l

theorem of_mem_numbered {l : List Entry} {s : Entry × Entry} (hs : s ∈ numbered l) :
    s.1 ∈ l ∧ ∃ n, 1 ≤ n ∧ n ≤ l.length ∧ s.2 = s.1.withPosition n := by
  obtain ⟨⟨e, n⟩, hmem, rfl⟩ := List.mem_map.1 hs
  have hlt := List.snd_lt_of_mem_zipIdx hmem
  exact ⟨List.fst_mem_of_mem_zipIdx hmem, n, List.le_snd_of_mem_zipIdx hmem, by omega, rfl⟩

theorem position_of_mem_numbered {l : List Entry} {s : Entry × Entry} (hs : s ∈ numbered l) :
    1 ≤ s.2.path.position ∧ s.2.path.position ≤ l.length := by
  obtain ⟨-, n, hpos, hle, heq⟩ := of_mem_numbered hs
  rw [heq]
  exact ⟨hpos, hle⟩

theorem nodup_position_numbered (l : List Entry) :
    ((numbered l).map fun s => s.2.path.position).Nodup := by
  rw [map_position_numbered]
  exact List.nodup_range'

theorem nodup_path_numbered (l : List Entry) : ((numbered l).map fun s => s.2.path).Nodup := by
  refine List.Nodup.of_map Path.position ?_
  rw [List.map_map]
  exact nodup_position_numbered l

theorem nodup_numbered (l : List Entry) : ((numbered l).map Prod.snd).Nodup := by
  refine List.Nodup.of_map Entry.path ?_
  rw [List.map_map]
  exact nodup_path_numbered l

theorem sameEntry_of_mem_numbered {l : List Entry} {s : Entry × Entry} (hs : s ∈ numbered l) :
    s.1.path.sameEntry s.2.path = true := by
  obtain ⟨-, n, -, -, heq⟩ := of_mem_numbered hs
  rw [heq]
  exact s.1.path.sameEntry_withPosition n

theorem agrees_of_mem_numbered {l : List Entry} {s : Entry × Entry} (hs : s ∈ numbered l)
    (h : s.1 = Entry.ofPath s.1.path) : s.2 = Entry.ofPath s.2.path := by
  obtain ⟨-, n, -, -, heq⟩ := of_mem_numbered hs
  rw [heq, h]
  rfl

/-- Numbered entries are in the order they are played in. -/
theorem pairwise_numbered (l : List Entry) :
    ((numbered l).map Prod.snd).Pairwise fun a b => a.notAfter b = true := by
  have hlt : ((numbered l).map fun s => s.2.node.position).Pairwise (· < ·) := by
    rw [map_node_position_numbered]
    exact List.pairwise_lt_range'
  rw [List.pairwise_map] at hlt ⊢
  exact hlt.imp fun h => notAfter_iff.2 (.inl h)

/-! ## Numbering every group -/

theorem mem_roots {t : Tree} {label : String} :
    label ∈ t.roots.toList ↔ ∃ p ∈ t.paths, p.root.text = label := by
  rw [roots, KeyedList.mem_texts_ofList, List.mem_map]

theorem dot_not_mem_of_mem_roots {t : Tree} {label : String} (h : label ∈ t.roots.toList) :
    '.' ∉ label.toList := by
  obtain ⟨p, -, rfl⟩ := mem_roots.1 h
  exact p.root.dot_not_mem

/-- Numbering afresh keeps the order in which siblings are played. -/
theorem renumbering_eq (t : Tree) :
    t.renumbering = t.roots.toList.flatMap fun root => numbered (t.siblings root) := by
  refine List.flatMap_congr fun root hroot => ?_
  rw [t.byPosition_group (dot_not_mem_of_mem_roots hroot)]

theorem mem_renumbering {t : Tree} {s : Entry × Entry} :
    s ∈ t.renumbering ↔ ∃ label ∈ t.roots.toList, s ∈ numbered (t.siblings label) := by
  rw [renumbering_eq]
  exact List.mem_flatMap

/-- An entry is numbered among its siblings. -/
theorem mem_numbered_of_mem_renumbering {t : Tree} {s : Entry × Entry} (hs : s ∈ t.renumbering) :
    s ∈ numbered (t.siblings s.1.path.root.text) := by
  obtain ⟨label, hlabel, hmem⟩ := mem_renumbering.1 hs
  obtain ⟨hsib, -⟩ := of_mem_numbered hmem
  obtain ⟨-, rfl⟩ := (mem_siblings (dot_not_mem_of_mem_roots hlabel)).1 hsib
  exact hmem

theorem flatMap_siblings_perm (t : Tree) : (t.roots.toList.flatMap t.siblings).Perm t.toList := by
  refine (List.perm_ext_iff_of_nodup ?_ t.nodup).2 fun e => ?_
  · refine List.nodup_flatMap.2 ⟨fun label hl => t.siblings_nodup (dot_not_mem_of_mem_roots hl), ?_⟩
    refine t.roots.nodup.imp_of_mem fun {a b} ha hb hne e hea heb => hne ?_
    have hroota := ((mem_siblings (dot_not_mem_of_mem_roots ha)).1 hea).2
    have hrootb := ((mem_siblings (dot_not_mem_of_mem_roots hb)).1 heb).2
    exact hroota.symm.trans hrootb
  · rw [List.mem_flatMap]
    constructor
    · intro hex
      obtain ⟨label, hlabel, he⟩ := hex
      exact ((mem_siblings (dot_not_mem_of_mem_roots hlabel)).1 he).1
    · intro he
      have hlabel := mem_roots.2 ⟨e.path, mem_paths_of_mem he, rfl⟩
      exact ⟨_, hlabel, (mem_siblings (dot_not_mem_of_mem_roots hlabel)).2 ⟨he, rfl⟩⟩

theorem map_fst_renumbering (t : Tree) :
    t.renumbering.map Prod.fst = t.roots.toList.flatMap t.siblings := by
  rw [renumbering_eq, List.map_flatMap]
  simp only [map_fst_numbered]

theorem nodup_path_renumbering (t : Tree) : (t.renumbering.map fun s => s.2.path).Nodup := by
  rw [renumbering_eq, List.map_flatMap]
  refine List.nodup_flatMap.2 ⟨fun label _ => nodup_path_numbered _, ?_⟩
  refine t.roots.nodup.imp_of_mem fun {a b} ha hb hne p hpa hpb => hne ?_
  -- A path is numbered under its own root only.
  have hroot : ∀ {label}, label ∈ t.roots.toList →
      p ∈ (numbered (t.siblings label)).map (fun s => s.2.path) → p.root.text = label := by
    intro label hlabel hp
    obtain ⟨s, hs, rfl⟩ := List.mem_map.1 hp
    rw [← (Path.sameEntry_iff.1 (sameEntry_of_mem_numbered hs)).1]
    exact ((mem_siblings (dot_not_mem_of_mem_roots hlabel)).1 (of_mem_numbered hs).1).2
  exact (hroot ha hpa).symm.trans (hroot hb hpb)

theorem nodup_key_renumbering (t : Tree) :
    ((t.renumbering.map Prod.snd).map Entry.key).Nodup := by
  rw [List.map_map]
  have hnodup := t.nodup_path_renumbering.map fun _ _ => Path.text_injective
  rwa [List.map_map] at hnodup

/-- Numbering all siblings afresh takes every entry to one entry. -/
theorem rearranges_rebalance (t : Tree) : t.Rearranges t.rebalance.1 t.renumbering where
  before := by
    rw [map_fst_renumbering]
    exact t.flatMap_siblings_perm
  after := (KeyedList.ofList_perm t.nodup_key_renumbering).symm
  same _ hs := sameEntry_of_mem_numbered (mem_numbered_of_mem_renumbering hs)
  agrees _ hs h := agrees_of_mem_numbered (mem_numbered_of_mem_renumbering hs) h

theorem mem_rebalance {t : Tree} {e : Entry} :
    e ∈ t.rebalance.1.toList ↔ ∃ s ∈ t.renumbering, s.2 = e := by
  rw [← t.rearranges_rebalance.after.mem_iff, List.mem_map]

/-- The siblings of a tree that was numbered afresh are the siblings before, numbered. -/
theorem siblings_rebalance (t : Tree) {label : String} (h : '.' ∉ label.toList) :
    t.rebalance.1.siblings label = (numbered (t.siblings label)).map Prod.snd := by
  -- Numbers ascend along the group, so the numbered group is in order already.
  refine (eq_siblings h (fun e => ?_) (nodup_numbered _) (pairwise_numbered _)).symm
  rw [mem_rebalance, List.mem_map]
  constructor
  · intro hex
    obtain ⟨s, hs, rfl⟩ := hex
    have hsib := (mem_siblings h).1 (of_mem_numbered hs).1
    have hroot := (Path.sameEntry_iff.1 (sameEntry_of_mem_numbered hs)).1
    refine ⟨⟨s, mem_renumbering.2 ⟨label, ?_, hs⟩, rfl⟩, hroot ▸ hsib.2⟩
    exact mem_roots.2 ⟨_, mem_paths_of_mem hsib.1, hsib.2⟩
  · intro hex
    obtain ⟨⟨s, hs, rfl⟩, hlabel⟩ := hex
    have hnum := mem_numbered_of_mem_renumbering hs
    rw [(Path.sameEntry_iff.1 (sameEntry_of_mem_numbered hnum)).1, hlabel] at hnum
    exact ⟨s, hnum, rfl⟩

theorem map_path_numbered (paths : List Path) :
    (numbered (paths.map Entry.ofPath)).map (fun s => s.2.path) = Path.numbered paths := by
  rw [numbered, List.map_map, List.zipIdx_map, List.map_map]
  rfl

theorem path_siblings_rebalance {t : Tree} (ha : t.Agreeing) (label : Label) :
    Path.siblings t.rebalance.1.paths label = Path.numbered (Path.siblings t.paths label) := by
  rw [← map_path_siblings (t.rearranges_rebalance.agreeing ha),
    siblings_rebalance t label.dot_not_mem, siblings_eq_map ha, List.map_map]
  exact map_path_numbered _

/-- The tree numbered afresh or left as it is, and the moves that this makes. -/
def balanced (rebalance : Bool) (t : Tree) : Tree × Moves :=
  if rebalance then t.rebalance else (t, .empty)

theorem balanced_fst (rebalance : Bool) (t : Tree) :
    (t.balanced rebalance).1 = if rebalance then t.rebalance.1 else t :=
  apply_ite Prod.fst _ _ _

theorem map_position_balanced {t : Tree} (ha : t.Agreeing) {rebalance : Bool}
    (h : rebalance = true) (label : Label) :
    (Path.siblings (t.balanced rebalance).1.paths label).map Path.position
      = List.range' 1 (Path.siblings (t.balanced rebalance).1.paths label).length := by
  rw [balanced, if_pos h, path_siblings_rebalance ha]
  exact Path.map_position_numbered _

/-- Numbered afresh or not, the entries are rearranged, and the moves say how. -/
theorem exists_rearranges_balanced (rebalance : Bool) (t : Tree) :
    ∃ steps, t.Rearranges (t.balanced rebalance).1 steps ∧
      (t.balanced rebalance).2 = movesAmong steps := by
  cases rebalance with
  | true => exact ⟨_, t.rearranges_rebalance, rfl⟩
  | false => exact ⟨_, .refl t, (movesAmong_stay _).symm⟩

theorem sameEntry_destination {t : Tree} (rebalance : Bool) {p : Path} (hp : p ∈ t.paths) :
    p.sameEntry ((t.balanced rebalance).2.destination p) = true := by
  obtain ⟨steps, hsteps, hmoves⟩ := t.exists_rearranges_balanced rebalance
  rw [hmoves]
  exact hsteps.destination_sameEntry hp

/-- Numbered afresh, siblings go where the moves say, and in order. -/
theorem map_destination_rebalance (t : Tree) (label : Label) :
    (t.siblings label.text).map (fun e => t.rebalance.2.destination e.path)
      = (t.rebalance.1.siblings label.text).map Entry.path := by
  rw [siblings_rebalance t label.dot_not_mem]
  nth_rewrite 1 [← map_fst_numbered (t.siblings label.text)]
  rw [List.map_map, List.map_map]
  refine List.map_congr_left fun s hs => t.rearranges_rebalance.destination_eq ?_
  obtain ⟨he, hroot⟩ := (mem_siblings label.dot_not_mem).1 (of_mem_numbered hs).1
  have hlabel : label.text ∈ t.roots.toList := mem_roots.2 ⟨_, mem_paths_of_mem he, hroot⟩
  exact mem_renumbering.2 ⟨label.text, hlabel, hs⟩

/-- Numbered afresh or not, siblings go where the moves say, and in order. -/
theorem map_destination_siblings {t : Tree} (ha : t.Agreeing) (rebalance : Bool) (label : Label) :
    (Path.siblings t.paths label).map (t.balanced rebalance).2.destination
      = Path.siblings (t.balanced rebalance).1.paths label := by
  cases rebalance with
  | false => exact List.map_id _
  | true =>
    show (Path.siblings t.paths label).map t.rebalance.2.destination
      = Path.siblings t.rebalance.1.paths label
    rw [← map_path_siblings ha, ← map_path_siblings (t.rearranges_rebalance.agreeing ha),
      List.map_map]
    exact t.map_destination_rebalance label

/-- Numbered afresh or not, siblings are the same but for their positions. -/
theorem forall₂_siblings_balanced {t : Tree} (ha : t.Agreeing) (rebalance : Bool) (label : Label) :
    List.Forall₂ (fun p q => p.sameEntry q = true) (Path.siblings t.paths label)
      (Path.siblings (t.balanced rebalance).1.paths label) := by
  obtain ⟨steps, hsteps, hmoves⟩ := t.exists_rearranges_balanced rebalance
  rw [← map_destination_siblings ha, hmoves]
  exact hsteps.forall₂_map_destination fun p hp => (Path.mem_siblings.1 hp).1

/-- Every path of a tree that was numbered afresh was numbered among the siblings under its root. -/
theorem exists_numbered_of_mem_rebalance {t : Tree} {p : Path} (h : p ∈ t.rebalance.1.paths) :
    ∃ s ∈ numbered (t.siblings p.root.text), s.2.path = p := by
  obtain ⟨e, he, rfl⟩ := List.mem_map.1 h
  obtain ⟨s, hs, rfl⟩ := mem_rebalance.1 he
  have hnum := mem_numbered_of_mem_renumbering hs
  rw [(Path.sameEntry_iff.1 (sameEntry_of_mem_numbered hnum)).1] at hnum
  exact ⟨s, hnum, rfl⟩

theorem position_of_mem_rebalance {t : Tree} {p : Path} (h : p ∈ t.rebalance.1.paths) :
    1 ≤ p.position ∧ p.position ≤ (t.siblings p.root.text).length := by
  obtain ⟨s, hs, rfl⟩ := exists_numbered_of_mem_rebalance h
  exact position_of_mem_numbered hs

/-! ## Numbers that can be stored -/

/-- The children of every label are fewer than there are positions. -/
def Numerable (t : Tree) : Prop :=
  ∀ label : Label, (t.siblings label.text).length < UInt64.size

theorem numerable_of_size_lt {t : Tree} (h : t.size < UInt64.size) : t.Numerable :=
  fun label => Nat.lt_of_le_of_lt (t.length_siblings_le label.text) h

/-- A label has as many children as before. -/
theorem Rearranges.length_siblings {t t' : Tree} {steps : List (Entry × Entry)}
    (h : t.Rearranges t' steps) (label : Label) :
    (t.siblings label.text).length = (t'.siblings label.text).length := by
  -- Siblings are counted as entries under the label, and a step stays under its label.
  have hcount : ∀ t : Tree, (t.siblings label.text).length
      = t.toList.countP fun e => e.path.root.text == label.text := fun t => by
    rw [(t.siblings_perm _).length_eq, t.childrenOf_eq_filter label.dot_not_mem,
      List.countP_eq_length_filter]
  rw [hcount, hcount, ← h.before.countP_eq, ← h.after.countP_eq, List.countP_map, List.countP_map]
  refine List.countP_congr fun s hs => ?_
  simp only [Function.comp_apply, (Path.sameEntry_iff.1 (h.same s hs)).1]

theorem Rearranges.numerable_iff {t t' : Tree} {steps : List (Entry × Entry)}
    (h : t.Rearranges t' steps) : t.Numerable ↔ t'.Numerable :=
  forall_congr' fun label => by rw [h.length_siblings label]

/-- New positions can be stored if they count children that can be numbered. -/
theorem Rearranges.storable {t t' : Tree} {steps : List (Entry × Entry)}
    (h : t.Rearranges t' steps) (hs : t.Storable) (hnum : t'.Numerable)
    (hposition : ∀ p ∈ t'.paths, p ∈ t.paths ∨ p.position ≤ (t.siblings p.root.text).length) :
    t'.Storable := by
  intro p hp
  rcases hposition p hp with hold | hle
  · exact hs p hold
  · exact Nat.lt_of_le_of_lt hle (h.numerable_iff.2 hnum p.root)

theorem numerable_balanced_iff {t : Tree} (rebalance : Bool) :
    (t.balanced rebalance).1.Numerable ↔ t.Numerable := by
  obtain ⟨steps, hsteps, -⟩ := t.exists_rearranges_balanced rebalance
  exact hsteps.numerable_iff.symm

theorem storable_balanced {t : Tree} (hs : t.Storable) (hnum : t.Numerable) (rebalance : Bool) :
    (t.balanced rebalance).1.Storable := by
  cases rebalance with
  | false => exact hs
  | true =>
    exact t.rearranges_rebalance.storable hs (t.rearranges_rebalance.numerable_iff.1 hnum)
      fun _ hp => .inr (position_of_mem_rebalance hp).2

end Tree

end Playlists
