import Playlists.Proofs.Tree.Playback

/-!
# `Proofs/Tree/Normalisation.lean` — numbering afresh brings a tree into its normal form

A tree is `Dense` if the children of every label stand at the positions one to n. Numbering afresh
makes a tree dense (`dense_rebalance`), and a dense tree is what it leaves alone
(`rebalance_eq_self_iff`), so doing it twice is doing it once. Of what the tree means nothing
changes on the way: every label keeps its children in their order (`outline_rebalance`), and then
everything is heard as before, since what is heard depends on nothing else.
-/

set_option autoImplicit false

namespace Playlists

namespace Tree

variable {t : Tree}

/-- The children of every label stand at the positions one to n. -/
def Dense (t : Tree) : Prop :=
  ∀ label : Label, (t.siblings label.text).map (·.path.position)
    = List.range' 1 (t.siblings label.text).length

theorem dense_rebalance (t : Tree) : t.rebalance.1.Dense := by
  intro label
  rw [siblings_rebalance t label.dot_not_mem, List.map_map, List.length_map, length_numbered]
  exact map_position_numbered _

/-- Numbering entries that are numbered already changes none of them. -/
theorem numbered_eq_self {l : List Entry} (ha : ∀ e ∈ l, e = Entry.ofPath e.path)
    (hd : l.map (·.path.position) = List.range' 1 l.length) :
    numbered l = l.map fun e => (e, e) := by
  have hzip : l.zipIdx 1 = l.map fun e => (e, e.path.position) := by
    rw [List.zipIdx_eq_zip_range', ← hd, List.map_prod_left_eq_zip]
  rw [numbered, hzip, List.map_map]
  refine List.map_congr_left fun e he => ?_
  show (e, e.withPosition e.path.position) = (e, e)
  rw [ha e he]
  rfl

/-- A dense tree is left alone. -/
theorem rebalance_of_dense (ha : t.Agreeing) (hd : t.Dense) : t.rebalance = (t, .empty) := by
  -- Every group is numbered as it is, so each entry is taken to itself.
  have hstay : t.renumbering = (t.roots.toList.flatMap t.siblings).map fun e => (e, e) := by
    rw [renumbering_eq, List.map_flatMap]
    refine List.flatMap_congr fun root hroot => ?_
    obtain ⟨p, -, rfl⟩ := mem_roots.1 hroot
    refine numbered_eq_self (fun e he => ?_) (hd p.root)
    exact ha e ((mem_siblings p.root.dot_not_mem).1 he).1
  have htree : (.ofList (t.renumbering.map Prod.snd) : Tree) = t := by
    refine KeyedList.ext_mem fun e => ?_
    rw [KeyedList.mem_ofList t.nodup_key_renumbering, hstay, List.map_map]
    show e ∈ (t.roots.toList.flatMap t.siblings).map id ↔ _
    rw [List.map_id, t.flatMap_siblings_perm.mem_iff]
  rw [rebalance, htree, hstay, movesAmong_stay]

/-- Numbering afresh leaves exactly the dense trees alone. -/
theorem rebalance_eq_self_iff (ha : t.Agreeing) : t.rebalance = (t, .empty) ↔ t.Dense := by
  constructor
  · intro hself
    have hdense := t.dense_rebalance
    rw [hself] at hdense
    exact hdense
  · exact rebalance_of_dense ha

/-- `t'` has the siblings of `t` at the positions one to n, and means the same. -/
structure Normalises (t t' : Tree) : Prop where
  valid : t'.validate = .ok ()
  positions : ∀ label : Label, (t'.siblings label.text).map (·.path.position)
    = List.range' 1 (t.childrenOf label.text).length
  order : ∀ label : Label, (t'.siblings label.text).map (fun e => (e.path.kind, e.path.item))
    = (t.siblings label.text).map fun e => (e.path.kind, e.path.item)
  heard : ∀ label : Label, (t'.playbackOrder label.text).map Node.unplaced
    = (t.playbackOrder label.text).map Node.unplaced

/-- **Numbering afresh normalises a tree and changes nothing that it means.** The result is valid,
every label has its children at the positions one to n, in the order they were in, and everything is
heard as before. A second time nothing moves. -/
theorem rebalance_normalises (hvalid : t.validate = .ok ()) :
    t.Normalises t.rebalance.1 ∧ t.rebalance.1.rebalance = (t.rebalance.1, .empty) := by
  have ha := validate_eq_ok_iff.1 hvalid
  have ha' := t.rearranges_rebalance.agreeing ha
  refine ⟨⟨validate_eq_ok_iff.2 ha', fun label => ?_, t.outline_rebalance, ?_⟩, ?_⟩
  -- The positions count the siblings afterwards, and those are as many as the children before.
  · rw [t.dense_rebalance label, siblings_rebalance t label.dot_not_mem, List.length_map,
      length_numbered, (t.siblings_perm label.text).length_eq]
  · exact Alike.playbackOrder t.outline_rebalance ha' ha
  -- A second time there is nothing to number: the tree is dense by now.
  · exact rebalance_of_dense ha' t.dense_rebalance

/-- Rows with positions that repeat, gaps, a playlist that contains itself in the end, and a row that
nothing leads to. -/
def tiedRows : Rows :=
  .ofList ["P.track.B.7", "P.track.A.7", "P.playlist.Q.7", "P.track.A.10", "P.track.A.2",
    "Q.track.X.0", "Q.playlist.P.9", "O.track.Z.5"]

theorem rebalance_normalises_tied :
    tiedRows.tree.validate = .ok () ∧ tiedRows.tree.Normalises tiedRows.tree.rebalance.1 ∧
      tiedRows.tree.rebalance.1.rebalance = (tiedRows.tree.rebalance.1, .empty) :=
  have hvalid := validate_eq_ok_iff.2 tiedRows.agreeing_tree
  ⟨hvalid, rebalance_normalises hvalid⟩

end Tree

end Playlists
