import Playlists.Proofs.Tree.Outline
import Playlists.Tree.Playback

/-!
# `Proofs/Tree/Playback.lean` — what is heard depends on outlines alone

A playlist is heard by walking from outline to outline. Trees that are alike are walked in step: the
entries that are still to be heard correspond to each other, and the same labels may still be opened
(`Alike.play`). So they are heard alike, and only the positions that the nodes mention may differ
(`Alike.playbackOrder`).
-/

set_option autoImplicit false

namespace Playlists

/-- What a node says of its entry apart from the position. -/
def Node.unplaced (n : Node) : String × String × Kind :=
  (n.id, n.parentId, n.kind)

namespace Tree

variable {t t' : Tree} {label : Label}

/-- Entries of two trees that differ in nothing but the position. -/
def Corresponds (e f : Entry) : Prop :=
  e = Entry.ofPath e.path ∧ f = Entry.ofPath f.path ∧ e.path.sameEntry f.path = true

theorem Corresponds.unplaced {e f : Entry} (h : Corresponds e f) :
    e.node.unplaced = f.node.unplaced := by
  obtain ⟨he, hf, hsame⟩ := h
  obtain ⟨hroot, hkind, hitem⟩ := Path.sameEntry_iff.1 hsame
  rw [he, hf]
  simp only [Entry.ofPath, Node.ofPath, Node.unplaced, hroot, hkind, hitem]

theorem Alike.corresponds (h : t.Alike t') (ha : t.Agreeing) (ha' : t'.Agreeing) (label : Label) :
    List.Forall₂ Corresponds (t.siblings label.text) (t'.siblings label.text) := by
  refine List.forall₂_iff_zip.2 ⟨(h.forall₂ label).length_eq, fun {e f} hmem => ?_⟩
  have hdot := label.dot_not_mem
  obtain ⟨he, hf⟩ := List.of_mem_zip hmem
  exact ⟨ha e ((mem_siblings hdot).1 he).1, ha' f ((mem_siblings hdot).1 hf).1,
    List.forall₂_zip (h.forall₂ label) hmem⟩

theorem mem_without {labels : List String} {l m : String} :
    l ∈ without labels m ↔ l ∈ labels ∧ l ≠ m := by
  rw [without, List.mem_filter, bne_iff_ne]

/-- Corresponding entries of alike trees are heard alike. -/
theorem Alike.play (h : t.Alike t') (ha : t.Agreeing) (ha' : t'.Agreeing)
    {unopened unopened' : List String} {pending pending' : List Entry}
    (hopen : ∀ l, l ∈ unopened ↔ l ∈ unopened')
    (hpending : List.Forall₂ Corresponds pending pending') :
    (t.play unopened pending).map Node.unplaced
      = (t'.play unopened' pending').map Node.unplaced := by
  -- By recursion of the walk. Kinds and items agree in step, so both sides take the same branch.
  fun_induction Tree.play t unopened pending generalizing unopened' pending' with
  | case1 unopened =>
    cases hpending
    rw [Tree.play]
  | case2 unopened e rest hkind ih =>
    obtain ⟨f, rest', hef, hrest, rfl⟩ := List.forall₂_cons_left_iff.1 hpending
    have hunplaced := hef.unplaced
    have hfkind : f.node.kind = .track := (congrArg (·.2.2) hunplaced).symm.trans hkind
    rw [Tree.play, hfkind, List.map_cons, List.map_cons, ih hopen hrest, hunplaced]
  | case3 unopened e rest hkind hmem _ ih =>
    obtain ⟨f, rest', hef, hrest, rfl⟩ := List.forall₂_cons_left_iff.1 hpending
    have hunplaced := hef.unplaced
    have hfkind : f.node.kind = .playlist := (congrArg (·.2.2) hunplaced).symm.trans hkind
    have hid : e.node.id = f.node.id := congrArg (·.1) hunplaced
    have hmem' : f.node.id ∈ unopened' := hid ▸ (hopen _).1 hmem
    have hlabel : e.node.id = e.path.item.text := congrArg (·.node.id) hef.1
    rw [Tree.play, hfkind]
    dsimp only
    rw [dif_pos hmem', ← hid]
    refine ih (fun l => ?_) ?_
    · rw [mem_without, mem_without, hopen]
    · rw [hlabel]
      exact List.rel_append (h.corresponds ha ha' e.path.item) hrest
  | case4 unopened e rest hkind hmem ih =>
    obtain ⟨f, rest', hef, hrest, rfl⟩ := List.forall₂_cons_left_iff.1 hpending
    have hunplaced := hef.unplaced
    have hfkind : f.node.kind = .playlist := (congrArg (·.2.2) hunplaced).symm.trans hkind
    have hid : e.node.id = f.node.id := congrArg (·.1) hunplaced
    have hmem' : f.node.id ∉ unopened' := fun hin => hmem (hid ▸ (hopen _).2 (hid ▸ hin))
    rw [Tree.play, hfkind]
    dsimp only
    rw [dif_neg hmem']
    exact ih hopen hrest

theorem mem_nestedLabels (ha : t.Agreeing) {l : String} :
    l ∈ t.nestedLabels ↔ ∃ p ∈ t.paths, p.item.text = l := by
  rw [nestedLabels, List.mem_map]
  constructor
  · intro hex
    obtain ⟨e, he, rfl⟩ := hex
    exact ⟨e.path, mem_paths_of_mem he, (congrArg (·.node.id) (ha e he)).symm⟩
  · intro hex
    obtain ⟨p, hp, rfl⟩ := hex
    exact ⟨Entry.ofPath p, ha.mem_iff.2 ⟨p, hp, rfl⟩, rfl⟩

/-- **Trees that are alike are heard alike.** -/
theorem Alike.playbackOrder (h : t.Alike t') (ha : t.Agreeing) (ha' : t'.Agreeing)
    (label : Label) :
    (t.playbackOrder label.text).map Node.unplaced
      = (t'.playbackOrder label.text).map Node.unplaced := by
  refine h.play ha ha' (fun l => ?_) (h.corresponds ha ha' label)
  rw [mem_without, mem_without, mem_nestedLabels ha, mem_nestedLabels ha']
  refine and_congr_left fun _ => (h.rearranges ha').exists_path_iff fun p q hpq => ?_
  rw [(Path.sameEntry_iff.1 hpq).2.2]

end Tree

end Playlists
