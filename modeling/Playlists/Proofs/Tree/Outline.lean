import Mathlib.Data.List.Forall2
import Playlists.Proofs.Tree.Growth
import Playlists.Proofs.Tree.Reordering

/-!
# `Proofs/Tree/Outline.lean` — a playlist without its positions

What a playlist means is which entries its labels have and in which order. `Tree.outline` is that
and no more: the sequence of children under a label, with their positions forgotten. Trees of one
outline are `Alike`. They differ in nothing but positions (`Alike.rearranges`), and everything that
is done to trees acts on outlines:

* an appended entry comes to the end of one outline (`outline_put`);
* filtering filters, and numbering afresh changes nothing (`outline_filter`, `outline_rebalance`);
* an order that was asked for becomes the outline of its label (`outline_reordered`).

Numbered afresh, trees that are alike are equal (`Alike.rebalance_eq`).
-/

set_option autoImplicit false

namespace Playlists

namespace Tree

variable {t t' : Tree} {label : Label}

/-- The kinds and items of the children of a playlist in the order they are played. -/
def outline (t : Tree) (label : Label) : List (Kind × Label) :=
  (t.siblings label.text).map fun e => (e.path.kind, e.path.item)

/-- Two trees mean the same: all labels have the same children in the same order. -/
def Alike (t t' : Tree) : Prop :=
  ∀ label, t.outline label = t'.outline label

theorem Alike.refl (t : Tree) : t.Alike t :=
  fun _ => rfl

theorem Alike.symm (h : t.Alike t') : t'.Alike t :=
  fun label => (h label).symm

/-- Entries under one label that agree in kind and item are the same up to their positions. -/
theorem sameEntry_of_outline {e f : Entry} (he : e ∈ t.siblings label.text)
    (hf : f ∈ t'.siblings label.text)
    (h : (e.path.kind, e.path.item) = (f.path.kind, f.path.item)) :
    e.path.sameEntry f.path = true := by
  have hroot : ∀ {t : Tree} {e : Entry}, e ∈ t.siblings label.text → e.path.root = label :=
    fun he => Label.ext_text ((mem_siblings label.dot_not_mem).1 he).2
  rw [Prod.mk.injEq] at h
  exact Path.sameEntry_iff.2 ⟨(hroot he).trans (hroot hf).symm, h.1, h.2⟩

/-- The children of alike trees correspond to each other. -/
theorem Alike.forall₂ (h : t.Alike t') (label : Label) :
    List.Forall₂ (fun e f => e.path.sameEntry f.path = true)
      (t.siblings label.text) (t'.siblings label.text) := by
  have hmap := h label
  rw [outline, outline, ← List.forall₂_eq_eq_eq, List.forall₂_map_left_iff,
    List.forall₂_map_right_iff] at hmap
  refine List.forall₂_iff_zip.2 ⟨hmap.length_eq, fun {e f} hmem => ?_⟩
  exact sameEntry_of_outline (List.of_mem_zip hmem).1 (List.of_mem_zip hmem).2
    (List.forall₂_zip hmap hmem)

theorem mem_roots_iff_outline {l : String} :
    l ∈ t.roots.toList ↔ ∃ label : Label, label.text = l ∧ t.outline label ≠ [] := by
  rw [mem_roots]
  constructor
  · intro hex
    obtain ⟨p, hp, rfl⟩ := hex
    obtain ⟨e, he, rfl⟩ := List.mem_map.1 hp
    refine ⟨e.path.root, rfl, List.ne_nil_of_mem (a := (e.path.kind, e.path.item)) ?_⟩
    exact List.mem_map.2 ⟨e, (mem_siblings e.path.root.dot_not_mem).2 ⟨he, rfl⟩, rfl⟩
  · intro hex
    obtain ⟨label, rfl, hne⟩ := hex
    obtain ⟨c, hc⟩ := List.exists_mem_of_ne_nil _ hne
    obtain ⟨e, he, -⟩ := List.mem_map.1 hc
    obtain ⟨he, hroot⟩ := (mem_siblings label.dot_not_mem).1 he
    exact ⟨e.path, mem_paths_of_mem he, hroot⟩

theorem Alike.roots_eq (h : t.Alike t') : t.roots = t'.roots := by
  refine KeyedList.ext_mem fun l => ?_
  rw [mem_roots_iff_outline, mem_roots_iff_outline]
  exact exists_congr fun label => by rw [h label]

/-- The children of every label, paired with those of the other tree. -/
def pairing (t t' : Tree) : List (Entry × Entry) :=
  t.roots.toList.flatMap fun root => (t.siblings root).zip (t'.siblings root)

/-- **Trees that are alike differ in nothing but positions.** -/
theorem Alike.rearranges (h : t.Alike t') (ha : t'.Agreeing) :
    t.Rearranges t' (pairing t t') := by
  have hlabel : ∀ root ∈ t.roots.toList, List.Forall₂ (fun e f => e.path.sameEntry f.path = true)
      (t.siblings root) (t'.siblings root) := by
    intro root hroot
    obtain ⟨label, rfl, -⟩ := mem_roots_iff_outline.1 hroot
    exact h.forall₂ label
  have hmem : ∀ {s : Entry × Entry}, s ∈ pairing t t' →
      s.1.path.sameEntry s.2.path = true ∧ s.2 ∈ t'.toList := by
    intro s hs
    obtain ⟨root, hroot, hzip⟩ := List.mem_flatMap.1 hs
    refine ⟨List.forall₂_zip (hlabel root hroot) hzip, ?_⟩
    exact ((mem_siblings (dot_not_mem_of_mem_roots hroot)).1 (List.of_mem_zip hzip).2).1
  -- Zipped label by label, the pairs run through both trees and miss no entry of either.
  refine ⟨?_, ?_, fun s hs => (hmem hs).1, fun s hs _ => ha s.2 (hmem hs).2⟩
  · rw [pairing, List.map_flatMap]
    refine (List.Perm.of_eq ?_).trans t.flatMap_siblings_perm
    refine List.flatMap_congr fun root hroot => ?_
    exact List.map_fst_zip (hlabel root hroot).length_eq.le
  · rw [pairing, List.map_flatMap]
    refine (List.Perm.of_eq ?_).trans t'.flatMap_siblings_perm
    rw [← h.roots_eq]
    refine List.flatMap_congr fun root hroot => ?_
    exact List.map_snd_zip (hlabel root hroot).length_eq.ge

/-! ## What happens to outlines -/

theorem siblings_put_self {p : Path} (ha : t.Agreeing)
    (hn : t.nextPosition p.root.text = .ok p.position) :
    siblings (t.put (Entry.ofPath p)) p.root.text
      = t.siblings p.root.text ++ [Entry.ofPath p] := by
  have hdot := p.root.dot_not_mem
  have hnew : Entry.ofPath p ∉ t.toList := fun hmem =>
    not_mem_of_nextPosition ha hn (mem_paths_of_mem hmem)
  -- The new entry is at a higher position than its siblings, so appending it keeps the order.
  refine (eq_siblings hdot (fun e => ?_) ?_ ?_).symm
  · rw [List.mem_append, mem_siblings hdot, List.mem_singleton, KeyedList.mem_put]
    constructor
    · intro he
      rcases he with ⟨he, hroot⟩ | rfl
      · refine ⟨.inr ⟨he, fun hkey => hnew ?_⟩, hroot⟩
        have hpath : e.path = p := Path.text_injective hkey
        rw [ha e he, hpath] at he
        exact he
      · exact ⟨.inl rfl, rfl⟩
    · intro he
      obtain ⟨rfl | ⟨he, -⟩, hroot⟩ := he
      · exact .inr rfl
      · exact .inl ⟨he, hroot⟩
  · refine List.nodup_append'.2 ⟨t.siblings_nodup hdot, List.nodup_singleton _, ?_⟩
    intro e he hlast
    exact hnew (List.mem_singleton.1 hlast ▸ ((mem_siblings hdot).1 he).1)
  · refine List.pairwise_append.2 ⟨t.siblings_pairwise _, List.pairwise_singleton _ _, ?_⟩
    intro e he f hf
    obtain ⟨he, hroot⟩ := (mem_siblings hdot).1 he
    have hlt := position_lt_of_nextPosition ha hn (mem_paths_of_mem he) hroot
    rw [List.mem_singleton.1 hf, notAfter_iff, ha e he]
    exact .inl hlt

theorem siblings_put_of_ne {p : Path} {l : String} (hdot : '.' ∉ l.toList)
    (hne : p.root.text ≠ l) : siblings (t.put (Entry.ofPath p)) l = t.siblings l := by
  refine (eq_siblings hdot (fun e => ?_) (t.siblings_nodup hdot) (t.siblings_pairwise l)).symm
  rw [mem_siblings hdot, KeyedList.mem_put]
  constructor
  · intro he
    refine ⟨.inr ⟨he.1, fun hkey => hne ?_⟩, he.2⟩
    have hpath : e.path = p := Path.text_injective hkey
    exact hpath ▸ he.2
  · intro he
    obtain ⟨rfl | ⟨he, -⟩, hroot⟩ := he
    · exact absurd hroot hne
    · exact ⟨he, hroot⟩

/-- An appended entry comes after all others under its label. -/
theorem outline_put {p : Path} (ha : t.Agreeing)
    (hn : t.nextPosition p.root.text = .ok p.position) :
    outline (t.put (Entry.ofPath p)) label
      = t.outline label ++ if p.root = label then [(p.kind, p.item)] else [] := by
  rw [outline, outline]
  split
  · next hroot =>
    rw [← hroot, siblings_put_self ha hn, List.map_append]
    rfl
  · next hroot =>
    rw [siblings_put_of_ne label.dot_not_mem fun htext => hroot (Label.ext_text htext),
      List.append_nil]

theorem siblings_filter (f : Entry → Bool) {l : String} (hdot : '.' ∉ l.toList) :
    siblings (t.filter f) l = (t.siblings l).filter f := by
  refine (eq_siblings hdot (fun e => ?_) ((t.siblings_nodup hdot).filter _)
    ((t.siblings_pairwise l).filter _)).symm
  rw [List.mem_filter, mem_siblings hdot, KeyedList.mem_filter, and_right_comm]

theorem outline_filter {f : Entry → Bool} {g : Kind × Label → Bool}
    (h : ∀ e ∈ t.siblings label.text, f e = g (e.path.kind, e.path.item)) :
    outline (t.filter f) label = (t.outline label).filter g := by
  rw [outline, outline, siblings_filter f label.dot_not_mem, List.filter_map]
  exact congrArg _ (List.filter_congr h)

theorem map_snd_numbered {α : Type} {f : Entry → α}
    (h : ∀ (e : Entry) (n : Nat), f (e.withPosition n) = f e) (l : List Entry) :
    ((numbered l).map Prod.snd).map f = l.map f := by
  have hstay : (numbered l).map (f ∘ Prod.snd) = (numbered l).map (f ∘ Prod.fst) := by
    refine List.map_congr_left fun s hs => ?_
    obtain ⟨-, n, -, -, heq⟩ := of_mem_numbered hs
    rw [Function.comp_apply, heq]
    exact h s.1 n
  rw [List.map_map, hstay, ← List.map_map, map_fst_numbered]

theorem outline_rebalance (t : Tree) (label : Label) :
    t.rebalance.1.outline label = t.outline label := by
  rw [outline, siblings_rebalance t label.dot_not_mem, map_snd_numbered fun _ _ => rfl]
  rfl

theorem outline_reordered {parent : Label} {entries : List Entry}
    (hperm : entries.Perm (t.siblings parent.text)) :
    (t.reordered entries).outline label
      = if label = parent then entries.map fun e => (e.path.kind, e.path.item)
        else t.outline label := by
  rw [outline]
  split
  · next hlabel =>
    rw [hlabel, siblings_reordered_self parent.dot_not_mem hperm, map_snd_numbered fun _ _ => rfl]
  · next hlabel =>
    rw [siblings_reordered_of_ne parent.dot_not_mem hperm label.dot_not_mem
      fun htext => hlabel (Label.ext_text htext)]
    rfl

/-! ## Numbered afresh -/

theorem paths_numbered (label : Label) {l : List Entry} (h : ∀ e ∈ l, e.path.root = label) :
    (numbered l).map (fun s => s.2.path)
      = ((l.map fun e => (e.path.kind, e.path.item)).zipIdx 1).map
          fun c => ⟨label, c.1.1, c.1.2, c.2⟩ := by
  rw [numbered, List.map_map, List.zipIdx_map, List.map_map]
  refine List.map_congr_left fun c hc => ?_
  have hroot := h c.1 (List.fst_mem_of_mem_zipIdx hc)
  show c.1.path.withPosition c.2 = _
  rw [Path.withPosition, ← hroot]
  rfl

/-- **Numbered afresh, trees that are alike are equal.** -/
theorem Alike.rebalance_eq (h : t.Alike t') (ha : t.Agreeing) (ha' : t'.Agreeing) :
    t.rebalance.1 = t'.rebalance.1 := by
  -- After numbering, outline and position make up the whole path.
  have hpaths : ∀ (t : Tree) (label : Label),
      (t.rebalance.1.siblings label.text).map Entry.path
        = ((t.outline label).zipIdx 1).map fun c => ⟨label, c.1.1, c.1.2, c.2⟩ := by
    intro t label
    rw [siblings_rebalance t label.dot_not_mem, List.map_map]
    exact paths_numbered label fun e he =>
      Label.ext_text ((mem_siblings label.dot_not_mem).1 he).2
  have hmem : ∀ {t t' : Tree}, t.Alike t' → ∀ p ∈ t.rebalance.1.paths, p ∈ t'.rebalance.1.paths := by
    intro t t' h p hp
    obtain ⟨e, he, rfl⟩ := List.mem_map.1 hp
    have hsib : e ∈ t.rebalance.1.siblings e.path.root.text :=
      (mem_siblings e.path.root.dot_not_mem).2 ⟨he, rfl⟩
    have hin := List.mem_map_of_mem (f := Entry.path) hsib
    rw [hpaths, h, ← hpaths] at hin
    obtain ⟨f, hf, heq⟩ := List.mem_map.1 hin
    rw [← heq]
    exact mem_paths_of_mem ((mem_siblings e.path.root.dot_not_mem).1 hf).1
  refine KeyedList.ext_mem fun e => ?_
  rw [(t.rearranges_rebalance.agreeing ha).mem_iff, (t'.rearranges_rebalance.agreeing ha').mem_iff]
  exact exists_congr fun p => and_congr_left fun _ => ⟨hmem h p, hmem h.symm p⟩

end Tree

end Playlists
