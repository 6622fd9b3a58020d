import Playlists.Operation.Reorder
import Playlists.Proofs.Edit.Run
import Playlists.Proofs.Tree.Renumbering

/-!
# `Proofs/Tree/Reordering.lean` — one group of siblings in an order that was asked for

The order that a request leads to is a permutation of the siblings (`arrange_perm`): each mention of
an item claims one of its paths, and what nobody claims follows. On a permutation of the children
`Tree.reorder` succeeds, and it comes to numbering them in that order and leaving all other entries
alone (`reorder_eq_ok`).
-/

set_option autoImplicit false

namespace Playlists

namespace Operation

theorem claim?_perm {item : String} {paths others : List Path} {p : Path}
    (h : claim? item paths = some (p, others)) :
    p.item.text = item ∧ paths.Perm (p :: others) := by
  induction paths generalizing others with
  | nil => cases h
  | cons q rest ih =>
    rw [claim?] at h
    split at h
    · next hitem =>
      cases h
      exact ⟨hitem, .refl _⟩
    · obtain ⟨⟨p', others'⟩, hclaim, heq⟩ := Option.map_eq_some_iff.1 h
      cases heq
      obtain ⟨hitem, hperm⟩ := ih hclaim
      exact ⟨hitem, (hperm.cons q).trans (.swap p q others')⟩

/-- The arranged paths are those that were there. -/
theorem arrange_perm {playlist : String} {claimed unclaimed ordered : List Path}
    {items : List String} (h : arrange playlist claimed unclaimed items = .ok ordered) :
    ordered.Perm (claimed ++ unclaimed) := by
  induction items generalizing claimed unclaimed with
  | nil =>
    cases h
    exact .refl _
  | cons item rest ih =>
    rw [arrange] at h
    split at h
    · next p others hclaim =>
      refine (ih h).trans ?_
      rw [List.append_assoc]
      exact (claim?_perm hclaim).2.symm.append_left claimed
    · split at h <;> cases h

end Operation

namespace Tree

theorem map_path_ofPath (paths : List Path) : (paths.map Entry.ofPath).map Entry.path = paths := by
  rw [List.map_map]
  exact List.map_id _

/-- The entries whose paths are not listed. -/
def leaving (t : Tree) (taken : List Path) : Tree :=
  t.filter fun e => !taken.contains e.path

theorem mem_leaving {t : Tree} {taken : List Path} {e : Entry} :
    e ∈ (t.leaving taken).toList ↔ e ∈ t.toList ∧ e.path ∉ taken := by
  simp [leaving, KeyedList.mem_filter]

theorem leaving_nil (t : Tree) : t.leaving [] = t :=
  KeyedList.ext_mem fun e => by simp [mem_leaving]

theorem leaving_cons (t : Tree) (p : Path) (taken : List Path) :
    t.leaving (p :: taken) = leaving (t.erase p.text) taken := by
  refine KeyedList.ext_mem fun e => ?_
  rw [mem_leaving, mem_leaving, KeyedList.mem_erase, List.mem_cons, not_or, and_assoc]
  exact and_congr_right fun _ => and_congr_left fun _ =>
    ⟨fun hne htext => hne (Path.text_injective htext), fun hne heq => hne (heq ▸ rfl)⟩

theorem takeChild_eq_ok {t : Tree} {parent : String} {e : Entry} (he : e ∈ t.toList)
    (hroot : e.path.root.text = parent) :
    takeChild parent e.path t = .ok e (t.erase e.path.text) := by
  have hunder : e.path.isUnder parent = true := beq_iff_eq.2 hroot
  have hfind : t.find? e.path.text = some e := KeyedList.find?_eq_some_iff.2 ⟨he, rfl⟩
  rw [takeChild, if_pos hunder]
  dsimp only
  rw [Run.bind_of_ok (Run.get_eq t), hfind]
  rfl

/-- Taking out children that are there, each once, leaves the others. -/
theorem mapM_takeChild_eq_ok {t : Tree} {parent : String} {entries : List Entry}
    (h : ∀ e ∈ entries, e ∈ t.toList ∧ e.path.root.text = parent)
    (hnodup : (entries.map Entry.path).Nodup) :
    (entries.map Entry.path).mapM (takeChild parent) t
      = .ok entries (t.leaving (entries.map Entry.path)) := by
  induction entries generalizing t with
  | nil =>
    rw [List.map_nil, leaving_nil]
    rfl
  | cons e rest ih =>
    obtain ⟨he, hroot⟩ := h e List.mem_cons_self
    rw [List.map_cons, List.nodup_cons] at hnodup
    have hrest : ∀ f ∈ rest, f ∈ (t.erase e.path.text).toList ∧ f.path.root.text = parent := by
      intro f hf
      obtain ⟨hft, hfroot⟩ := h f (List.mem_cons_of_mem _ hf)
      refine ⟨KeyedList.mem_erase.2 ⟨hft, fun htext => hnodup.1 ?_⟩, hfroot⟩
      exact Path.text_injective htext ▸ List.mem_map_of_mem hf
    rw [List.map_cons, List.mapM_cons, Run.bind_of_ok (takeChild_eq_ok he hroot),
      Run.bind_of_ok (ih hrest hnodup.2), leaving_cons]
    rfl

theorem of_takeChild_eq_ok {t t' : Tree} {parent : String} {p : Path} {e : Entry}
    (h : takeChild parent p t = .ok e t') :
    e.path = p ∧ e ∈ t.toList ∧ e.path.root.text = parent ∧ t' = t.erase p.text := by
  rw [takeChild] at h
  by_cases hunder : p.isUnder parent = true
  · rw [if_pos hunder] at h
    dsimp only at h
    rw [Run.bind_of_ok (Run.get_eq t)] at h
    cases hfind : t.find? p.text with
    | none =>
      rw [hfind] at h
      cases h
    | some found =>
      rw [hfind] at h
      cases h
      obtain ⟨he, hkey⟩ := KeyedList.find?_eq_some_iff.1 hfind
      obtain rfl := Path.text_injective hkey
      exact ⟨rfl, he, beq_iff_eq.1 hunder, rfl⟩
  · rw [if_neg hunder] at h
    cases h

/-- Whatever can be taken out one by one was there, each once and under the parent. -/
theorem of_mapM_takeChild_eq_ok {t t' : Tree} {parent : String} {ordered : List Path}
    {entries : List Entry} (h : ordered.mapM (takeChild parent) t = .ok entries t') :
    entries.map Entry.path = ordered ∧ ordered.Nodup ∧
      (∀ e ∈ entries, e ∈ t.toList ∧ e.path.root.text = parent) ∧ t' = t.leaving ordered := by
  induction ordered generalizing t entries with
  | nil =>
    cases h
    exact ⟨rfl, List.nodup_nil, List.forall_mem_nil _, (leaving_nil _).symm⟩
  | cons p rest ih =>
    rw [List.mapM_cons] at h
    obtain ⟨e, erased, hfirst, h⟩ := Run.bind_eq_ok_iff.1 h
    obtain ⟨others, left, hrest, h⟩ := Run.bind_eq_ok_iff.1 h
    cases h
    obtain ⟨rfl, he, hroot, rfl⟩ := of_takeChild_eq_ok hfirst
    obtain ⟨rfl, hnodup, hothers, rfl⟩ := ih hrest
    have hstays : ∀ f ∈ others, f ∈ t.toList ∧ f.key ≠ e.path.text := fun f hf =>
      KeyedList.mem_erase.1 (hothers f hf).1
    refine ⟨rfl, List.nodup_cons.2 ⟨fun hmem => ?_, hnodup⟩, ?_, (t.leaving_cons _ _).symm⟩
    · obtain ⟨f, hf, hpath⟩ := List.mem_map.1 hmem
      exact (hstays f hf).2 (congrArg Path.text hpath)
    · exact List.forall_mem_cons.2
        ⟨⟨he, hroot⟩, fun f hf => ⟨(hstays f hf).1, (hothers f hf).2⟩⟩

/-- Children in an order that was asked for are numbered in it; all other entries stay. -/
def reordered (t : Tree) (entries : List Entry) : Tree :=
  (t.leaving (entries.map Entry.path)).putAll ((numbered entries).map Prod.snd)

/-- What becomes of each entry then. -/
def reordering (t : Tree) (entries : List Entry) : List (Entry × Entry) :=
  numbered entries ++ (t.leaving (entries.map Entry.path)).toList.map fun e => (e, e)

section Reordered

variable {t : Tree} {parent label : String} {entries : List Entry}

theorem mem_of_perm_siblings (h : '.' ∉ parent.toList) (hperm : entries.Perm (t.siblings parent))
    {e : Entry} : e ∈ entries ↔ e ∈ t.toList ∧ e.path.root.text = parent :=
  hperm.mem_iff.trans (mem_siblings h)

theorem nodup_path_of_perm_siblings (h : '.' ∉ parent.toList)
    (hperm : entries.Perm (t.siblings parent)) : (entries.map Entry.path).Nodup := by
  refine List.Nodup.map_on (fun e he f hf heq => ?_) (hperm.nodup_iff.2 (t.siblings_nodup h))
  have hmem := fun {e : Entry} => (mem_of_perm_siblings h hperm (e := e)).1
  exact t.eq_of_key_eq (hmem he).1 (hmem hf).1 (congrArg Path.text heq)

/-- The entries that are not taken out are those under other labels. -/
theorem mem_leaving_of_perm_siblings (h : '.' ∉ parent.toList)
    (hperm : entries.Perm (t.siblings parent)) {e : Entry} :
    e ∈ (t.leaving (entries.map Entry.path)).toList ↔ e ∈ t.toList ∧ e.path.root.text ≠ parent := by
  rw [mem_leaving]
  refine and_congr_right fun he => not_congr ?_
  rw [List.mem_map]
  constructor
  · intro hex
    obtain ⟨f, hf, heq⟩ := hex
    rw [← heq]
    exact ((mem_of_perm_siblings h hperm).1 hf).2
  · intro hroot
    exact ⟨e, (mem_of_perm_siblings h hperm).2 ⟨he, hroot⟩, rfl⟩

theorem root_of_mem_numbered (h : '.' ∉ parent.toList) (hperm : entries.Perm (t.siblings parent))
    {s : Entry × Entry} (hs : s ∈ numbered entries) : s.2.path.root.text = parent := by
  rw [← (Path.sameEntry_iff.1 (sameEntry_of_mem_numbered hs)).1]
  exact ((mem_of_perm_siblings h hperm).1 (of_mem_numbered hs).1).2

theorem mem_reordered (h : '.' ∉ parent.toList) (hperm : entries.Perm (t.siblings parent))
    {e : Entry} : e ∈ (t.reordered entries).toList ↔
      (∃ s ∈ numbered entries, s.2 = e) ∨ e ∈ t.toList ∧ e.path.root.text ≠ parent := by
  have hkeys : (((numbered entries).map Prod.snd).map Entry.key).Nodup := by
    rw [List.map_map]
    have hnodup := (nodup_path_numbered entries).map fun _ _ => Path.text_injective
    rwa [List.map_map] at hnodup
  rw [reordered, KeyedList.mem_putAll hkeys, List.mem_map, mem_leaving_of_perm_siblings h hperm]
  -- What stays stands under another label, so no numbered entry takes its path.
  refine or_congr_right (and_iff_left_of_imp fun hstays v hv hkey => hstays.2 ?_)
  obtain ⟨s, hs, rfl⟩ := List.mem_map.1 hv
  rw [Path.text_injective hkey]
  exact root_of_mem_numbered h hperm hs

theorem reorder_eq_ok (h : '.' ∉ parent.toList) (hperm : entries.Perm (t.siblings parent)) :
    reorder parent (entries.map Entry.path) t
      = .ok (movesAmong (numbered entries)) (t.reordered entries) := by
  have hlength : (entries.map Entry.path).length = (t.childrenOf parent).length := by
    rw [List.length_map, hperm.length_eq, (t.siblings_perm parent).length_eq]
  rw [reorder, Run.bind_of_ok (Run.get_eq t)]
  dsimp only
  rw [if_pos hlength, Run.bind_of_ok (mapM_takeChild_eq_ok
    (fun _ he => (mem_of_perm_siblings h hperm).1 he) (nodup_path_of_perm_siblings h hperm))]
  rfl

/-- Entries under a label, as many as it has, are all of its children. -/
theorem perm_siblings_of_length (hmem : ∀ e ∈ entries, e ∈ t.toList ∧ e.path.root.text = parent)
    (hnodup : (entries.map Entry.path).Nodup)
    (hlength : entries.length = (t.childrenOf parent).length) :
    entries.Perm (t.siblings parent) := by
  refine List.Perm.trans ?_ (t.siblings_perm parent).symm
  have hsub : entries ⊆ t.childrenOf parent := by
    intro e he
    obtain ⟨het, hroot⟩ := hmem e he
    exact (mem_childrenOf (hroot ▸ e.path.root.dot_not_mem)).2 ⟨het, hroot⟩
  exact (List.subperm_of_subset (List.Nodup.of_map _ hnodup) hsub).perm_of_length_le hlength.ge

/-- An order that is accepted lists all children. -/
theorem of_reorder_eq_ok {t' : Tree} {ordered : List Path} {moves : Moves}
    (h : reorder parent ordered t = .ok moves t') :
    ∃ entries, entries.map Entry.path = ordered ∧ entries.Perm (t.siblings parent) ∧
      (∀ e ∈ entries, e.path.root.text = parent) ∧ moves = movesAmong (numbered entries) ∧
      t' = t.reordered entries := by
  rw [reorder, Run.bind_of_ok (Run.get_eq t)] at h
  dsimp only at h
  by_cases hlength : ordered.length = (t.childrenOf parent).length
  · rw [if_pos hlength] at h
    obtain ⟨entries, left, htaken, h⟩ := Run.bind_eq_ok_iff.1 h
    cases h
    obtain ⟨rfl, hnodup, hmem, rfl⟩ := of_mapM_takeChild_eq_ok htaken
    rw [List.length_map] at hlength
    exact ⟨entries, rfl, perm_siblings_of_length hmem hnodup hlength, fun e he => (hmem e he).2,
      rfl, rfl⟩
  · rw [if_neg hlength] at h
    cases h

/-- Numbering one group in a new order takes every entry to one entry. -/
theorem rearranges_reordered (h : '.' ∉ parent.toList) (hperm : entries.Perm (t.siblings parent)) :
    t.Rearranges (t.reordered entries) (t.reordering entries) where
  before := by
    rw [reordering, List.map_append, map_fst_numbered, List.map_map]
    show (entries ++ (t.leaving (entries.map Entry.path)).toList.map id).Perm t.toList
    rw [List.map_id]
    refine (List.perm_ext_iff_of_nodup ?_ t.nodup).2 fun e => ?_
    · refine List.nodup_append'.2 ⟨hperm.nodup_iff.2 (t.siblings_nodup h), KeyedList.nodup _, ?_⟩
      intro e he hleft
      exact (mem_leaving.1 hleft).2 (List.mem_map_of_mem he)
    · rw [List.mem_append, mem_of_perm_siblings h hperm, mem_leaving_of_perm_siblings h hperm,
        ← and_or_left]
      exact and_iff_left (em _)
  after := by
    rw [reordering, List.map_append, List.map_map]
    show (((numbered entries).map Prod.snd)
      ++ (t.leaving (entries.map Entry.path)).toList.map id).Perm _
    rw [List.map_id]
    refine (List.perm_ext_iff_of_nodup ?_ (KeyedList.nodup _)).2 fun e => ?_
    · refine List.nodup_append'.2 ⟨nodup_numbered entries, KeyedList.nodup _, ?_⟩
      intro e he hleft
      obtain ⟨s, hs, rfl⟩ := List.mem_map.1 he
      exact ((mem_leaving_of_perm_siblings h hperm).1 hleft).2 (root_of_mem_numbered h hperm hs)
    · rw [mem_reordered h hperm, List.mem_append, List.mem_map,
        mem_leaving_of_perm_siblings h hperm]
  same s hs := by
    rcases List.mem_append.1 hs with hs | hs
    · exact sameEntry_of_mem_numbered hs
    · obtain ⟨e, -, rfl⟩ := List.mem_map.1 hs
      exact e.path.sameEntry_refl
  agrees s hs hagree := by
    rcases List.mem_append.1 hs with hs | hs
    · exact agrees_of_mem_numbered hs hagree
    · obtain ⟨e, -, rfl⟩ := List.mem_map.1 hs
      exact hagree

theorem movesAmong_reordering (t : Tree) (entries : List Entry) :
    movesAmong (t.reordering entries) = movesAmong (numbered entries) := by
  rw [movesAmong, movesAmong, reordering, List.filterMap_append, filterMap_stay, List.append_nil]

/-- The children are played in the order that was asked for. -/
theorem siblings_reordered_self (h : '.' ∉ parent.toList)
    (hperm : entries.Perm (t.siblings parent)) :
    (t.reordered entries).siblings parent = (numbered entries).map Prod.snd := by
  refine (eq_siblings h (fun e => ?_) (nodup_numbered _) (pairwise_numbered _)).symm
  rw [mem_reordered h hperm, List.mem_map]
  constructor
  · intro hex
    obtain ⟨s, hs, rfl⟩ := hex
    exact ⟨.inl ⟨s, hs, rfl⟩, root_of_mem_numbered h hperm hs⟩
  · intro he
    obtain ⟨hnum | ⟨-, hroot⟩, hparent⟩ := he
    · exact hnum
    · exact absurd hparent hroot

/-- Everything else is played as before. -/
theorem siblings_reordered_of_ne (h : '.' ∉ parent.toList)
    (hperm : entries.Perm (t.siblings parent)) (hlabel : '.' ∉ label.toList)
    (hne : label ≠ parent) : (t.reordered entries).siblings label = t.siblings label := by
  refine (eq_siblings hlabel (fun e => ?_) (t.siblings_nodup hlabel)
    (t.siblings_pairwise label)).symm
  rw [mem_reordered h hperm, mem_siblings hlabel]
  constructor
  · intro he
    exact ⟨.inr ⟨he.1, fun hroot => hne (he.2.symm.trans hroot)⟩, he.2⟩
  · intro he
    obtain ⟨⟨s, hs, rfl⟩ | ⟨he, -⟩, hroot⟩ := he
    · exact absurd (hroot.symm.trans (root_of_mem_numbered h hperm hs)) hne
    · exact ⟨he, hroot⟩

/-- The path of a reordered tree is that of a numbered child or stands under another label. -/
theorem mem_paths_reordered (h : '.' ∉ parent.toList) (hperm : entries.Perm (t.siblings parent))
    {p : Path} (hp : p ∈ (t.reordered entries).paths) :
    (p.root.text = parent ∧ ∃ s ∈ numbered entries, s.2.path = p) ∨
      p.root.text ≠ parent ∧ p ∈ t.paths := by
  obtain ⟨e, he, rfl⟩ := List.mem_map.1 hp
  rcases (mem_reordered h hperm).1 he with ⟨s, hs, rfl⟩ | ⟨he, hroot⟩
  · exact .inl ⟨root_of_mem_numbered h hperm hs, s, hs, rfl⟩
  · exact .inr ⟨hroot, mem_paths_of_mem he⟩

/-- What moves stands under the label that was reordered. -/
theorem root_of_origin_ne (h : '.' ∉ parent.toList) (hperm : entries.Perm (t.siblings parent))
    {p : Path} (hp : p ∈ (t.reordered entries).paths)
    (hmoves : (movesAmong (t.reordering entries)).origin p ≠ p) : p.root.text = parent := by
  obtain ⟨s, hs, rfl⟩ := (rearranges_reordered h hperm).exists_snd_path hp
  rw [(rearranges_reordered h hperm).origin_eq hs] at hmoves
  rcases List.mem_append.1 hs with hs | hs
  · exact root_of_mem_numbered h hperm hs
  · obtain ⟨e, -, rfl⟩ := List.mem_map.1 hs
    exact absurd rfl hmoves

theorem position_of_mem_reordered (h : '.' ∉ parent.toList)
    (hperm : entries.Perm (t.siblings parent)) {p : Path} (hp : p ∈ (t.reordered entries).paths) :
    p ∈ t.paths ∨ p.position ≤ (t.siblings p.root.text).length := by
  rcases mem_paths_reordered h hperm hp with ⟨hroot, s, hs, rfl⟩ | ⟨-, hold⟩
  · rw [hroot, ← hperm.length_eq]
    exact .inr (position_of_mem_numbered hs).2
  · exact .inl hold

end Reordered

end Tree

end Playlists
