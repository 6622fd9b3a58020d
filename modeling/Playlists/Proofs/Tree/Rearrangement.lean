import Mathlib.Data.List.Forall2
import Mathlib.Data.List.Nodup
import Playlists.Proofs.Nesting.Relation
import Playlists.Proofs.Tree.Siblings

/-!
# `Proofs/Tree/Rearrangement.lean` — trees with the same entries at other positions

Numbering siblings afresh takes every entry to one entry of the new tree and changes nothing of it
but the position. `Rearranges t t' steps` says so of two trees, with `steps` as the list of pairs;
since `steps` is a permutation of the entries on either side, it is a bijection, and all else
follows from that.

The moves that such a list gives rise to (`movesAmong`) are exact: at each entry they know where it
came from (`origin_eq`) and where it went (`destination_eq`), also where a path that one entry has
left is taken by another.
-/

set_option autoImplicit false

namespace Playlists

namespace Path

theorem sameEntry_iff {p q : Path} :
    p.sameEntry q = true ↔ p.root = q.root ∧ p.kind = q.kind ∧ p.item = q.item := by
  simp [sameEntry, and_assoc]

theorem sameEntry_refl (p : Path) : p.sameEntry p = true :=
  sameEntry_iff.2 ⟨rfl, rfl, rfl⟩

theorem sameEntry_withPosition (p : Path) (n : Nat) : p.sameEntry (p.withPosition n) = true :=
  sameEntry_iff.2 ⟨rfl, rfl, rfl⟩

end Path

namespace Tree

variable {t t' : Tree} {steps : List (Entry × Entry)}

theorem nodup_paths (t : Tree) : t.paths.Nodup :=
  List.Nodup.of_map Path.text (by rw [paths, List.map_map]; exact t.nodup_keys)

/-- `steps` takes the entries of `t` one by one to those of `t'` and changes at most their
positions. -/
structure Rearranges (t t' : Tree) (steps : List (Entry × Entry)) : Prop where
  before : (steps.map Prod.fst).Perm t.toList
  after : (steps.map Prod.snd).Perm t'.toList
  same : ∀ s ∈ steps, s.1.path.sameEntry s.2.path = true
  agrees : ∀ s ∈ steps, s.1 = Entry.ofPath s.1.path → s.2 = Entry.ofPath s.2.path

/-- Entries that stay where they are make no moves. -/
theorem filterMap_stay (l : List Entry) : ((l.map fun e => (e, e)).filterMap
    fun s : Entry × Entry =>
      if s.2.path = s.1.path then none else some (Move.mk s.1.path s.2.path)) = [] := by
  refine List.filterMap_eq_nil_iff.2 fun s hs => ?_
  obtain ⟨e, -, rfl⟩ := List.mem_map.1 hs
  exact if_pos rfl

theorem movesAmong_stay (l : List Entry) : movesAmong (l.map fun e => (e, e)) = .empty := by
  rw [movesAmong, filterMap_stay]
  rfl

namespace Rearranges

/-- Leaving everything as it is. -/
theorem refl (t : Tree) : t.Rearranges t (t.toList.map fun e => (e, e)) where
  before := by rw [List.map_map]; exact .of_eq (List.map_id _)
  after := by rw [List.map_map]; exact .of_eq (List.map_id _)
  same s hs := by
    obtain ⟨e, -, rfl⟩ := List.mem_map.1 hs
    exact e.path.sameEntry_refl
  agrees s hs h := by
    obtain ⟨e, -, rfl⟩ := List.mem_map.1 hs
    exact h

theorem fst_mem (h : t.Rearranges t' steps) {s : Entry × Entry} (hs : s ∈ steps) :
    s.1 ∈ t.toList :=
  h.before.mem_iff.1 (List.mem_map_of_mem hs)

theorem snd_mem (h : t.Rearranges t' steps) {s : Entry × Entry} (hs : s ∈ steps) :
    s.2 ∈ t'.toList :=
  h.after.mem_iff.1 (List.mem_map_of_mem hs)

/-- Every entry comes from somewhere. -/
theorem exists_snd (h : t.Rearranges t' steps) {e : Entry} (he : e ∈ t'.toList) :
    ∃ s ∈ steps, s.2 = e :=
  List.mem_map.1 (h.after.mem_iff.2 he)

/-- Every path comes from somewhere. -/
theorem exists_snd_path (h : t.Rearranges t' steps) {p : Path} (hp : p ∈ t'.paths) :
    ∃ s ∈ steps, s.2.path = p := by
  obtain ⟨e, he, rfl⟩ := List.mem_map.1 hp
  obtain ⟨s, hs, rfl⟩ := h.exists_snd he
  exact ⟨s, hs, rfl⟩

/-- Every path goes somewhere. -/
theorem exists_fst_path (h : t.Rearranges t' steps) {p : Path} (hp : p ∈ t.paths) :
    ∃ s ∈ steps, s.1.path = p := by
  obtain ⟨e, he, rfl⟩ := List.mem_map.1 hp
  obtain ⟨s, hs, rfl⟩ := List.mem_map.1 (h.before.mem_iff.2 he)
  exact ⟨s, hs, rfl⟩

theorem nodup_fst (h : t.Rearranges t' steps) : (steps.map fun s => s.1.path).Nodup := by
  have hperm := (h.before.map Entry.path).nodup_iff.2 t.nodup_paths
  rwa [List.map_map] at hperm

theorem nodup_snd (h : t.Rearranges t' steps) : (steps.map fun s => s.2.path).Nodup := by
  have hperm := (h.after.map Entry.path).nodup_iff.2 t'.nodup_paths
  rwa [List.map_map] at hperm

theorem eq_of_fst (h : t.Rearranges t' steps) {r s : Entry × Entry} (hr : r ∈ steps)
    (hs : s ∈ steps) (heq : r.1.path = s.1.path) : r = s :=
  List.inj_on_of_nodup_map h.nodup_fst hr hs heq

theorem eq_of_snd (h : t.Rearranges t' steps) {r s : Entry × Entry} (hr : r ∈ steps)
    (hs : s ∈ steps) (heq : r.2.path = s.2.path) : r = s :=
  List.inj_on_of_nodup_map h.nodup_snd hr hs heq

theorem size_eq (h : t.Rearranges t' steps) : t.size = t'.size := by
  rw [KeyedList.size, KeyedList.size, ← h.before.length_eq, ← h.after.length_eq, List.length_map,
    List.length_map]

theorem agreeing (h : t.Rearranges t' steps) (ha : t.Agreeing) : t'.Agreeing := by
  intro e he
  obtain ⟨s, hs, rfl⟩ := h.exists_snd he
  exact h.agrees s hs (ha s.1 (h.fst_mem hs))

/-! ## What nests what stays as it was -/

theorem pointsAt_congr {p q : Path} (h : p.sameEntry q = true) (label : String) :
    p.PointsAt label ↔ q.PointsAt label := by
  obtain ⟨-, hkind, hitem⟩ := Path.sameEntry_iff.1 h
  rw [Path.PointsAt, Path.PointsAt, hkind, hitem]

theorem exists_path_iff (h : t.Rearranges t' steps) {P : Path → Prop}
    (hP : ∀ p q : Path, p.sameEntry q = true → (P p ↔ P q)) :
    (∃ p ∈ t.paths, P p) ↔ ∃ p ∈ t'.paths, P p := by
  constructor
  · intro hex
    obtain ⟨p, hp, hPp⟩ := hex
    obtain ⟨s, hs, rfl⟩ := h.exists_fst_path hp
    exact ⟨s.2.path, mem_paths_of_mem (h.snd_mem hs), (hP _ _ (h.same s hs)).1 hPp⟩
  · intro hex
    obtain ⟨p, hp, hPp⟩ := hex
    obtain ⟨s, hs, rfl⟩ := h.exists_snd_path hp
    exact ⟨s.1.path, mem_paths_of_mem (h.fst_mem hs), (hP _ _ (h.same s hs)).2 hPp⟩

theorem nests_iff (h : t.Rearranges t' steps) (a b : String) :
    Nests t.paths a b ↔ Nests t'.paths a b :=
  h.exists_path_iff fun p q hpq => by
    rw [pointsAt_congr hpq, (Path.sameEntry_iff.1 hpq).1]

theorem exists_pointsAt_iff (h : t.Rearranges t' steps) (label : String) :
    (∃ p ∈ t.paths, p.PointsAt label) ↔ ∃ p ∈ t'.paths, p.PointsAt label :=
  h.exists_path_iff fun _ _ hpq => pointsAt_congr hpq label

theorem rooted (h : t.Rearranges t' steps) {playlist : String} (hr : Rooted playlist t.paths) :
    Rooted playlist t'.paths := by
  intro p hp
  obtain ⟨s, hs, rfl⟩ := h.exists_snd_path hp
  rw [← (Path.sameEntry_iff.1 (h.same s hs)).1, ← h.exists_pointsAt_iff]
  exact hr _ (mem_paths_of_mem (h.fst_mem hs))

/-! ## The moves are exact -/

theorem nodup_new (h : t.Rearranges t' steps) : ((steps.filterMap fun s =>
    if s.2.path = s.1.path then none else some (Move.mk s.1.path s.2.path)).map
      fun m => m.new.text).Nodup := by
  rw [List.Nodup, List.pairwise_map]
  refine List.Pairwise.filterMap _ (fun r s hne m hm n hn heq => hne ?_)
    (List.pairwise_map.1 h.nodup_snd)
  simp only [Option.ite_none_left_eq_some, Option.some.injEq] at hm hn
  rw [← hm.2, ← hn.2] at heq
  exact Path.text_injective heq

theorem mem_movesAmong (h : t.Rearranges t' steps) {m : Move} :
    m ∈ (movesAmong steps).toList ↔
      ∃ s ∈ steps, s.2.path ≠ s.1.path ∧ m = ⟨s.1.path, s.2.path⟩ := by
  rw [movesAmong, KeyedList.mem_ofList h.nodup_new, List.mem_filterMap]
  refine exists_congr fun s => and_congr_right fun _ => ?_
  rw [Option.ite_none_left_eq_some, Option.some.injEq, eq_comm (a := m)]

/-- The moves know where each entry came from. -/
theorem origin_eq (h : t.Rearranges t' steps) {s : Entry × Entry} (hs : s ∈ steps) :
    (movesAmong steps).origin s.2.path = s.1.path := by
  have hfound : ∀ m, (movesAmong steps).find? s.2.path.text = some m → m.old = s.1.path := by
    intro m hm
    obtain ⟨hmem, htext⟩ := KeyedList.find?_eq_some_iff.1 hm
    obtain ⟨r, hr, -, rfl⟩ := h.mem_movesAmong.1 hmem
    rw [h.eq_of_snd hr hs (Path.text_injective htext)]
  rw [Moves.origin]
  split
  · next m hm => exact hfound m hm
  · next hnone =>
    -- An entry that is in no move has kept its path.
    by_contra hne
    exact KeyedList.find?_eq_none_iff.1 hnone _ (h.mem_movesAmong.2 ⟨s, hs, hne, rfl⟩) rfl

/-- The moves know where each entry went. -/
theorem destination_eq (h : t.Rearranges t' steps) {s : Entry × Entry} (hs : s ∈ steps) :
    (movesAmong steps).destination s.1.path = s.2.path := by
  rw [Moves.destination]
  split
  · next m hm =>
    have hold : m.old = s.1.path := by simpa using List.find?_some hm
    obtain ⟨r, hr, -, rfl⟩ := h.mem_movesAmong.1 (List.mem_of_find?_eq_some hm)
    rw [h.eq_of_fst hr hs hold]
  · next hnone =>
    by_contra hne
    have := List.find?_eq_none.1 hnone _ (h.mem_movesAmong.2 ⟨s, hs, fun heq => hne heq.symm, rfl⟩)
    simp at this

theorem origin_mem (h : t.Rearranges t' steps) {p : Path} (hp : p ∈ t'.paths) :
    (movesAmong steps).origin p ∈ t.paths := by
  obtain ⟨s, hs, rfl⟩ := h.exists_snd_path hp
  rw [h.origin_eq hs]
  exact mem_paths_of_mem (h.fst_mem hs)

theorem origin_sameEntry (h : t.Rearranges t' steps) {p : Path} (hp : p ∈ t'.paths) :
    ((movesAmong steps).origin p).sameEntry p = true := by
  obtain ⟨s, hs, rfl⟩ := h.exists_snd_path hp
  rw [h.origin_eq hs]
  exact h.same s hs

theorem origin_inj (h : t.Rearranges t' steps) {p q : Path} (hp : p ∈ t'.paths)
    (hq : q ∈ t'.paths) (heq : (movesAmong steps).origin p = (movesAmong steps).origin q) :
    p = q := by
  obtain ⟨r, hr, rfl⟩ := h.exists_snd_path hp
  obtain ⟨s, hs, rfl⟩ := h.exists_snd_path hq
  rw [h.origin_eq hr, h.origin_eq hs] at heq
  rw [h.eq_of_fst hr hs heq]

theorem destination_mem (h : t.Rearranges t' steps) {p : Path} (hp : p ∈ t.paths) :
    (movesAmong steps).destination p ∈ t'.paths := by
  obtain ⟨s, hs, rfl⟩ := h.exists_fst_path hp
  rw [h.destination_eq hs]
  exact mem_paths_of_mem (h.snd_mem hs)

theorem destination_sameEntry (h : t.Rearranges t' steps) {p : Path} (hp : p ∈ t.paths) :
    p.sameEntry ((movesAmong steps).destination p) = true := by
  obtain ⟨s, hs, rfl⟩ := h.exists_fst_path hp
  rw [h.destination_eq hs]
  exact h.same s hs

theorem destination_inj (h : t.Rearranges t' steps) {p q : Path} (hp : p ∈ t.paths)
    (hq : q ∈ t.paths)
    (heq : (movesAmong steps).destination p = (movesAmong steps).destination q) : p = q := by
  obtain ⟨r, hr, rfl⟩ := h.exists_fst_path hp
  obtain ⟨s, hs, rfl⟩ := h.exists_fst_path hq
  rw [h.destination_eq hr, h.destination_eq hs] at heq
  rw [h.eq_of_snd hr hs heq]

/-! ### Lists of paths along the moves -/

section Lists

variable {l created : List Path} (hl : ∀ p ∈ l, p ∈ t.paths)

include hl

theorem nodup_map_destination (h : t.Rearranges t' steps) (hnodup : l.Nodup) :
    (l.map (movesAmong steps).destination).Nodup :=
  hnodup.map_on fun p hp q hq heq => h.destination_inj (hl p hp) (hl q hq) heq

theorem forall₂_map_destination (h : t.Rearranges t' steps) :
    List.Forall₂ (fun p q => p.sameEntry q = true) l (l.map (movesAmong steps).destination) := by
  rw [List.forall₂_map_right_iff, List.forall₂_same]
  exact fun p hp => h.destination_sameEntry (hl p hp)

theorem filter_root_map_destination (h : t.Rearranges t' steps) (label : Label) :
    (l.map (movesAmong steps).destination).filter (·.root == label)
      = (l.filter (·.root == label)).map (movesAmong steps).destination := by
  rw [List.filter_map]
  refine congrArg _ (List.filter_congr fun p hp => ?_)
  have hsame := Path.sameEntry_iff.1 (h.destination_sameEntry (hl p hp))
  exact congrArg (· == label) hsame.1.symm

/-- What is not among some paths goes where those do not go. -/
theorem filter_not_mem_map_destination (h : t.Rearranges t' steps)
    (hsub : ∀ p ∈ created, p ∈ t.paths) :
    (l.map (movesAmong steps).destination).filter
        (· ∉ created.map (movesAmong steps).destination)
      = (l.filter (· ∉ created)).map (movesAmong steps).destination := by
  rw [List.filter_map]
  refine congrArg _ (List.filter_congr fun p hp => decide_eq_decide.2 (not_congr ?_))
  rw [List.mem_map]
  constructor
  · rintro ⟨q, hq, heq⟩
    exact h.destination_inj (hsub q hq) (hl p hp) heq ▸ hq
  · intro hmem
    exact ⟨p, hmem, rfl⟩

end Lists

/-- Every path of the old tree is where some path of the new one came from. -/
theorem exists_origin (h : t.Rearranges t' steps) {p : Path} (hp : p ∈ t.paths) :
    ∃ q ∈ t'.paths, (movesAmong steps).origin q = p := by
  obtain ⟨s, hs, rfl⟩ := h.exists_fst_path hp
  exact ⟨s.2.path, mem_paths_of_mem (h.snd_mem hs), h.origin_eq hs⟩

theorem contains_movesAmong (h : t.Rearranges t' steps) {p : Path} (hp : p ∈ t'.paths) :
    (movesAmong steps).contains p.text = true ↔ (movesAmong steps).origin p ≠ p := by
  obtain ⟨s, hs, rfl⟩ := h.exists_snd_path hp
  rw [h.origin_eq hs, KeyedList.contains_iff]
  constructor
  · intro hex
    obtain ⟨m, hm, htext⟩ := hex
    obtain ⟨r, hr, hne, rfl⟩ := h.mem_movesAmong.1 hm
    rw [h.eq_of_snd hr hs (Path.text_injective htext)] at hne
    exact fun heq => hne heq.symm
  · intro hne
    exact ⟨_, h.mem_movesAmong.2 ⟨s, hs, fun heq => hne heq.symm, rfl⟩, rfl⟩

end Rearranges

end Tree

end Playlists
