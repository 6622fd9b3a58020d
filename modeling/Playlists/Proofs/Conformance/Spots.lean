import Playlists.Proofs.Nesting.Relation
import Playlists.Proofs.Rows.Spelled
import Playlists.Proofs.Tree.Growth
import Playlists.Proofs.Tree.Renumbering

/-!
# `Proofs/Conformance/Spots.lean` — rows of a playlist whose name is open

A case is a script with fixed names in it, such as `Q`, and it works on a playlist that may be
called anything. What is compared in it and put into order does not depend on that, as long as the
playlist is not called by one of the fixed names. A `Venue` is a playlist whose name holds a hyphen,
and the fixed names hold none.

A `Spot` is a path in which the playlist is mentioned and not yet named. Everything that a case has
to know of rows is a question about spots, with no name left open in it, so it can be computed. The
lemmas here carry the answers over to the rows at a venue: which paths they spell
(`Venue.mem_paths_rows`), in which order they are stored and played (`Venue.toList_rows`,
`Venue.siblings_rows`), and which tree they are (`Venue.tree_eq`).
-/

set_option autoImplicit false

namespace Playlists.Conformance

/-- The playlist that a case works on. -/
structure Venue where
  label : Label
  hyphen : '-' ∈ label.text.toList

/-- A label as a script mentions it: the playlist that it works on, or a fixed name. -/
inductive Mention where
  | self
  | named (name : Label) (plain : '-' ∉ name.text.toList)
  deriving DecidableEq

/-- A path as a script mentions it. -/
structure Spot where
  root : Mention
  kind : Kind
  item : Mention
  position : UInt64
  deriving DecidableEq

/-- A name that is spelled out. -/
def Mention.literal (s : String) (h : s ≠ "" ∧ s.toList.all isLabelCharacter = true)
    (plain : '-' ∉ s.toList) : Mention :=
  .named ⟨s, h.1, List.all_eq_true.1 h.2⟩ plain

/-- The text of a mention in a playlist of a given name. -/
def Mention.text (playlist : String) : Mention → String
  | self => playlist
  | named name _ => name.text

namespace Spot

/-- The row of a spot in a playlist of a given name. -/
def text (playlist : String) (s : Spot) : String :=
  s.root.text playlist ++
    ("." ++ s.kind.name ++ "." ++ s.item.text playlist ++ "." ++ toString s.position.toNat)

/-- The spot is an entry for the nested playlist that is mentioned. -/
def PointsAt (s : Spot) (m : Mention) : Prop :=
  s.kind = .playlist ∧ s.item = m

instance (s : Spot) (m : Mention) : Decidable (s.PointsAt m) :=
  inferInstanceAs (Decidable (_ ∧ _))

/-- An entry of the playlist itself goes on behind its name in the same way for every name. -/
theorem text_eq_append {s : Spot} (playlist : String) (hroot : s.root = .self)
    (hitem : s.item ≠ .self) : s.text playlist = playlist ++ s.text "" := by
  obtain ⟨root, kind, item, position⟩ := s
  obtain rfl : root = .self := hroot
  cases item with
  | self => exact absurd rfl hitem
  | named name plain => exact congrArg _ String.empty_append.symm

/-! ## What is asked of spots -/

/-- Spots of the playlist itself in the order of their rows. -/
def Listed (spots : List Spot) : Prop :=
  (∀ s ∈ spots, s.root = .self ∧ s.item ≠ .self) ∧ (spots.map (text "")).Pairwise (· < ·)

/-- Spots of the playlist itself in the order they are played. -/
def InTurn (spots : List Spot) : Prop :=
  (∀ s ∈ spots, s.root = .self) ∧ (spots.map fun s => s.position.toNat).Pairwise (· < ·)

/-- Spots under the playlist or under names that spots point at. -/
def HangTogether (spots : List Spot) : Prop :=
  ∀ s ∈ spots, s.root = .self ∨ ∃ r ∈ spots, r.PointsAt s.root

instance (spots : List Spot) : Decidable (Listed spots) :=
  inferInstanceAs (Decidable (_ ∧ _))

instance (spots : List Spot) : Decidable (InTurn spots) :=
  inferInstanceAs (Decidable (_ ∧ _))

instance (spots : List Spot) : Decidable (HangTogether spots) :=
  inferInstanceAs (Decidable (∀ s ∈ spots, s.root = .self ∨ ∃ r ∈ spots, r.PointsAt s.root))

/-- Spots at the positions one to n. -/
def numbered (spots : List Spot) : List Spot :=
  (spots.zipIdx 1).map fun (s, position) => { s with position := .ofNat position }

end Spot

namespace Venue

open Spot

variable (v : Venue) {m m' : Mention} {s s' : Spot} {spots : List Spot} {p : Path}

/-- The label that is mentioned. -/
def name : Mention → Label
  | .self => v.label
  | .named name _ => name

/-- The path that is mentioned. -/
def path (s : Spot) : Path :=
  ⟨v.name s.root, s.kind, v.name s.item, s.position.toNat⟩

/-- The rows that some spots are written as. -/
def rows (spots : List Spot) : Rows :=
  .spelling (spots.map v.path)

theorem name_injective : Function.Injective v.name := by
  have hne : ∀ {name : Label}, '-' ∉ name.text.toList → v.label ≠ name := by
    rintro name hplain rfl
    exact hplain v.hyphen
  intro m m' h
  cases m with
  | self =>
    cases m' with
    | self => rfl
    | named name plain => exact absurd h (hne plain)
  | named name plain =>
    cases m' with
    | self => exact absurd h.symm (hne plain)
    | named name' plain' =>
      obtain rfl : name = name' := h
      rfl

theorem text_name_iff : (v.name m).text = (v.name m').text ↔ m = m' :=
  ⟨fun h => v.name_injective (Label.ext_text h), fun h => h ▸ rfl⟩

theorem text_name_eq_iff : (v.name m).text = v.label.text ↔ m = .self := by
  show (v.name m).text = (v.name .self).text ↔ m = .self
  exact v.text_name_iff

theorem path_injective : Function.Injective v.path := by
  intro s s' h
  obtain ⟨hroot, hkind, hitem, hposition⟩ := Path.mk.inj h
  cases s
  cases s'
  cases v.name_injective hroot
  cases hkind
  cases v.name_injective hitem
  cases UInt64.toNat_inj.1 hposition
  rfl

theorem text_name (m : Mention) : (v.name m).text = m.text v.label.text := by
  cases m <;> rfl

theorem text_path (s : Spot) : (v.path s).text = s.text v.label.text := by
  rw [Path.text_eq_formatted, Path.formatted, Spot.text, path, text_name, text_name]
  simp only [String.append_assoc]

theorem map_text_path (spots : List Spot) :
    (spots.map v.path).map Path.text = spots.map (Spot.text v.label.text) := by
  rw [List.map_map]
  exact List.map_congr_left fun s _ => v.text_path s

theorem rows_eq (spots : List Spot) :
    v.rows spots = .ofList (spots.map (Spot.text v.label.text)) :=
  congrArg _ (v.map_text_path spots)

theorem root_path_iff : (v.path s).root.text = (v.name m).text ↔ s.root = m :=
  v.text_name_iff

theorem pointsAt_path_iff : (v.path s).PointsAt (v.name m).text ↔ s.PointsAt m :=
  and_congr_right fun _ => v.text_name_iff

theorem position_lt_size : ∀ p ∈ spots.map v.path, p.position < UInt64.size :=
  List.forall_mem_map.2 fun s _ => s.position.toNat_lt_size

theorem nodup_map_path (h : spots.Nodup) : (spots.map v.path).Nodup :=
  h.map v.path_injective

/-! ## The rows of some spots -/

theorem readable_rows (spots : List Spot) : (v.rows spots).Readable :=
  Rows.readable_spelling v.position_lt_size

theorem mem_paths_rows : p ∈ (v.rows spots).paths ↔ ∃ s ∈ spots, v.path s = p := by
  rw [rows, Rows.mem_paths_spelling v.position_lt_size, List.mem_map]

theorem text_path_mem_rows : (v.path s).text ∈ (v.rows spots).toList ↔ s ∈ spots := by
  rw [rows, Rows.text_mem_spelling, List.mem_map_of_injective v.path_injective]

/-- What some row of a spot is like is what some spot is like. -/
theorem exists_mem_rows {P : Path → Prop} :
    (∃ p ∈ (v.rows spots).paths, P p) ↔ ∃ s ∈ spots, P (v.path s) := by
  simp only [mem_paths_rows]
  constructor
  · rintro ⟨-, ⟨s, hs, rfl⟩, h⟩
    exact ⟨s, hs, h⟩
  · rintro ⟨s, hs, h⟩
    exact ⟨_, ⟨s, hs, rfl⟩, h⟩

theorem rooted_rows (h : HangTogether spots) : Rooted v.label.text (v.rows spots).paths := by
  intro p hp
  obtain ⟨s, hs, rfl⟩ := v.mem_paths_rows.1 hp
  rw [exists_mem_rows]
  refine (h s hs).imp (fun hself => v.root_path_iff.2 hself) ?_
  rintro ⟨r, hr, hpoint⟩
  exact ⟨r, hr, v.pointsAt_path_iff.2 hpoint⟩

theorem size_rows (h : spots.Nodup) : (v.rows spots).size = spots.length := by
  rw [rows, Rows.size_spelling v.position_lt_size (v.nodup_map_path h), List.length_map]

/-- Of the rows of some spots those are left whose spots are left. -/
theorem eq_rows_filter {left : Rows} {keeps : String → Prop} {stays : Spot → Bool}
    (hleft : ∀ row, row ∈ left.toList ↔ row ∈ (v.rows spots).toList ∧ keeps row)
    (hkeeps : ∀ s ∈ spots, keeps (v.path s).text ↔ stays s = true) :
    left = v.rows (spots.filter stays) := by
  refine KeyedList.ext_mem fun row => ?_
  rw [hleft, rows, rows, Rows.mem_spelling, Rows.mem_spelling]
  simp only [List.mem_map, List.mem_filter, exists_exists_and_eq_and]
  constructor
  · rintro ⟨⟨s, hs, rfl⟩, hrow⟩
    exact ⟨s, ⟨hs, (hkeeps s hs).1 hrow⟩, rfl⟩
  · rintro ⟨s, ⟨hs, hstays⟩, rfl⟩
    exact ⟨⟨s, hs, rfl⟩, (hkeeps s hs).2 hstays⟩

/-! ## The orders of the rows -/

theorem pairwise_text (h : Listed spots) :
    (spots.map v.path).Pairwise fun p q => p.text < q.text := by
  obtain ⟨hown, hsorted⟩ := h
  rw [List.pairwise_map] at hsorted ⊢
  refine hsorted.imp_of_mem fun {s s'} hs hs' hlt => ?_
  rw [text_path, text_path, text_eq_append _ (hown s hs).1 (hown s hs).2,
    text_eq_append _ (hown s' hs').1 (hown s' hs').2, String.lt_iff_toList_lt,
    String.toList_append, String.toList_append]
  exact Text.append_lt_append_iff.2 (String.lt_iff_toList_lt.1 hlt)

theorem toList_rows (h : Listed spots) :
    (v.rows spots).toList = spots.map (Spot.text v.label.text) := by
  rw [rows, Rows.toList_spelling (v.pairwise_text h), map_text_path]

theorem paths_rows (h : Listed spots) : (v.rows spots).paths = spots.map v.path :=
  Rows.paths_spelling v.position_lt_size (v.pairwise_text h)

theorem siblings_rows (h : InTurn spots) :
    Path.siblings (v.rows spots).paths v.label = spots.map v.path := by
  obtain ⟨hown, hsorted⟩ := h
  refine Rows.siblings_spelling v.position_lt_size (fun p => (and_iff_left_of_imp ?_).symm) ?_
  · intro hp
    obtain ⟨s, hs, rfl⟩ := List.mem_map.1 hp
    exact congrArg v.name (hown s hs)
  · rw [List.map_map]
    exact hsorted

theorem map_path_numbered (h : spots.length < UInt64.size) :
    (numbered spots).map v.path = Path.numbered (spots.map v.path) := by
  rw [numbered, Path.numbered, List.map_map, List.zipIdx_map, List.map_map]
  refine List.map_congr_left fun sn hmem => ?_
  have hlt := List.snd_lt_of_mem_zipIdx hmem
  have hword : (UInt64.ofNat sn.2).toNat = sn.2 := UInt64.toNat_ofNat_of_lt (by omega)
  show Path.mk _ _ _ (UInt64.ofNat sn.2).toNat = _
  rw [hword]
  rfl

/-! ## The tree of some spots -/

theorem toRows_eq {t : Tree} (h : ∀ p, p ∈ t.paths ↔ ∃ s ∈ spots, v.path s = p) :
    t.toRows = v.rows spots := by
  rw [Tree.toRows_eq_spelling]
  exact Rows.spelling_congr fun p => (h p).trans List.mem_map.symm

theorem tree_eq {t : Tree} (ha : t.Agreeing)
    (h : ∀ p, p ∈ t.paths ↔ ∃ s ∈ spots, v.path s = p) : t = (v.rows spots).tree := by
  have hwords : t.Storable := by
    intro p hp
    obtain ⟨s, -, rfl⟩ := (h p).1 hp
    exact s.position.toNat_lt_size
  rw [← v.toRows_eq h, Tree.toRows_tree ha hwords]

theorem paths_tree : p ∈ (v.rows spots).tree.paths ↔ ∃ s ∈ spots, v.path s = p := by
  rw [Rows.paths_tree, mem_paths_rows]

theorem put_path (spots : List Spot) (s : Spot) :
    (v.rows spots).tree.put (Entry.ofPath (v.path s)) = (v.rows (spots ++ [s])).tree := by
  refine v.tree_eq (Tree.agreeing_put (Rows.agreeing_tree _) _) fun p => ?_
  rw [Tree.mem_paths_put, paths_tree]
  simp only [List.mem_append, List.mem_singleton, or_and_right, exists_or, exists_eq_left]
  rw [or_comm, eq_comm]

/-- Spots of the playlist itself are numbered afresh in the order they are played. -/
theorem toRows_rebalance (h : InTurn spots) (hlength : spots.length < UInt64.size) :
    Tree.toRows (v.rows spots).tree.rebalance.1 = v.rows (numbered spots) := by
  have ha := Rows.agreeing_tree (v.rows spots)
  have hsteps := (v.rows spots).tree.rearranges_rebalance
  refine v.toRows_eq fun p => ?_
  have hmem : p ∈ (v.rows spots).tree.rebalance.1.paths ↔
      p ∈ Path.siblings (v.rows spots).tree.rebalance.1.paths v.label := by
    rw [Path.mem_siblings]
    refine (and_iff_left_of_imp fun hp => ?_).symm
    obtain ⟨step, hstep, rfl⟩ := hsteps.exists_snd_path hp
    obtain ⟨s, hs, hpath⟩ := v.paths_tree.1 (Tree.mem_paths_of_mem (hsteps.fst_mem hstep))
    rw [← (Path.sameEntry_iff.1 (hsteps.same step hstep)).1, ← hpath]
    exact congrArg v.name (h.1 s hs)
  rw [hmem, Tree.path_siblings_rebalance ha, Rows.paths_tree, v.siblings_rows h,
    ← v.map_path_numbered hlength, List.mem_map]

end Venue

end Playlists.Conformance
