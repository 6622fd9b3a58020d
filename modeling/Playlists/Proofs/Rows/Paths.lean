import Playlists.Proofs.Edit.Run

/-!
# `Proofs/Rows/Paths.lean` — the paths that rows spell, and the tree they make

Rows are texts, and everything that is true of a playlist is true of the paths that its rows spell.
`Rows.paths` lists them and `Rows.tree` is the tree of them. Both are defined whatever the rows say;
where every row can be read (`Rows.Readable`) nothing is lost on the way, and rows and trees are two
views of one thing:

* `Readable.map_text` — the paths written out are the rows again;
* `Readable.ofRows_eq` — reading the rows does give the tree;
* `tree_toRows` and `toRows_tree` — `Rows.tree` and `Tree.toRows` undo each other.

A tree that was read from rows has at each path the node of that path. `Tree.Agreeing` is that
property, which every change in memory has to keep.
-/

set_option autoImplicit false

namespace Playlists

/-- The path that a row spells, if it spells one. -/
def Path.decode? (row : String) : Option Path :=
  (Path.decode row).toOption

instance (row : String) : Decidable (∃ p, Path.decode row = .ok p) :=
  decidable_of_iff ((Path.decode row).isOk = true) (by
    cases Path.decode row <;> simp [Except.isOk, Except.toBool])

namespace Rows

/-- The paths that the rows of a playlist spell. -/
def paths (rows : Rows) : List Path :=
  rows.toList.filterMap Path.decode?

/-- Every row can be read. -/
def Readable (rows : Rows) : Prop :=
  ∀ row ∈ rows.toList, ∃ p, Path.decode row = .ok p

instance (rows : Rows) : Decidable rows.Readable :=
  inferInstanceAs (Decidable (∀ row ∈ rows.toList, ∃ p, Path.decode row = .ok p))

/-- The tree of the rows that can be read. -/
def tree (rows : Rows) : Tree :=
  .ofPaths rows.paths

end Rows

namespace Tree

/-- Every entry carries the node of its path. -/
def Agreeing (t : Tree) : Prop :=
  ∀ e ∈ t.toList, e = Entry.ofPath e.path

/-- A tree passes its validation exactly when every entry carries the node of its path. -/
theorem validate_eq_ok_iff {t : Tree} : t.validate = .ok () ↔ t.Agreeing := by
  rw [validate, Failure.forM_eq_ok_iff]
  refine forall_congr' fun e => imp_congr_right fun _ => ?_
  rw [Entry.validate, ite_eq_left_iff]
  obtain ⟨path, node⟩ := e
  simp [Entry.agrees, Node.agrees_iff, Entry.ofPath]

/-- The tree of some rows is that of the paths that they are read as. -/
theorem ofRows_eq_map (rows : List String) :
    ofRows rows = (rows.mapM Path.decode).map ofPaths := by
  rw [ofRows, fill]
  cases rows.mapM Path.decode with
  | error failure => rfl
  | ok paths => rfl

/-- Every position fits into a machine word. -/
def Storable (t : Tree) : Prop :=
  ∀ p ∈ t.paths, p.position < UInt64.size

/-- The rows of a tree, as rows of a playlist. -/
def toRows (t : Tree) : Rows :=
  ⟨t.rows, List.pairwise_map.2 t.ascending⟩

end Tree

namespace Rows

/-! ## Paths and rows -/

theorem decode?_eq_some_of_ok {row : String} {p : Path} (h : Path.decode row = .ok p) :
    Path.decode? row = some p := by
  rw [Path.decode?, h]
  rfl

theorem decode?_eq_some_iff {row : String} {p : Path} :
    Path.decode? row = some p ↔ p.text = row ∧ p.position < UInt64.size := by
  constructor
  · intro h
    rw [Path.decode?] at h
    cases hp : Path.decode row with
    | error failure =>
      rw [hp] at h
      cases h
    | ok q =>
      rw [hp] at h
      cases h
      exact Path.text_of_decode hp
  · rintro ⟨rfl, hlt⟩
    exact decode?_eq_some_of_ok (Path.decode_text hlt)

theorem mem_paths {rows : Rows} {p : Path} :
    p ∈ rows.paths ↔ p.text ∈ rows.toList ∧ p.position < UInt64.size := by
  simp only [paths, List.mem_filterMap, decode?_eq_some_iff]
  constructor
  · rintro ⟨row, hrow, rfl, hlt⟩
    exact ⟨hrow, hlt⟩
  · rintro ⟨hrow, hlt⟩
    exact ⟨p.text, hrow, rfl, hlt⟩

theorem Readable.text_mem {rows : Rows} (h : rows.Readable) {row : String}
    (hrow : row ∈ rows.toList) : ∃ p ∈ rows.paths, p.text = row := by
  obtain ⟨p, hp⟩ := h row hrow
  obtain ⟨rfl, hlt⟩ := Path.text_of_decode hp
  exact ⟨p, mem_paths.2 ⟨hrow, hlt⟩, rfl⟩

theorem map_text_filterMap {rows : List String} (h : ∀ row ∈ rows, ∃ p, Path.decode row = .ok p) :
    (rows.filterMap Path.decode?).map Path.text = rows := by
  induction rows with
  | nil => rfl
  | cons row rest ih =>
    obtain ⟨p, hp⟩ := h row List.mem_cons_self
    rw [List.filterMap_cons_some (decode?_eq_some_of_ok hp), List.map_cons,
      ih fun r hr => h r (List.mem_cons_of_mem _ hr), (Path.text_of_decode hp).1]

/-- The paths written out are the rows again. -/
theorem Readable.map_text {rows : Rows} (h : rows.Readable) :
    rows.paths.map Path.text = rows.toList :=
  map_text_filterMap h

theorem pairwise_paths (rows : Rows) : rows.paths.Pairwise fun p q => p.text < q.text := by
  refine List.Pairwise.filterMap _ (fun row row' hlt p hp q hq => ?_) rows.ascending
  rw [(decode?_eq_some_iff.1 hp).1, (decode?_eq_some_iff.1 hq).1]
  exact hlt

theorem nodup_paths (rows : Rows) : rows.paths.Nodup := by
  refine rows.pairwise_paths.imp fun {p q} hlt heq => ?_
  rw [heq] at hlt
  exact String.lt_irrefl _ hlt

theorem Readable.filter {rows : Rows} (h : rows.Readable) (f : String → Bool) :
    Readable (rows.filter f) :=
  fun row hrow => h row (KeyedList.mem_filter.1 hrow).1

theorem Readable.put {rows : Rows} (h : rows.Readable) {p : Path}
    (hword : p.position < UInt64.size) : Readable (rows.put p.text) := by
  intro row hrow
  rcases KeyedList.mem_put.1 hrow with rfl | ⟨hrow, -⟩
  · exact ⟨p, Path.decode_text hword⟩
  · exact h row hrow

theorem mem_paths_filter {rows : Rows} {f : String → Bool} {p : Path} :
    p ∈ paths (rows.filter f) ↔ p ∈ rows.paths ∧ f p.text = true := by
  rw [mem_paths, mem_paths, KeyedList.mem_filter, and_right_comm]

theorem mapM_decode {rows : List String} (h : ∀ row ∈ rows, ∃ p, Path.decode row = .ok p) :
    rows.mapM Path.decode = .ok (rows.filterMap Path.decode?) := by
  induction rows with
  | nil => rfl
  | cons row rest ih =>
    obtain ⟨p, hp⟩ := h row List.mem_cons_self
    rw [List.mapM_cons, ih fun r hr => h r (List.mem_cons_of_mem _ hr), hp,
      List.filterMap_cons_some (decode?_eq_some_of_ok hp)]
    rfl

/-! ## The tree of rows -/

theorem toList_tree (rows : Rows) : rows.tree.toList = rows.paths.map Entry.ofPath :=
  KeyedList.toList_ofList (List.pairwise_map.2 rows.pairwise_paths)

theorem mem_tree {rows : Rows} {e : Entry} :
    e ∈ rows.tree.toList ↔ ∃ p ∈ rows.paths, Entry.ofPath p = e := by
  rw [toList_tree, List.mem_map]

theorem paths_tree (rows : Rows) : rows.tree.paths = rows.paths := by
  rw [Tree.paths, toList_tree, List.map_map]
  exact List.map_id _

theorem agreeing_tree (rows : Rows) : rows.tree.Agreeing := by
  intro e he
  obtain ⟨p, -, rfl⟩ := mem_tree.1 he
  rfl

/-- Reading the rows of a playlist gives their tree. -/
theorem Readable.ofRows_eq {rows : Rows} (h : rows.Readable) :
    Tree.ofRows rows.toList = .ok rows.tree := by
  rw [Tree.ofRows_eq_map, mapM_decode h]
  rfl

end Rows

namespace Tree

theorem mem_toRows {t : Tree} {row : String} :
    row ∈ t.toRows.toList ↔ ∃ p ∈ t.paths, p.text = row := by
  constructor
  · intro h
    obtain ⟨e, he, rfl⟩ := List.mem_map.1 h
    exact ⟨e.path, List.mem_map_of_mem he, rfl⟩
  · rintro ⟨p, hp, rfl⟩
    obtain ⟨e, he, rfl⟩ := List.mem_map.1 hp
    exact List.mem_map_of_mem (f := Entry.key) he

theorem size_toRows (t : Tree) : t.toRows.size = t.size :=
  List.length_map _

theorem readable_toRows {t : Tree} (h : t.Storable) : t.toRows.Readable := by
  intro row hrow
  obtain ⟨p, hp, rfl⟩ := mem_toRows.1 hrow
  exact ⟨p, Path.decode_text (h p hp)⟩

theorem paths_toRows {t : Tree} (h : t.Storable) : t.toRows.paths = t.paths := by
  have htexts : t.toRows.paths.map Path.text = t.paths.map Path.text := by
    rw [(readable_toRows h).map_text, paths, List.map_map]
    rfl
  exact (List.map_inj_right fun _ _ => Path.text_injective).1 htexts

theorem mem_paths_of_mem {t : Tree} {e : Entry} (h : e ∈ t.toList) : e.path ∈ t.paths :=
  List.mem_map_of_mem h

theorem mem_paths_filter {t : Tree} {f : Path → Bool} {p : Path} :
    p ∈ paths (t.filter fun e => f e.path) ↔ p ∈ t.paths ∧ f p = true := by
  simp only [paths, List.mem_map, KeyedList.mem_filter]
  constructor
  · rintro ⟨e, ⟨he, hf⟩, rfl⟩
    exact ⟨⟨e, he, rfl⟩, hf⟩
  · rintro ⟨⟨e, he, rfl⟩, hf⟩
    exact ⟨e, ⟨he, hf⟩, rfl⟩

theorem Agreeing.mem_iff {t : Tree} (h : t.Agreeing) {e : Entry} :
    e ∈ t.toList ↔ ∃ p ∈ t.paths, Entry.ofPath p = e := by
  constructor
  · intro he
    exact ⟨e.path, mem_paths_of_mem he, (h e he).symm⟩
  · rintro ⟨p, hp, rfl⟩
    obtain ⟨e, he, rfl⟩ := List.mem_map.1 hp
    exact h e he ▸ he

theorem toRows_tree {t : Tree} (ha : t.Agreeing) (hs : t.Storable) : t.toRows.tree = t := by
  refine KeyedList.ext_mem fun e => ?_
  rw [Rows.mem_tree, ha.mem_iff, paths_toRows hs]

end Tree

namespace Rows

theorem storable_tree (rows : Rows) : rows.tree.Storable :=
  fun _ hp => (mem_paths.1 (rows.paths_tree ▸ hp)).2

theorem Readable.tree_toRows {rows : Rows} (h : rows.Readable) : rows.tree.toRows = rows := by
  apply KeyedList.ext_toList
  show rows.tree.toList.map Entry.key = rows.toList
  rw [toList_tree, List.map_map]
  exact h.map_text

theorem Readable.size_tree {rows : Rows} (h : rows.Readable) : rows.tree.size = rows.size := by
  rw [← Tree.size_toRows, h.tree_toRows]

end Rows

end Playlists
