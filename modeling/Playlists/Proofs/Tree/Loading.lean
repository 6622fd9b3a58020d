import Playlists.Proofs.Rows.Paths

/-!
# `Proofs/Tree/Loading.lean` — rows into trees and back

A tree is filled with rows in two passes: first all of them are read, then the entries that they
stand for are added. So a list with a row that cannot be read changes nothing, and the first such
row is the one that is reported (`fill_eq_error_iff`). Otherwise what the rows say is in the tree
afterwards, over what it held under them before (`Filled`).

Rows may come in any order and more than once, and a tree has each of them once and in order: two
rows that are read as one path are one row (`Path.text_injective`), so no entry is lost to another
(`mem_putAll_ofPath`). A tree whose entries agree with their paths is the tree of its own rows.
-/

set_option autoImplicit false

namespace Playlists

/-- A row that cannot be read, behind rows that can be, and what is wrong with it. -/
def Path.FirstUnreadable (rows : List String) (failure : Failure) : Prop :=
  ∃ front row rest, rows = front ++ row :: rest ∧ (∀ r ∈ front, ∃ p, Path.decode r = .ok p) ∧
    Path.decode row = .error failure

namespace Tree

/-- What a tree becomes when rows are added to it: it has its rows and these, it is as before where
none of them names an entry, and where one does the entry is the one that the row stands for. -/
structure Filled (t : Tree) (rows : List String) (filled : Tree) : Prop where
  mem_rows : ∀ row, row ∈ filled.rows ↔ row ∈ t.rows ∨ row ∈ rows
  kept : ∀ e : Entry, e.key ∉ rows → (e ∈ filled.toList ↔ e ∈ t.toList)
  agrees : ∀ e ∈ filled.toList, e.key ∈ rows → e.agrees = true

variable {t filled : Tree} {rows : List String} {paths : List Path} {failure : Failure}

/-! ## One list of rows -/

theorem fill_eq_ok_iff : fill rows t = .ok () filled ↔
    ∃ paths, rows.mapM Path.decode = .ok paths ∧ t.putAll (paths.map Entry.ofPath) = filled := by
  rw [fill]
  cases rows.mapM Path.decode with
  | error failure =>
    constructor
    · intro h
      cases h
    · rintro ⟨paths, h, -⟩
      cases h
  | ok paths =>
    constructor
    · intro h
      cases h
      exact ⟨paths, rfl, rfl⟩
    · rintro ⟨paths, h, rfl⟩
      cases h
      rfl

theorem fill_eq_error_iff : fill rows t = .error failure filled ↔
    rows.mapM Path.decode = .error failure ∧ filled = t := by
  rw [fill]
  cases rows.mapM Path.decode with
  | error other =>
    constructor
    · intro h
      cases h
      exact ⟨rfl, rfl⟩
    · rintro ⟨h, rfl⟩
      cases h
      rfl
  | ok paths =>
    constructor
    · intro h
      cases h
    · rintro ⟨h, -⟩
      cases h

/-- The texts of the paths that rows are read as are the rows. -/
theorem map_text_of_mapM_decode (h : rows.mapM Path.decode = .ok paths) :
    paths.map Path.text = rows := by
  have hread : ∀ row ∈ rows, ∃ p, Path.decode row = .ok p := fun _ => Failure.exists_eq_ok_of_mapM h
  rw [Rows.mapM_decode hread] at h
  cases h
  exact Rows.map_text_filterMap hread

/-- Entries that paths stand for are in a tree that they are added to, and of its own entries those
that are under none of the paths. -/
theorem mem_putAll_ofPath {e : Entry} : e ∈ (t.putAll (paths.map Entry.ofPath)).toList ↔
    (∃ p ∈ paths, Entry.ofPath p = e) ∨ e ∈ t.toList ∧ e.key ∉ paths.map Path.text := by
  have hkeys : ∀ v ∈ paths.map Entry.ofPath, ∀ w ∈ paths.map Entry.ofPath,
      v.key = w.key → v = w := by
    rintro v hv w hw heq
    obtain ⟨p, -, rfl⟩ := List.mem_map.1 hv
    obtain ⟨q, -, rfl⟩ := List.mem_map.1 hw
    exact congrArg Entry.ofPath (Path.text_injective heq)
  rw [KeyedList.mem_putAll_of_inj hkeys, List.mem_map, List.forall_mem_map]
  refine or_congr_right (and_congr_right fun _ => ?_)
  rw [List.mem_map]
  exact ⟨fun h ⟨p, hp, heq⟩ => h p hp heq.symm, fun h p hp heq => h ⟨p, hp, heq.symm⟩⟩

theorem filled_of_mapM (h : rows.mapM Path.decode = .ok paths) :
    t.Filled rows (t.putAll (paths.map Entry.ofPath)) := by
  -- Written out, the paths are the rows again, so either may be spoken of.
  obtain rfl := map_text_of_mapM_decode h
  constructor
  case mem_rows =>
    intro row
    constructor
    · intro hrow
      obtain ⟨e, he, rfl⟩ := List.mem_map.1 hrow
      rcases mem_putAll_ofPath.1 he with ⟨p, hp, rfl⟩ | ⟨he, -⟩
      · exact .inr (List.mem_map_of_mem (f := Path.text) hp)
      · exact .inl (List.mem_map_of_mem (f := Entry.key) he)
    · intro hrow
      by_cases hnew : row ∈ paths.map Path.text
      · obtain ⟨p, hp, rfl⟩ := List.mem_map.1 hnew
        exact List.mem_map.2 ⟨Entry.ofPath p, mem_putAll_ofPath.2 (.inl ⟨p, hp, rfl⟩), rfl⟩
      · obtain ⟨e, he, rfl⟩ := List.mem_map.1 (hrow.resolve_right hnew)
        exact List.mem_map_of_mem (f := Entry.key) (mem_putAll_ofPath.2 (.inr ⟨he, hnew⟩))
  case kept =>
    intro e hkey
    rw [mem_putAll_ofPath]
    constructor
    · rintro (⟨p, hp, rfl⟩ | ⟨he, -⟩)
      · exact absurd (List.mem_map_of_mem (f := Path.text) hp) hkey
      · exact he
    · exact fun he => .inr ⟨he, hkey⟩
  case agrees =>
    intro e he hkey
    rcases mem_putAll_ofPath.1 he with ⟨p, -, rfl⟩ | ⟨-, hnot⟩
    · exact Node.agrees_ofPath p
    · exact absurd hkey hnot

/-! ## Two lists of rows, and the rows of a tree -/

/-- Rows that can be read make a tree, the same one in whatever order and however often they
come. -/
theorem ofRows_eq_ok (hread : ∀ row ∈ rows, ∃ p, Path.decode row = .ok p) {rows' : List String}
    (hsame : ∀ row, row ∈ rows' ↔ row ∈ rows) :
    ofRows rows' = .ok (ofPaths (rows.filterMap Path.decode?)) := by
  have hread' : ∀ row ∈ rows', ∃ p, Path.decode row = .ok p := fun row hrow =>
    hread row ((hsame row).1 hrow)
  rw [ofRows_eq_map, Rows.mapM_decode hread']
  refine congrArg Except.ok (KeyedList.ext_mem fun e => ?_)
  rw [ofPaths, ofPaths, KeyedList.ofList, KeyedList.ofList, mem_putAll_ofPath, mem_putAll_ofPath]
  simp only [List.mem_filterMap, hsame, KeyedList.mem_empty, false_and, or_false]

theorem mem_rows_ofPaths (hread : ∀ row ∈ rows, ∃ p, Path.decode row = .ok p) {row : String} :
    row ∈ (ofPaths (rows.filterMap Path.decode?)).rows ↔ row ∈ rows := by
  have hfilled := (filled_of_mapM (t := .empty) (Rows.mapM_decode hread)).mem_rows row
  rw [ofPaths, KeyedList.ofList, hfilled]
  exact or_iff_right List.not_mem_nil

/-- A tree whose entries agree with their paths is the tree of its rows. -/
theorem Agreeing.ofRows_rows (h : t.Agreeing) (hword : t.Storable) : ofRows t.rows = .ok t := by
  have hrows := (readable_toRows hword).ofRows_eq
  rw [toRows_tree h hword] at hrows
  exact hrows

/-- **Rows and trees undo each other.** A tree can be filled exactly if every row can be read, and
then has become what it held and what the rows say; otherwise it is as it was, and the first row
that cannot be read is the reason. So rows that can be read make a tree that lists each of them
once and in order, whatever order they came in, and a tree that passes its validation, its positions
being machine words, is the tree that its rows make. -/
theorem rows_and_trees_undo_each_other :
    (∀ (t : Tree) (rows : List String),
      ((∃ filled, fill rows t = .ok () filled) ↔ ∀ row ∈ rows, ∃ p, Path.decode row = .ok p) ∧
      (∀ filled, fill rows t = .ok () filled → t.Filled rows filled) ∧
      ∀ failure filled, fill rows t = .error failure filled ↔
        Path.FirstUnreadable rows failure ∧ filled = t) ∧
    (∀ rows : List String, (∀ row ∈ rows, ∃ p, Path.decode row = .ok p) →
      ∃ t, t.rows.Pairwise (· < ·) ∧ (∀ row, row ∈ t.rows ↔ row ∈ rows) ∧
        ∀ rows' : List String, (∀ row, row ∈ rows' ↔ row ∈ rows) → ofRows rows' = .ok t) ∧
    ∀ t : Tree, t.validate = .ok () → t.Storable → ofRows t.rows = .ok t := by
  refine ⟨fun t rows => ⟨⟨?_, ?_⟩, ?_, fun failure filled => ?_⟩, fun rows hread => ?_,
    fun t hvalid hword => (validate_eq_ok_iff.1 hvalid).ofRows_rows hword⟩
  · rintro ⟨filled, hfilled⟩
    obtain ⟨paths, hpaths, -⟩ := fill_eq_ok_iff.1 hfilled
    exact fun row => Failure.exists_eq_ok_of_mapM hpaths
  · exact fun hread => ⟨_, fill_eq_ok_iff.2 ⟨_, Rows.mapM_decode hread, rfl⟩⟩
  · intro filled hfilled
    obtain ⟨paths, hpaths, rfl⟩ := fill_eq_ok_iff.1 hfilled
    exact filled_of_mapM hpaths
  · rw [fill_eq_error_iff, Failure.mapM_eq_error_iff]
    exact Iff.rfl
  · exact ⟨_, List.pairwise_map.2 (KeyedList.ascending _), fun row => mem_rows_ofPaths hread,
      fun rows' hsame => ofRows_eq_ok hread hsame⟩

/-- A tree whose nodes are at other positions than their paths. -/
def misnumbered : Tree :=
  .ofList ((["M.track.A.1", "M.track.B.2"].filterMap Path.decode?).map fun p =>
    ⟨p, { Node.ofPath p with position := 9 }⟩)

/-- Rows in no order, one of them twice and one that is in the tree already. -/
def scrambledRows : List String :=
  ["M.track.C.10", "M.playlist.Q.3", "M.track.A.1", "M.track.C.10", "Q.track.A.1"]

/-- Two rows that cannot be read behind one that can. -/
def spoiltRows : List String :=
  ["M.track.C.10", "M.track.C.010", "M.track"]

/-- The tree of rows that were put in order. -/
def scrambledTree : Tree :=
  Rows.tree (.ofList scrambledRows)

theorem rows_and_trees_undo_each_other_scrambled :
    ((∃ filled, fill scrambledRows misnumbered = .ok () filled ∧
        misnumbered.Filled scrambledRows filled) ∧
      fill spoiltRows misnumbered
        = .error (.badPosition "010" "M.track.C.010") misnumbered) ∧
    (∃ t, t.rows.Pairwise (· < ·) ∧ ofRows scrambledRows = .ok t ∧
      ofRows scrambledRows.reverse = .ok t) ∧
    scrambledTree.validate = .ok () ∧ scrambledTree.Storable ∧
      ofRows scrambledTree.rows = .ok scrambledTree := by
  have hread : ∀ row ∈ scrambledRows, ∃ p, Path.decode row = .ok p := by decide +kernel
  have hspoilt : Path.FirstUnreadable spoiltRows (.badPosition "010" "M.track.C.010") :=
    ⟨["M.track.C.10"], "M.track.C.010", ["M.track"], rfl, by decide +kernel, rfl⟩
  have hvalid : scrambledTree.validate = .ok () := validate_eq_ok_iff.2 (Rows.agreeing_tree _)
  have hword : scrambledTree.Storable := Rows.storable_tree _
  obtain ⟨hfill, hsorted, hback⟩ := rows_and_trees_undo_each_other
  obtain ⟨hloads, hfilled, -⟩ := hfill misnumbered scrambledRows
  obtain ⟨filled, hok⟩ := hloads.2 hread
  obtain ⟨t, hascending, -, hsame⟩ := hsorted scrambledRows hread
  refine ⟨⟨⟨filled, hok, hfilled filled hok⟩, ?_⟩, ⟨t, hascending, ?_, ?_⟩, hvalid, hword,
    hback _ hvalid hword⟩
  · exact ((hfill misnumbered spoiltRows).2.2 _ _).2 ⟨hspoilt, rfl⟩
  · exact hsame _ fun _ => Iff.rfl
  · exact hsame _ fun _ => List.mem_reverse

end Tree

end Playlists
