import Playlists.Edit.Basic

/-!
# `Store.lean` — the rows of all playlists

A store holds the rows of each playlist apart from those of the others, under the name of the
playlist. A playlist without rows has no shelf, so what is read from a store decides it
(`ext_rows`), and putting rows back where they are changes nothing (`withRows_rows`).
-/

set_option autoImplicit false

namespace Playlists

/-- The rows of one playlist under its name. -/
structure Shelf where
  playlist : String
  rows : Rows
  filled : rows.isEmpty = false
  deriving DecidableEq

/-- The rows of all playlists that have some. -/
abbrev Store := KeyedList Shelf Shelf.playlist

namespace Store

def rows (s : Store) (playlist : String) : Rows :=
  match s.find? playlist with
  | some shelf => shelf.rows
  -- A playlist that was never written to is not told from one whose rows are gone.
  | none => .empty

def withRows (s : Store) (playlist : String) (rows : Rows) : Store :=
  if h : rows.isEmpty = false then s.put ⟨playlist, rows, h⟩ else s.erase playlist

/-- The store with further rows for one playlist, whatever they say. -/
def seed (s : Store) (playlist : String) (raw : List String) : Store :=
  s.withRows playlist ((s.rows playlist).putAll raw)

/-! ## Rows of one playlist and of the others -/

theorem eq_empty_of_isEmpty {rows : Rows} (h : ¬ rows.isEmpty = false) : rows = .empty := by
  refine KeyedList.ext_toList (List.isEmpty_iff.1 ?_)
  rwa [Bool.not_eq_false] at h

/-- A shelf is in a store exactly if its rows are those of its playlist. -/
theorem mem_iff_rows_eq {s : Store} {shelf : Shelf} :
    shelf ∈ s.toList ↔ s.rows shelf.playlist = shelf.rows := by
  rw [rows]
  constructor
  · intro h
    rw [KeyedList.find?_eq_some_iff.2 ⟨h, rfl⟩]
  · intro h
    cases hfind : s.find? shelf.playlist with
    | none =>
      -- Rows that nobody wrote are none, and a shelf holds some.
      rw [hfind] at h
      exact absurd (h ▸ shelf.filled) (by decide)
    | some found =>
      rw [hfind] at h
      obtain ⟨hmem, hname⟩ := KeyedList.find?_eq_some_iff.1 hfind
      obtain ⟨playlist, rows, filled⟩ := shelf
      obtain ⟨playlist', rows', filled'⟩ := found
      cases h
      cases hname
      exact hmem

/-- The rows of the playlists decide the store. -/
theorem ext_rows {s s' : Store} (h : ∀ playlist, s.rows playlist = s'.rows playlist) : s = s' :=
  KeyedList.ext_mem fun shelf => by rw [mem_iff_rows_eq, mem_iff_rows_eq, h]

theorem rows_eq_of_find? {s s' : Store} {playlist : String}
    (h : s.find? playlist = s'.find? playlist) : s.rows playlist = s'.rows playlist := by
  rw [rows, rows, h]

@[simp] theorem rows_withRows_self (s : Store) (playlist : String) (rows : Rows) :
    (s.withRows playlist rows).rows playlist = rows := by
  rw [withRows]
  split
  · next hfilled =>
    have hmem : (⟨playlist, rows, hfilled⟩ : Shelf) ∈ (s.put ⟨playlist, rows, hfilled⟩).toList :=
      KeyedList.mem_put.2 (.inl rfl)
    exact mem_iff_rows_eq.1 hmem
  · next hempty =>
    have hnone : (s.erase playlist).find? playlist = none :=
      KeyedList.find?_eq_none_iff.2 fun shelf hmem => (KeyedList.mem_erase.1 hmem).2
    rw [Store.rows, hnone, eq_empty_of_isEmpty hempty]

@[simp] theorem rows_withRows_of_ne (s : Store) {playlist other : String} (rows : Rows)
    (h : other ≠ playlist) : (s.withRows playlist rows).rows other = s.rows other := by
  have hfind : ∀ s' : Store, (∀ shelf : Shelf, shelf.playlist = other →
      (shelf ∈ s'.toList ↔ shelf ∈ s.toList)) → s'.rows other = s.rows other := by
    intro s' hmem
    refine rows_eq_of_find? (Option.ext fun shelf => ?_)
    rw [KeyedList.find?_eq_some_iff, KeyedList.find?_eq_some_iff]
    exact and_congr_left fun hname => hmem shelf hname
  rw [withRows]
  split
  · refine hfind _ fun shelf hname => KeyedList.mem_put.trans ⟨?_, fun hmem => .inr ⟨hmem, ?_⟩⟩
    · rintro (rfl | ⟨hmem, -⟩)
      · exact absurd hname.symm h
      · exact hmem
    · exact hname ▸ h
  · exact hfind _ fun shelf hname => KeyedList.mem_erase.trans (and_iff_left (hname ▸ h))

/-- What holds of the rows of every playlist still does, if it holds of the new ones. -/
theorem forall_rows_withRows {P : String → Rows → Prop} {s : Store} {playlist : String}
    {rows : Rows} (h : ∀ other, P other (s.rows other)) (hrows : P playlist rows) (other : String) :
    P other ((s.withRows playlist rows).rows other) := by
  by_cases hother : other = playlist
  · subst hother
    rw [rows_withRows_self]
    exact hrows
  · rw [rows_withRows_of_ne s rows hother]
    exact h other

@[simp] theorem withRows_withRows (s : Store) (playlist : String) (rows rows' : Rows) :
    (s.withRows playlist rows).withRows playlist rows' = s.withRows playlist rows' := by
  refine ext_rows fun other => ?_
  by_cases hother : other = playlist
  · rw [hother, rows_withRows_self, rows_withRows_self]
  · rw [rows_withRows_of_ne _ _ hother, rows_withRows_of_ne _ _ hother,
      rows_withRows_of_ne _ _ hother]

@[simp] theorem withRows_rows (s : Store) (playlist : String) :
    s.withRows playlist (s.rows playlist) = s :=
  ext_rows <| forall_rows_withRows (P := fun other rows => rows = s.rows other) (fun _ => rfl) rfl

end Store

end Playlists
