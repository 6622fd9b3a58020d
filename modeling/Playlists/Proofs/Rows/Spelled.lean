import Playlists.Proofs.Rows.Grammar
import Playlists.Proofs.Tree.Siblings

/-!
# `Proofs/Rows/Spelled.lean` — rows given by the paths they spell

Rows are often known by a list of paths: those that were seeded, and those that came and went since.
`Rows.spelling` makes the rows of such a list. It does not matter in which order the list is, nor
whether a path comes twice (`spelling_congr`). If the list is in the order of the texts it is the
list of the rows (`paths_spelling`), and if it is in the order of the positions it is the order in
which they are played (`siblings_spelling`).
-/

set_option autoImplicit false

namespace Playlists

/-! ## Texts with a common beginning -/

theorem Text.append_lt_append_iff {lead s t : List Char} : lead ++ s < lead ++ t ↔ s < t := by
  induction lead with
  | nil => exact Iff.rfl
  | cons c lead ih =>
    rw [List.cons_append, List.cons_append, List.cons_lt_cons_iff, ih]
    constructor
    · rintro (hc | ⟨-, hlt⟩)
      · exact absurd hc (Char.lt_irrefl c)
      · exact hlt
    · exact fun hlt => .inr ⟨rfl, hlt⟩

/-! ## The rows of some paths -/

namespace Rows

/-- The rows that some paths are written as. -/
def spelling (paths : List Path) : Rows :=
  .ofList (paths.map Path.text)

variable {paths paths' : List Path} {row : String} {p : Path}

theorem mem_spelling : row ∈ (spelling paths).toList ↔ ∃ p ∈ paths, p.text = row := by
  rw [spelling, KeyedList.mem_texts_ofList, List.mem_map]

theorem text_mem_spelling : p.text ∈ (spelling paths).toList ↔ p ∈ paths := by
  rw [mem_spelling]
  constructor
  · rintro ⟨q, hq, htext⟩
    exact Path.text_injective htext ▸ hq
  · exact fun hp => ⟨p, hp, rfl⟩

/-- Only the paths matter, not their order. -/
theorem spelling_congr (h : ∀ p, p ∈ paths ↔ p ∈ paths') : spelling paths = spelling paths' := by
  refine KeyedList.ext_mem fun row => ?_
  rw [mem_spelling, mem_spelling]
  simp only [h]

theorem putAll_spelling (paths paths' : List Path) :
    (spelling paths).putAll (paths'.map Path.text) = spelling (paths ++ paths') := by
  refine KeyedList.ext_mem fun row => ?_
  rw [KeyedList.mem_texts_putAll, mem_spelling, mem_spelling, List.mem_map, or_comm]
  simp only [List.mem_append, or_and_right, exists_or]

/-- Paths in the order of their texts are the rows in their order. -/
theorem toList_spelling (h : paths.Pairwise fun p q => p.text < q.text) :
    (spelling paths).toList = paths.map Path.text :=
  KeyedList.toList_ofList (List.pairwise_map.2 h)

section Words

variable (hwords : ∀ p ∈ paths, p.position < UInt64.size)

include hwords

theorem readable_spelling : (spelling paths).Readable := by
  intro row hrow
  obtain ⟨p, hp, rfl⟩ := mem_spelling.1 hrow
  exact ⟨p, Path.decode_text (hwords p hp)⟩

theorem mem_paths_spelling : p ∈ (spelling paths).paths ↔ p ∈ paths := by
  rw [mem_paths, text_mem_spelling]
  exact and_iff_left_of_imp (hwords p)

theorem paths_spelling (h : paths.Pairwise fun p q => p.text < q.text) :
    (spelling paths).paths = paths := by
  have htexts := (readable_spelling hwords).map_text
  rw [toList_spelling h] at htexts
  exact (List.map_inj_right fun _ _ => Path.text_injective).1 htexts

theorem paths_spelling_perm (h : paths.Nodup) : (spelling paths).paths.Perm paths :=
  (List.perm_ext_iff_of_nodup (nodup_paths _) h).2 fun _ => mem_paths_spelling hwords

theorem size_spelling (h : paths.Nodup) : (spelling paths).size = paths.length := by
  rw [← (paths_spelling_perm hwords h).length_eq, ← List.length_map Path.text,
    (readable_spelling hwords).map_text]
  rfl

/-- Paths in the order of their positions are the order in which they are played. -/
theorem siblings_spelling {label : Label} (hmem : ∀ p, p ∈ paths' ↔ p ∈ paths ∧ p.root = label)
    (h : (paths'.map Path.position).Pairwise (· < ·)) :
    Path.siblings (spelling paths).paths label = paths' := by
  rw [List.pairwise_map] at h
  have hnodup : paths'.Nodup := by
    refine h.imp fun {p q} hlt heq => ?_
    rw [heq] at hlt
    exact Nat.lt_irrefl _ hlt
  have hsorted : paths'.Pairwise fun p q => p.notAfter q = true := by
    refine h.imp fun {p q} hlt => ?_
    rw [Path.notAfter, decide_eq_true hlt, Bool.true_or]
  -- Both lists are sorted and hold the same paths, which leaves no choice.
  refine Path.eq_of_notAfter (fun p => ?_) (Path.nodup_siblings (nodup_paths _)) hnodup
    (Path.pairwise_siblings _ _) hsorted
  rw [Path.mem_siblings, mem_paths_spelling hwords, hmem]

end Words

end Rows

theorem Tree.toRows_eq_spelling (t : Tree) : t.toRows = Rows.spelling t.paths :=
  KeyedList.ext_mem fun _ => by rw [mem_toRows, Rows.mem_spelling]

end Playlists
