import Playlists.Failure

/-!
# `Label.lean` — the names of playlists and items

A label is a non-empty text over the ASCII letters and digits, the underscore and the hyphen. The
alphabet is what makes rows readable: no label holds a dot, so the fields of a row can be told
apart, and no label needs escaping, so rows sort and compare by their plain text.

`Label` carries the proof, and `Label.read` is the only way from a text to a label.
-/

set_option autoImplicit false

namespace Playlists

def isLabelCharacter (c : Char) : Bool :=
  c.isAlphanum || c == '_' || c == '-'

theorem isLabelCharacter_iff {c : Char} : isLabelCharacter c = true ↔
    'A' ≤ c ∧ c ≤ 'Z' ∨ 'a' ≤ c ∧ c ≤ 'z' ∨ '0' ≤ c ∧ c ≤ '9' ∨ c = '_' ∨ c = '-' := by
  unfold isLabelCharacter
  delta Char.isAlphanum Char.isAlpha Char.isUpper Char.isLower Char.isDigit
  simp [Char.le_def, or_assoc]

/-- The name of a playlist or an item. -/
structure Label where
  text : String
  nonempty : text ≠ ""
  wellFormed : ∀ c ∈ text.toList, isLabelCharacter c = true
  deriving DecidableEq

namespace Label

/-- Reads a label. Of several bad characters the first is reported. -/
def read (s : String) : Except Failure Label :=
  if hne : s = "" then .error .emptyLabel
  else
    match hbad : s.toList.find? (fun c => !isLabelCharacter c) with
    | some c => .error (.badLabelCharacter s c)
    | none => .ok ⟨s, hne, fun c hc => by simpa using List.find?_eq_none.1 hbad c hc⟩

theorem ext_text {a b : Label} (h : a.text = b.text) : a = b := by
  cases a
  cases b
  cases h
  rfl

theorem read_text (l : Label) : read l.text = .ok l := by
  unfold read
  rw [dif_neg l.nonempty]
  split
  · next c hbad =>
    have hmem := List.mem_of_find?_eq_some hbad
    have hc := List.find?_some hbad
    simp [l.wellFormed c hmem] at hc
  · rfl

theorem text_of_read {s : String} {l : Label} (h : read s = .ok l) : l.text = s := by
  unfold read at h
  split at h
  · cases h
  · split at h
    · cases h
    · cases h
      rfl

/-- No label holds the separator of the fields of a row. -/
theorem dot_not_mem (l : Label) : '.' ∉ l.text.toList := by
  intro h
  exact absurd (l.wellFormed '.' h) (by decide)

end Label

end Playlists
