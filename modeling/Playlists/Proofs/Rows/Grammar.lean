import Mathlib
import Playlists.Path

/-!
# `Proofs/Rows/Grammar.lean` — rows spell paths, and nothing else does

A row is a label, a kind, a label and a position with dots between them. `Text.IsRow` is that
grammar, spelled out in characters: which of them a label may hold, and what a decimal numeral
without leading zeros is. It mentions none of the functions that read and write rows, so they can be
held against it:

* `Label.exists_read_iff`, `Path.exists_create_iff` — a path is made of any two labels, and of
  nothing that is no label;
* `Path.exists_decode_iff` — the texts that can be read are the rows of the grammar;
* `Path.Built.text_eq` — however a path came about, the text it came with is its parts with dots
  between them.

Writing and reading undo each other (`Path.decode_text`, `Path.text_of_decode`), so paths and rows
are one thing in two forms (`Path.rows_spell_paths`).
-/

set_option autoImplicit false

namespace Playlists

/-! ## The grammar -/

namespace Text

/-- A text over `[A-Za-z0-9_-]` with a character in it. -/
structure IsLabel (s : String) : Prop where
  nonempty : s ≠ ""
  characters : ∀ c ∈ s.toList,
    'A' ≤ c ∧ c ≤ 'Z' ∨ 'a' ≤ c ∧ c ≤ 'z' ∨ '0' ≤ c ∧ c ≤ '9' ∨ c = '_' ∨ c = '-'

/-- A decimal numeral without leading zeros. -/
structure IsDecimal (s : String) : Prop where
  nonempty : s ≠ ""
  characters : ∀ c ∈ s.toList, '0' ≤ c ∧ c ≤ '9'
  leading : s.toList.head? = some '0' → s = "0"

/-- A row: a label, a kind, a label and a numeral that denotes a machine word. -/
def IsRow (s : String) : Prop :=
  ∃ root kind item digits, IsLabel root ∧ (kind = "track" ∨ kind = "playlist") ∧ IsLabel item ∧
    IsDecimal digits ∧ Nat.ofDigitChars 10 digits.toList 0 ≤ 2 ^ 64 - 1 ∧
    s = root ++ "." ++ kind ++ "." ++ item ++ "." ++ digits

theorem isDecimal_iff {s : String} : IsDecimal s ↔ isNumeral s.toList = true := by
  have hempty : s = "" ↔ s.toList = [] := String.toList_eq_nil_iff.symm
  have hzero : s = "0" ↔ s.toList = ['0'] := String.toList_inj.symm
  rw [isNumeral_iff]
  constructor
  · intro h
    exact ⟨mt hempty.2 h.nonempty, fun c hc => isDigit_iff.2 (h.characters c hc),
      fun hlead => hzero.1 (h.leading hlead)⟩
  · rintro ⟨hne, hover, hlead⟩
    exact ⟨mt hempty.1 hne, fun c hc => isDigit_iff.1 (hover c hc), fun h => hzero.2 (hlead h)⟩

end Text

open Text

/-- A text can be read as a label if it is one. -/
theorem Label.exists_read_iff {s : String} : (∃ l, Label.read s = .ok l) ↔ IsLabel s := by
  constructor
  · rintro ⟨l, hl⟩
    obtain rfl := Label.text_of_read hl
    exact ⟨l.nonempty, fun c hc => isLabelCharacter_iff.1 (l.wellFormed c hc)⟩
  · intro h
    let label : Label := ⟨s, h.nonempty, fun c hc => isLabelCharacter_iff.2 (h.characters c hc)⟩
    exact ⟨label, label.read_text⟩

theorem Label.isLabel_text (l : Label) : IsLabel l.text :=
  Label.exists_read_iff.1 ⟨l, l.read_text⟩

namespace Path

/-- The parts of a path with dots between them. -/
def formatted (root : String) (kind : Kind) (item : String) (position : Nat) : String :=
  root ++ "." ++ kind.name ++ "." ++ item ++ "." ++ toString position

theorem text_eq_formatted (p : Path) :
    p.text = formatted p.root.text p.kind p.item.text p.position := by
  have hposition : toString p.position = String.ofList (numeral p.position) := rfl
  apply String.toList_injective
  rw [text, fields, toList_join_four, formatted, hposition]
  simp

/-- A path is made of any two labels, and of nothing that is no label. -/
theorem exists_create_iff {root item : String} {kind : Kind} {position : Nat} :
    (∃ p, create root kind item position = .ok p) ↔ IsLabel root ∧ IsLabel item := by
  constructor
  · rintro ⟨p, hp⟩
    obtain ⟨rfl, -, rfl, -⟩ := create_eq_ok_iff.1 hp
    exact ⟨p.root.isLabel_text, p.item.isLabel_text⟩
  · rintro ⟨hroot, hitem⟩
    obtain ⟨r, hr⟩ := Label.exists_read_iff.2 hroot
    obtain ⟨i, hi⟩ := Label.exists_read_iff.2 hitem
    exact ⟨⟨r, kind, i, position⟩,
      create_eq_ok_iff.2 ⟨Label.text_of_read hr, rfl, Label.text_of_read hi, rfl⟩⟩

/-- The row of a path is one of the grammar if its position is a machine word. -/
theorem isRow_text {p : Path} (h : p.position < UInt64.size) : IsRow p.text := by
  have hkind : p.kind.name = "track" ∨ p.kind.name = "playlist" := by
    cases p.kind
    · exact .inl rfl
    · exact .inr rfl
  have hdigits : (toString p.position).toList = numeral p.position := String.toList_ofList
  refine ⟨p.root.text, p.kind.name, p.item.text, toString p.position, p.root.isLabel_text, hkind,
    p.item.isLabel_text, ?_, ?_, p.text_eq_formatted⟩
  · rw [isDecimal_iff, hdigits]
    exact isNumeral_numeral _
  · rw [hdigits]
    show numeralValue (numeral p.position) ≤ 2 ^ 64 - 1
    rw [numeralValue_numeral]
    exact Nat.le_sub_one_of_lt h

/-- Every row of the grammar is the row of a path. -/
theorem exists_text_of_isRow {row : String} (h : IsRow row) :
    ∃ p : Path, p.position < UInt64.size ∧ p.text = row := by
  obtain ⟨root, kind, item, digits, hroot, hkind, hitem, hdigits, hle, rfl⟩ := h
  obtain ⟨r, hr⟩ := Label.exists_read_iff.2 hroot
  obtain ⟨i, hi⟩ := Label.exists_read_iff.2 hitem
  obtain ⟨k, rfl⟩ : ∃ k : Kind, k.name = kind := by
    rcases hkind with rfl | rfl
    · exact ⟨.track, rfl⟩
    · exact ⟨.playlist, rfl⟩
  refine ⟨⟨r, k, i, numeralValue digits.toList⟩, Nat.lt_of_le_pred (by decide) hle, ?_⟩
  -- Without leading zeros the digits are the one numeral of their value.
  have hposition : toString (numeralValue digits.toList) = digits := by
    show String.ofList (numeral (numeralValue digits.toList)) = digits
    rw [numeral_numeralValue (isDecimal_iff.1 hdigits), String.ofList_toList]
  rw [text_eq_formatted, formatted, Label.text_of_read hr, Label.text_of_read hi, hposition]

/-- The texts that can be read are the rows of the grammar. -/
theorem exists_decode_iff {row : String} : (∃ p, decode row = .ok p) ↔ IsRow row := by
  constructor
  · rintro ⟨p, hp⟩
    obtain ⟨rfl, hlt⟩ := text_of_decode hp
    exact isRow_text hlt
  · intro h
    obtain ⟨p, hlt, rfl⟩ := exists_text_of_isRow h
    exact ⟨p, decode_text hlt⟩

/-! ## How paths come about -/

/-- A path with the text that it came with: it is made of its parts and written, it is read from a
row, which is kept, or it is put at another position and written anew. -/
inductive Built : String → Path → Prop where
  | created {root item : String} {kind : Kind} {position : UInt64} {p : Path}
    (h : create root kind item position.toNat = .ok p) :
    Built (formatted root kind item position.toNat) p
  | read {row : String} {p : Path} (h : decode row = .ok p) : Built row p
  | moved {text : String} {p : Path} (h : Built text p) (position : UInt64) :
    Built (formatted p.root.text p.kind p.item.text position.toNat)
      (p.withPosition position.toNat)

/-- The text that a path came with is its row. -/
theorem Built.text_eq {row : String} {p : Path} (h : Built row p) : p.text = row := by
  cases h with
  | created h =>
    obtain ⟨rfl, rfl, rfl, hposition⟩ := create_eq_ok_iff.1 h
    rw [text_eq_formatted, hposition]
  | read h => exact (text_of_decode h).1
  | moved h position => exact text_eq_formatted _

theorem parts_eq_iff {p q : Path} : p.root.text = q.root.text ∧ p.kind = q.kind ∧
    p.item.text = q.item.text ∧ p.position = q.position ↔ p = q := by
  constructor
  · rintro ⟨hroot, hkind, hitem, hposition⟩
    cases p
    cases q
    cases Label.ext_text hroot
    cases Label.ext_text hitem
    cases hkind
    cases hposition
    rfl
  · rintro rfl
    exact ⟨rfl, rfl, rfl, rfl⟩

/-- **Rows and paths are one thing in two forms.** A path can be made of two labels and of nothing
else, and reading its row gives the same parts. A text can be read exactly if it is a row of the
grammar, and making a path of the parts that were read gives the same text. So every path, however
it came about, came with its parts as they are written, and two paths came with the same text
exactly if all their parts are the same. -/
theorem rows_spell_paths :
    (∀ (root : String) (kind : Kind) (item : String) (position : UInt64),
      ((∃ p, create root kind item position.toNat = .ok p) ↔ IsLabel root ∧ IsLabel item) ∧
      ∀ p, create root kind item position.toNat = .ok p →
        decode (formatted root kind item position.toNat) = .ok p ∧
          p.root.text = root ∧ p.kind = kind ∧ p.item.text = item ∧
          p.position = position.toNat) ∧
    (∀ row : String, ((∃ p, decode row = .ok p) ↔ IsRow row) ∧
      ∀ p, decode row = .ok p → p.position < 2 ^ 64 ∧
        create p.root.text p.kind p.item.text p.position = .ok p ∧ p.text = row) ∧
    (∀ row p, Built row p →
      p.text = row ∧ row = formatted p.root.text p.kind p.item.text p.position) ∧
    ∀ row p row' p', Built row p → Built row' p' →
      (row = row' ↔ p.root.text = p'.root.text ∧ p.kind = p'.kind ∧
        p.item.text = p'.item.text ∧ p.position = p'.position) := by
  refine ⟨fun root kind item position => ⟨exists_create_iff, fun p hp => ?_⟩,
    fun row => ⟨exists_decode_iff, fun p hp => ?_⟩, fun row p h => ?_, fun row p row' p' h h' => ?_⟩
  · have hparts := create_eq_ok_iff.1 hp
    have hlt : p.position < UInt64.size := hparts.2.2.2 ▸ position.toNat_lt_size
    rw [← (Built.created hp).text_eq]
    exact ⟨decode_text hlt, hparts⟩
  · obtain ⟨hrow, hlt⟩ := text_of_decode hp
    exact ⟨hlt, create_eq_ok_iff.2 ⟨rfl, rfl, rfl, rfl⟩, hrow⟩
  · exact ⟨h.text_eq, h.text_eq ▸ text_eq_formatted p⟩
  · rw [parts_eq_iff, ← h.text_eq, ← h'.text_eq]
    exact ⟨fun htext => text_injective htext, congrArg text⟩

end Path

end Playlists
