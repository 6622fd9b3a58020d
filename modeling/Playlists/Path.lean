import Playlists.Label
import Playlists.Text.Fields
import Playlists.Text.Numeral

/-!
# `Path.lean` — the path of an entry and its one text

An entry of a playlist is stored as a row `root.kind.item.position`: the playlist that holds it,
what it points at, the item, and its position among its siblings. `Path` is such a row read, with
labels for the names. `Path.text` writes it and `Path.decode` reads it.

The text decides everything that is ever compared: equality, and the order of rows, which is the
order of their characters. Positions are therefore not compared as numbers when rows are listed,
and `P.track.T.10` comes before `P.track.T.2`.

A position is a natural number here, so that renumbering siblings never has to ask how many there
are. In a row it has to fit into a machine word, and `decode` refuses one that does not.

`decode_text` and `text_of_decode` say that writing and reading undo each other,
`text_injective` that different paths have different texts, and `occursIn_text_iff` what a search
for a kind and an item finds in a row.
-/

set_option autoImplicit false

namespace Playlists

/-- The path of an entry. -/
structure Path where
  root : Label
  kind : Kind
  item : Label
  position : Nat
  deriving DecidableEq

namespace Path

def fields (p : Path) : List String :=
  [p.root.text, p.kind.name, p.item.text, String.ofList (Text.numeral p.position)]

def text (p : Path) : String :=
  Text.join p.fields

/-- The path of an entry with the given names, which have to be labels. The root is read first. -/
def create (root : String) (kind : Kind) (item : String) (position : Nat) :
    Except Failure Path := do
  let root ← Label.read root
  let item ← Label.read item
  return ⟨root, kind, item, position⟩

/-! ## Reading a row -/

def readKind (s : String) : Except Failure Kind :=
  match Kind.ofName? s with
  | some kind => .ok kind
  | none => .error (.unknownKind s)

/-- Reads the position of `row` from its last field: a canonical decimal numeral that fits into a
machine word. -/
def readPosition (digits row : String) : Except Failure Nat :=
  if Text.isNumeral digits.toList then
    -- Only a text that is a numeral can be too large for a word.
    if Text.numeralValue digits.toList < UInt64.size then
      .ok (Text.numeralValue digits.toList)
    else .error (.positionOverflow row)
  else .error (.badPosition digits row)

/-- Reads a row. The number of fields is looked at first, then the two labels, then the kind, then
the position; the first of them that is bad decides the failure. -/
def decode (row : String) : Except Failure Path :=
  match Text.fields row with
  | [root, kind, item, position] => do
    let root ← Label.read root
    let item ← Label.read item
    let kind ← readKind kind
    let position ← readPosition position row
    return ⟨root, kind, item, position⟩
  | _ => .error (.fieldCount row)

/-! ## Parts and relatives of a path -/

def withPosition (p : Path) (position : Nat) : Path :=
  { p with position }

def isUnder (p : Path) (label : String) : Bool :=
  p.root.text == label

/-- Whether two paths name the same kind of item under the same root, so that at most the position
tells them apart. -/
def sameEntry (p q : Path) : Bool :=
  p.root == q.root && p.kind == q.kind && p.item == q.item

def compare (p q : Path) : Ordering :=
  if p.text < q.text then .lt else if q.text < p.text then .gt else .eq

def sorted (paths : List Path) : List Path :=
  paths.mergeSort fun p q => decide (p.text ≤ q.text)

/-- How the rows of all direct children of a playlist begin. -/
def childPrefix (label : String) : String :=
  label ++ "."

theorem create_eq_ok_iff {root item : String} {kind : Kind} {position : Nat} {p : Path} :
    create root kind item position = .ok p ↔
      p.root.text = root ∧ p.kind = kind ∧ p.item.text = item ∧ p.position = position := by
  constructor
  · intro h
    obtain ⟨r, hr, h⟩ := Failure.bind_eq_ok_iff.1 h
    obtain ⟨i, hi, h⟩ := Failure.bind_eq_ok_iff.1 h
    cases h
    exact ⟨Label.text_of_read hr, rfl, Label.text_of_read hi, rfl⟩
  · rintro ⟨rfl, rfl, rfl, rfl⟩
    rw [create, Label.read_text, Label.read_text]
    rfl

/-! ## Writing and reading undo each other -/

theorem dot_not_mem_fields (p : Path) : ∀ field ∈ p.fields, '.' ∉ field.toList := by
  intro field h
  simp only [fields, List.mem_cons, List.not_mem_nil, or_false] at h
  rcases h with rfl | rfl | rfl | rfl
  · exact p.root.dot_not_mem
  · exact p.kind.dot_not_mem_name
  · exact p.item.dot_not_mem
  · intro hdot
    rw [String.toList_ofList] at hdot
    exact absurd (Text.isDigit_of_mem_numeral hdot) (by decide)

theorem fields_text (p : Path) : Text.fields p.text = p.fields :=
  Text.fields_join (by simp [fields]) p.dot_not_mem_fields

theorem decode_text {p : Path} (h : p.position < UInt64.size) : decode p.text = .ok p := by
  have hpos : readPosition (String.ofList (Text.numeral p.position)) p.text = .ok p.position := by
    simp [readPosition, Text.isNumeral_numeral, Text.numeralValue_numeral, h]
  have hkind : readKind p.kind.name = .ok p.kind := by
    simp [readKind]
  rw [decode, fields_text]
  simp only [fields, Label.read_text, hkind, hpos]
  rfl

theorem readPosition_eq_ok {digits row : String} {n : Nat} (h : readPosition digits row = .ok n) :
    n < UInt64.size ∧ String.ofList (Text.numeral n) = digits := by
  unfold readPosition at h
  split at h
  · next hnum =>
    split at h
    · next hlt =>
      cases h
      exact ⟨hlt, by rw [Text.numeral_numeralValue hnum, String.ofList_toList]⟩
    · cases h
  · cases h

theorem readKind_eq_ok {s : String} {kind : Kind} (h : readKind s = .ok kind) : s = kind.name := by
  unfold readKind at h
  split at h
  · next hk =>
    cases h
    exact Kind.ofName?_eq_some_iff.1 hk
  · cases h

theorem text_of_decode {row : String} {p : Path} (h : decode row = .ok p) :
    p.text = row ∧ p.position < UInt64.size := by
  unfold decode at h
  split at h
  · next root kind item position hfields =>
    obtain ⟨r, hr, h⟩ := Failure.bind_eq_ok_iff.1 h
    obtain ⟨i, hi, h⟩ := Failure.bind_eq_ok_iff.1 h
    obtain ⟨k, hk, h⟩ := Failure.bind_eq_ok_iff.1 h
    obtain ⟨n, hn, h⟩ := Failure.bind_eq_ok_iff.1 h
    cases h
    obtain ⟨hlt, hdigits⟩ := readPosition_eq_ok hn
    refine ⟨?_, hlt⟩
    rw [text, fields, Label.text_of_read hr, Label.text_of_read hi, ← readKind_eq_ok hk, hdigits,
      ← hfields, Text.join_fields]
  · cases h

theorem text_injective {p q : Path} (h : p.text = q.text) : p = q := by
  have hf : p.fields = q.fields := by rw [← fields_text, ← fields_text, h]
  simp only [fields, List.cons.injEq, and_true] at hf
  obtain ⟨hroot, hkind, hitem, hpos⟩ := hf
  have hk : p.kind = q.kind := by
    have := congrArg Kind.ofName? hkind
    simpa using this
  have hn : p.position = q.position := by
    have := congrArg (fun s => Text.numeralValue s.toList) hpos
    simpa [Text.numeralValue_numeral] using this
  cases p
  cases q
  simp only [mk.injEq]
  exact ⟨Label.ext_text hroot, hk, Label.ext_text hitem, hn⟩

/-! ## What a row begins with and what occurs in it -/

theorem null_not_mem_text (p : Path) : '\x00' ∉ p.text.toList := by
  have hlabel : ∀ l : Label, '\x00' ∉ l.text.toList := fun l h =>
    absurd (l.wellFormed _ h) (by decide)
  have hkind : '\x00' ∉ p.kind.name.toList := by
    cases p.kind <;> decide
  have hposition : '\x00' ∉ Text.numeral p.position := fun h =>
    absurd (Text.isDigit_of_mem_numeral h) (by decide)
  rw [text, fields, Text.toList_join_four]
  simp [hlabel, hkind, hposition]

/-- The rows that begin with a label and a dot are those of its children. A text that holds a dot is
no label, and rows may begin with it all the same. -/
theorem hasPrefix_childPrefix_iff {label : String} (h : '.' ∉ label.toList) (p : Path) :
    Text.hasPrefix (childPrefix label) p.text = true ↔ p.root.text = label := by
  rw [Text.hasPrefix_iff, childPrefix, String.toList_append, text, fields, Text.toList_join_four]
  constructor
  · intro hlead
    have hlabel := Text.eq_of_append_separator_prefix h p.root.dot_not_mem hlead
    exact (String.toList_injective hlabel).symm
  · intro hroot
    rw [hroot]
    exact ⟨p.kind.name.toList ++ ('.' :: p.item.text.toList ++
      ('.' :: (String.ofList (Text.numeral p.position)).toList)), by simp⟩

theorem hasPrefix_childPrefix_eq {label : String} (h : '.' ∉ label.toList) (p : Path) :
    Text.hasPrefix (childPrefix label) p.text = p.isUnder label := by
  rw [Bool.eq_iff_iff, isUnder, beq_iff_eq]
  exact hasPrefix_childPrefix_iff h p

theorem count_dot_text (p : Path) : p.text.toList.count '.' = 3 := by
  have hzero : ∀ field ∈ p.fields, field.toList.count '.' = 0 := fun field h =>
    List.count_eq_zero.2 (p.dot_not_mem_fields field h)
  simp only [fields, List.mem_cons, List.not_mem_nil, or_false, forall_eq_or_imp,
    forall_eq] at hzero
  obtain ⟨hroot, hkind, hitem, hposition⟩ := hzero
  rw [text, fields, Text.toList_join_four]
  simp only [List.count_append, List.count_cons_self, hroot, hkind, hitem, hposition]

/-- Two names with dots around them occur in a row only as its kind and its item: all dots of the
row are needed for them. -/
theorem occursIn_text_iff {a b : String} (ha : '.' ∉ a.toList) (p : Path) :
    Text.occursIn ("." ++ a ++ "." ++ b ++ ".") p.text = true ↔
      a = p.kind.name ∧ b = p.item.text := by
  rw [Text.occursIn_iff]
  constructor
  · rintro ⟨u, v, huv⟩
    have hparts : p.text = Text.join [String.ofList u, a, b, String.ofList v] := by
      apply String.toList_injective
      rw [← huv, Text.toList_join_four]
      simp
    -- A path has three dots, and the part that is looked for has brought all of them. So none is
    -- left for the ends, and the four pieces are the fields.
    have hcount := p.count_dot_text
    rw [hparts, Text.toList_join_four] at hcount
    simp only [List.count_append, List.count_cons_self, String.toList_ofList] at hcount
    have hdots : ∀ part ∈ [String.ofList u, a, b, String.ofList v], '.' ∉ part.toList := by
      intro part hpart
      simp only [List.mem_cons, List.not_mem_nil, or_false] at hpart
      rcases hpart with rfl | rfl | rfl | rfl
      · rw [String.toList_ofList]
        exact List.count_eq_zero.1 (by omega)
      · exact ha
      · exact List.count_eq_zero.1 (by omega)
      · rw [String.toList_ofList]
        exact List.count_eq_zero.1 (by omega)
    have hfields := Text.fields_join (by simp) hdots
    rw [← hparts, fields_text, fields] at hfields
    simp only [List.cons.injEq] at hfields
    exact ⟨hfields.2.1.symm, hfields.2.2.1.symm⟩
  · rintro ⟨rfl, rfl⟩
    refine ⟨p.root.text.toList, Text.numeral p.position, ?_⟩
    rw [text, fields, Text.toList_join_four]
    simp

end Path

end Playlists
