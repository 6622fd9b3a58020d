/-!
# `Text/Fields.lean` — dotted text and the parts of it that a search looks for

Stored rows are texts whose fields are separated by dots, and the rows are looked up in three
ways: by their fields, by how they begin, and by what occurs in them. This module holds those
three readings of a text. All of them work on the characters of the text, since that is the order
in which rows are compared.

`join_fields` and `fields_join` say that splitting at the dots and joining with dots undo each
other, so a text is as good as the list of its fields. `hasPrefix_iff` and `occursIn_iff` say that
the two searches find what the words prefix and infix mean. `beginsCut` is the search for a prefix
as a table does it.
-/

set_option autoImplicit false

namespace Playlists.Text

/-- The pieces of a text between its dots. A text without a dot is its own only field, and so is
the empty text. -/
def fields (s : String) : List String :=
  (s.toList.splitOn '.').map String.ofList

def join (parts : List String) : String :=
  ".".intercalate parts

def hasPrefix (lead s : String) : Bool :=
  lead.toList.isPrefixOf s.toList

/-- Whether the first characters of `s`, as many as `lead` has, are `lead`. Characters are counted
up to the first null character, as a table does. -/
def beginsCut (lead s : String) : Bool :=
  s.toList.take (lead.toList.idxOf '\x00') == lead.toList

/-- Whether the characters of `part` occur in a row somewhere in a list. -/
def occursAmong (part : List Char) : List Char → Bool
  | [] => part.isEmpty
  | c :: rest => part.isPrefixOf (c :: rest) || occursAmong part rest

def occursIn (part s : String) : Bool :=
  occursAmong part.toList s.toList

/-! ## Splitting and joining undo each other -/

theorem join_fields (s : String) : join (fields s) = s := by
  apply String.toList_injective
  have h : String.toList ∘ String.ofList = id := String.toList_comp_ofList
  rw [join, String.toList_intercalate, fields, List.map_map, h, List.map_id]
  exact List.intercalate_splitOn '.'

theorem fields_join {parts : List String} (hne : parts ≠ [])
    (hdot : ∀ part ∈ parts, '.' ∉ part.toList) : fields (join parts) = parts := by
  have h : List.splitOn '.' (['.'].intercalate (parts.map String.toList))
      = parts.map String.toList := by
    apply List.splitOn_intercalate
    · intro l hl
      obtain ⟨part, hp, rfl⟩ := List.mem_map.1 hl
      exact hdot part hp
    · simpa using hne
  have hof : String.ofList ∘ String.toList = id := funext fun s => String.ofList_toList
  rw [fields, join, String.toList_intercalate]
  show List.map String.ofList (List.splitOn '.' (['.'].intercalate _)) = parts
  rw [h, List.map_map, hof, List.map_id]

theorem hasPrefix_iff {lead s : String} :
    hasPrefix lead s = true ↔ lead.toList <+: s.toList := by
  simp [hasPrefix]

/-- The two ways to ask how a text begins agree where no null character is in it. -/
theorem beginsCut_eq_hasPrefix {lead s : String} (h : '\x00' ∉ s.toList) :
    beginsCut lead s = hasPrefix lead s := by
  rw [Bool.eq_iff_iff, beginsCut, beq_iff_eq, hasPrefix_iff]
  constructor
  · intro hcut
    rw [← hcut]
    exact List.take_prefix _ _
  · intro hlead
    rw [List.idxOf_eq_length fun hnull => h (hlead.mem hnull)]
    exact (List.prefix_iff_eq_take.1 hlead).symm

/-- A field with the separator behind it begins a text only as its first field. -/
theorem eq_of_append_separator_prefix {a b c : List Char} {d : Char} (ha : d ∉ a) (hb : d ∉ b)
    (h : a ++ [d] <+: b ++ d :: c) : a = b := by
  induction a generalizing b with
  | nil =>
    cases b with
    | nil => rfl
    | cons y b =>
      rw [List.nil_append, List.cons_append, List.cons_prefix_cons] at h
      exact absurd (h.1 ▸ List.mem_cons_self) hb
  | cons x a ih =>
    cases b with
    | nil =>
      rw [List.cons_append, List.nil_append, List.cons_prefix_cons] at h
      exact absurd (h.1 ▸ List.mem_cons_self) ha
    | cons y b =>
      rw [List.cons_append, List.cons_append, List.cons_prefix_cons] at h
      rw [h.1, ih (fun hd => ha (List.mem_cons_of_mem _ hd))
        (fun hd => hb (List.mem_cons_of_mem _ hd)) h.2]

theorem occursAmong_iff {part row : List Char} :
    occursAmong part row = true ↔ part <:+: row := by
  induction row with
  | nil => simp [occursAmong]
  | cons c rest ih => simp [occursAmong, List.infix_cons_iff, ih]

theorem occursIn_iff {part s : String} :
    occursIn part s = true ↔ part.toList <:+: s.toList :=
  occursAmong_iff

/-- The characters of a text of four fields. -/
theorem toList_join_four (a b c d : String) :
    (join [a, b, c, d]).toList
      = a.toList ++ ('.' :: b.toList ++ ('.' :: c.toList ++ ('.' :: d.toList))) := by
  simp [join]

end Playlists.Text
