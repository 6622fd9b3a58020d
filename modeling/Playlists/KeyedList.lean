/-!
# `KeyedList.lean` — lists in the order of a key

Rows, the entries of a tree, re-keyed paths and the playlists of a store are all of one shape:
values with a text as key, at most one for each key, listed in the order of the keys. A
`KeyedList α key` is such a list, with the strict order of the keys as its only invariant; that no
key occurs twice is a part of it.

The list itself is the view. `mem_put`, `mem_erase` and `mem_filter` say what the operations do to
it, `find?_eq_some_iff` says what a look-up finds, and `ext_mem` that the values alone decide the
list, since there is only one order to put them in.
-/

set_option autoImplicit false

namespace Playlists

/-- A list whose keys ascend strictly. -/
structure KeyedList (α : Type) (key : α → String) where
  toList : List α
  ascending : toList.Pairwise fun a b => key a < key b

namespace KeyedList

variable {α : Type} {key : α → String}

/-! ## Operations -/

def empty : KeyedList α key :=
  ⟨[], .nil⟩

instance : Inhabited (KeyedList α key) := ⟨empty⟩

instance [DecidableEq α] : DecidableEq (KeyedList α key) := fun l m =>
  decidable_of_iff (l.toList = m.toList)
    ⟨fun h => by cases l; cases m; cases h; rfl, fun h => h ▸ rfl⟩

def size (l : KeyedList α key) : Nat :=
  l.toList.length

def isEmpty (l : KeyedList α key) : Bool :=
  l.toList.isEmpty

def find? (l : KeyedList α key) (k : String) : Option α :=
  l.toList.find? (key · == k)

def contains (l : KeyedList α key) (k : String) : Bool :=
  l.toList.any (key · == k)

/-- Puts a value at its place in an ascending list. A value of the same key makes room. -/
def place (key : α → String) (a : α) : List α → List α
  | [] => [a]
  | b :: rest =>
    if key a < key b then a :: b :: rest
    else if key b < key a then b :: place key a rest
    else a :: rest

theorem mem_of_mem_place {a b : α} {l : List α} (h : b ∈ place key a l) : b = a ∨ b ∈ l := by
  induction l with
  | nil => simpa [place] using h
  | cons c rest ih =>
    simp only [place] at h
    split at h
    · simpa using h
    · split at h
      · rcases List.mem_cons.1 h with rfl | h
        · simp
        · rcases ih h with h | h <;> simp [h]
      · rcases List.mem_cons.1 h with h | h <;> simp [h]

theorem pairwise_place (a : α) {l : List α} (hl : l.Pairwise fun a b => key a < key b) :
    (place key a l).Pairwise fun a b => key a < key b := by
  induction l with
  | nil => simp [place]
  | cons b rest ih =>
    rw [List.pairwise_cons] at hl
    simp only [place]
    split
    · next hab =>
      refine List.pairwise_cons.2 ⟨fun c hc => ?_, List.pairwise_cons.2 hl⟩
      rcases List.mem_cons.1 hc with rfl | hc
      · exact hab
      · exact String.lt_trans hab (hl.1 c hc)
    · split
      · next hba =>
        refine List.pairwise_cons.2 ⟨fun c hc => ?_, ih hl.2⟩
        rcases mem_of_mem_place hc with rfl | hc
        · exact hba
        · exact hl.1 c hc
      -- Neither key is below the other, so they are equal and the value takes the place of `b`.
      · next hab hba =>
        have heq : key a = key b := String.le_antisymm (String.not_lt.1 hba) (String.not_lt.1 hab)
        refine List.pairwise_cons.2 ⟨fun c hc => ?_, hl.2⟩
        rw [heq]
        exact hl.1 c hc

/-- Adds a value, in place of the one with the same key if there is one. -/
def put (l : KeyedList α key) (a : α) : KeyedList α key :=
  ⟨place key a l.toList, pairwise_place a l.ascending⟩

def filter (l : KeyedList α key) (p : α → Bool) : KeyedList α key :=
  ⟨l.toList.filter p, l.ascending.sublist List.filter_sublist⟩

def erase (l : KeyedList α key) (k : String) : KeyedList α key :=
  l.filter (key · != k)

/-- Adds values one after another; of two values with one key the later stays. -/
def putAll (l : KeyedList α key) (values : List α) : KeyedList α key :=
  values.foldl put l

/-- The values of a list, of two values with one key the later. -/
def ofList (values : List α) : KeyedList α key :=
  empty.putAll values

/-! ## What the operations do to the list -/

theorem ext_toList {l m : KeyedList α key} (h : l.toList = m.toList) : l = m := by
  cases l
  cases m
  cases h
  rfl

/-- Two values of one list that have the same key are the same. -/
theorem eq_of_key_eq (l : KeyedList α key) {a b : α} (ha : a ∈ l.toList) (hb : b ∈ l.toList)
    (h : key a = key b) : a = b := by
  have := l.ascending
  revert ha hb this
  induction l.toList with
  | nil => intro ha; cases ha
  | cons c rest ih =>
    intro ha hb hl
    rw [List.pairwise_cons] at hl
    rcases List.mem_cons.1 ha with rfl | ha'
    · rcases List.mem_cons.1 hb with rfl | hb'
      · rfl
      · exact absurd (h ▸ hl.1 b hb') (String.lt_irrefl _)
    · rcases List.mem_cons.1 hb with rfl | hb'
      · exact absurd (h ▸ hl.1 a ha') (String.lt_irrefl _)
      · exact ih ha' hb' hl.2

theorem find?_eq_some_iff {l : KeyedList α key} {k : String} {a : α} :
    l.find? k = some a ↔ a ∈ l.toList ∧ key a = k := by
  constructor
  · intro h
    exact ⟨List.mem_of_find?_eq_some h, by simpa using List.find?_some h⟩
  · rintro ⟨ha, hk⟩
    cases hf : l.find? k with
    | none =>
      have := List.find?_eq_none.1 hf a ha
      simp [hk] at this
    | some b =>
      have hb := List.mem_of_find?_eq_some hf
      have hbk : key b = k := by simpa using List.find?_some hf
      rw [l.eq_of_key_eq ha hb (hk.trans hbk.symm)]

theorem find?_eq_none_iff {l : KeyedList α key} {k : String} :
    l.find? k = none ↔ ∀ a ∈ l.toList, key a ≠ k := by
  simp [find?, List.find?_eq_none]

theorem contains_iff {l : KeyedList α key} {k : String} :
    l.contains k = true ↔ ∃ a ∈ l.toList, key a = k := by
  simp [contains]

theorem mem_place {a b : α} {l : List α} (hl : l.Pairwise fun a b => key a < key b) :
    b ∈ place key a l ↔ b = a ∨ b ∈ l ∧ key b ≠ key a := by
  induction l with
  | nil => simp [place]
  | cons c rest ih =>
    rw [List.pairwise_cons] at hl
    simp only [place]
    split
    · next hac =>
      constructor
      · intro h
        rcases List.mem_cons.1 h with rfl | h
        · exact .inl rfl
        · refine .inr ⟨h, fun heq => ?_⟩
          rcases List.mem_cons.1 h with rfl | h
          · exact absurd (heq ▸ hac) (String.lt_irrefl _)
          · exact absurd (heq ▸ String.lt_trans hac (hl.1 b h)) (String.lt_irrefl _)
      · rintro (rfl | ⟨h, -⟩)
        · exact List.mem_cons_self
        · exact List.mem_cons_of_mem _ h
    · split
      · next hca =>
        rw [List.mem_cons, ih hl.2, List.mem_cons]
        constructor
        · rintro (rfl | rfl | ⟨h, hne⟩)
          · exact .inr ⟨.inl rfl, fun heq => absurd (heq ▸ hca) (String.lt_irrefl _)⟩
          · exact .inl rfl
          · exact .inr ⟨.inr h, hne⟩
        · rintro (rfl | ⟨rfl | h, hne⟩)
          · exact .inr (.inl rfl)
          · exact .inl rfl
          · exact .inr (.inr ⟨h, hne⟩)
      -- The keys are equal. What is replaced is then the only value that leaves the list.
      · next hac hca =>
        have heq : key a = key c := String.le_antisymm (String.not_lt.1 hca) (String.not_lt.1 hac)
        rw [List.mem_cons, List.mem_cons]
        constructor
        · rintro (rfl | h)
          · exact .inl rfl
          · refine .inr ⟨.inr h, fun hb => ?_⟩
            exact absurd (heq ▸ hb ▸ hl.1 b h) (String.lt_irrefl _)
        · rintro (rfl | ⟨rfl | h, hne⟩)
          · exact .inl rfl
          · exact absurd heq.symm hne
          · exact .inr h

theorem mem_put {l : KeyedList α key} {a b : α} :
    b ∈ (l.put a).toList ↔ b = a ∨ b ∈ l.toList ∧ key b ≠ key a :=
  mem_place l.ascending

theorem mem_filter {l : KeyedList α key} {p : α → Bool} {b : α} :
    b ∈ (l.filter p).toList ↔ b ∈ l.toList ∧ p b = true :=
  List.mem_filter

theorem mem_erase {l : KeyedList α key} {k : String} {b : α} :
    b ∈ (l.erase k).toList ↔ b ∈ l.toList ∧ key b ≠ k := by
  simp [erase, mem_filter]

theorem mem_empty {b : α} : ¬b ∈ (empty : KeyedList α key).toList :=
  List.not_mem_nil

/-- The values decide the list. -/
theorem ext_mem {l m : KeyedList α key} (h : ∀ a, a ∈ l.toList ↔ a ∈ m.toList) : l = m := by
  apply ext_toList
  have hl := l.ascending
  have hm := m.ascending
  revert hl hm h
  generalize l.toList = xs
  generalize m.toList = ys
  induction xs generalizing ys with
  | nil =>
    intro h _ _
    cases ys with
    | nil => rfl
    | cons b rest => exact absurd ((h b).2 List.mem_cons_self) List.not_mem_nil
  | cons a rest ih =>
    intro h hl hm
    cases ys with
    | nil => exact absurd ((h a).1 List.mem_cons_self) List.not_mem_nil
    | cons b rest' =>
      rw [List.pairwise_cons] at hl hm
      -- Each head has the least key of its list, and each is in the other list.
      have hab : a = b := by
        rcases List.mem_cons.1 ((h a).1 List.mem_cons_self) with hab | ha
        · exact hab
        · rcases List.mem_cons.1 ((h b).2 List.mem_cons_self) with hba | hb
          · exact hba.symm
          · exact absurd (String.lt_trans (hm.1 a ha) (hl.1 b hb)) (String.lt_irrefl _)
      subst hab
      congr 1
      refine ih rest' (fun c => ?_) hl.2 hm.2
      have hc := h c
      rw [List.mem_cons, List.mem_cons] at hc
      constructor
      · intro hmem
        rcases hc.1 (.inr hmem) with rfl | hmem'
        · exact absurd (hl.1 c hmem) (String.lt_irrefl _)
        · exact hmem'
      · intro hmem
        rcases hc.2 (.inr hmem) with rfl | hmem'
        · exact absurd (hm.1 c hmem) (String.lt_irrefl _)
        · exact hmem'

/-! ## No value occurs twice -/

theorem nodup_keys (l : KeyedList α key) : (l.toList.map key).Nodup := by
  rw [List.Nodup, List.pairwise_map]
  refine l.ascending.imp fun {a b} hab heq => ?_
  exact absurd (heq ▸ hab) (String.lt_irrefl _)

theorem nodup (l : KeyedList α key) : l.toList.Nodup :=
  List.Pairwise.of_map key (fun _ _ hne heq => hne (heq ▸ rfl)) l.nodup_keys

/-! ## Many values at once -/

/-- Values that are added stand beside those of other keys. The same value may come twice, but no two
different ones of one key. -/
theorem mem_putAll_of_inj {l : KeyedList α key} {values : List α} {b : α}
    (hkeys : ∀ v ∈ values, ∀ w ∈ values, key v = key w → v = w) :
    b ∈ (l.putAll values).toList ↔ b ∈ values ∨ b ∈ l.toList ∧ ∀ v ∈ values, key b ≠ key v := by
  induction values generalizing l with
  | nil => simp [putAll]
  | cons v rest ih =>
    have hrest : ∀ w ∈ rest, ∀ x ∈ rest, key w = key x → w = x := fun w hw x hx =>
      hkeys w (List.mem_cons_of_mem _ hw) x (List.mem_cons_of_mem _ hx)
    show b ∈ ((l.put v).putAll rest).toList ↔ _
    rw [ih hrest, mem_put]
    constructor
    · rintro (hmem | ⟨rfl | ⟨hl, hne⟩, hall⟩)
      · exact .inl (List.mem_cons_of_mem _ hmem)
      · exact .inl List.mem_cons_self
      · refine .inr ⟨hl, fun w hw => ?_⟩
        rcases List.mem_cons.1 hw with rfl | hw
        · exact hne
        · exact hall w hw
    · rintro (hmem | ⟨hl, hall⟩)
      -- A value that comes once more later is put again, so only its last time counts.
      · by_cases hagain : b ∈ rest
        · exact .inl hagain
        · obtain rfl := (List.mem_cons.1 hmem).resolve_right hagain
          refine .inr ⟨.inl rfl, fun w hw heq => hagain ?_⟩
          exact hkeys b hmem w (List.mem_cons_of_mem _ hw) heq ▸ hw
      · exact .inr ⟨.inr ⟨hl, hall v List.mem_cons_self⟩,
          fun w hw => hall w (List.mem_cons_of_mem _ hw)⟩

theorem mem_putAll {l : KeyedList α key} {values : List α} {b : α}
    (hkeys : (values.map key).Nodup) :
    b ∈ (l.putAll values).toList ↔ b ∈ values ∨ b ∈ l.toList ∧ ∀ v ∈ values, key b ≠ key v := by
  have hne : values.Pairwise fun v w => key v ≠ key w := List.pairwise_map.1 hkeys
  refine mem_putAll_of_inj fun v hv w hw => ?_
  refine List.Pairwise.forall_of_forall_of_flip (R := fun v w => key v = key w → v = w)
    (fun _ _ _ => rfl) (hne.imp fun h heq => absurd heq h)
    (hne.imp fun h heq => absurd heq.symm h) hv hw

theorem mem_ofList {values : List α} {b : α} (hkeys : (values.map key).Nodup) :
    b ∈ (ofList values : KeyedList α key).toList ↔ b ∈ values := by
  rw [ofList, mem_putAll hkeys]
  exact or_iff_left fun h => mem_empty h.1

theorem ofList_perm {values : List α} (hkeys : (values.map key).Nodup) :
    (ofList values : KeyedList α key).toList.Perm values := by
  refine (List.perm_ext_iff_of_nodup (nodup _) ?_).2 fun _ => mem_ofList hkeys
  exact List.Pairwise.of_map key (fun _ _ hne heq => hne (heq ▸ rfl)) hkeys

/-- Values that are in order already stay as they are. -/
theorem toList_ofList {values : List α} (h : values.Pairwise fun a b => key a < key b) :
    (ofList values : KeyedList α key).toList = values := by
  have hkeys : (values.map key).Nodup := nodup_keys ⟨values, h⟩
  have heq : ofList values = (⟨values, h⟩ : KeyedList α key) :=
    ext_mem fun _ => mem_ofList hkeys
  rw [heq]

theorem mem_texts_putAll {l : KeyedList String id} {values : List String} {s : String} :
    s ∈ (l.putAll values).toList ↔ s ∈ values ∨ s ∈ l.toList := by
  rw [mem_putAll_of_inj fun _ _ _ _ heq => heq]
  by_cases hs : s ∈ values
  · simp [hs]
  · have hne : ∀ v ∈ values, s ≠ v := fun v hv (heq : s = v) => hs (heq ▸ hv)
    exact or_congr_right (and_iff_left hne)

theorem mem_texts_ofList {values : List String} {s : String} :
    s ∈ (ofList values : KeyedList String id).toList ↔ s ∈ values := by
  rw [ofList, mem_texts_putAll]
  exact or_iff_left mem_empty

/-! ## Sizes -/

/-- The values that pass a test and those that do not are together all of them. -/
theorem size_filter_add_size_filter_not (l : KeyedList α key) (p : α → Bool) :
    (l.filter p).size + (l.filter fun a => !p a).size = l.size := by
  simp only [size, filter]
  induction l.toList with
  | nil => rfl
  | cons a rest ih => cases h : p a <;> simp [h] <;> omega

theorem size_put_of_not_contains {l : KeyedList α key} {a : α} (h : ∀ b ∈ l.toList, key b ≠ key a) :
    (l.put a).size = l.size + 1 := by
  have hperm : (l.put a).toList.Perm (a :: l.toList) := by
    refine (List.perm_ext_iff_of_nodup (nodup _) ?_).2 fun b => ?_
    · exact List.nodup_cons.2 ⟨fun ha => h a ha rfl, l.nodup⟩
    · rw [mem_put, List.mem_cons]
      exact or_congr_right ⟨And.left, fun hb => ⟨hb, h b hb⟩⟩
  rw [size, hperm.length_eq, List.length_cons, size]

theorem size_erase_of_mem {l : KeyedList α key} {a : α} (h : a ∈ l.toList) :
    (l.erase (key a)).size + 1 = l.size := by
  have hback : (l.erase (key a)).put a = l := by
    refine ext_mem fun b => ?_
    rw [mem_put, mem_erase, and_assoc, and_self]
    constructor
    · rintro (rfl | ⟨hb, -⟩)
      · exact h
      · exact hb
    · intro hb
      by_cases hkey : key b = key a
      · exact .inl (l.eq_of_key_eq hb h hkey)
      · exact .inr ⟨hb, hkey⟩
  rw [← size_put_of_not_contains fun b hb => (mem_erase.1 hb).2, hback]

end KeyedList

end Playlists
