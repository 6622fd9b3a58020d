import Playlists.Tree.Numbering
import Playlists.Proofs.Rows.Paths

/-!
# `Proofs/Tree/Siblings.lean` — the children of a playlist, as a set and as a sequence

`Tree.childrenOf` scans from where the prefix would stand to where it ends. That finds the entries
under a label and no others, because texts with one prefix stand next to each other
(`childrenOf_eq_filter`); the label has to be one, for a text with a dot in it is the beginning of
other rows too.

`Tree.siblings` puts them into the order they are played in. Positions may repeat, but paths do not,
so there is only one such sequence: whatever has the same entries and is in order is it
(`eq_siblings`). Every later lemma on siblings is a use of that. `Path.siblings` is the sequence
without the tree, for statements that are about rows.
-/

set_option autoImplicit false

namespace Playlists

/-! ## Texts with one prefix stand together -/

namespace Text

theorem not_lt_of_prefix {lead s : List Char} (h : lead <+: s) : ¬ s < lead := by
  obtain ⟨rest, rfl⟩ := h
  induction lead with
  | nil => exact List.not_lt_nil _
  | cons c lead ih =>
    intro hlt
    rw [List.cons_append, List.cons_lt_cons_iff] at hlt
    rcases hlt with hc | ⟨-, hlt⟩
    · exact Char.lt_irrefl _ hc
    · exact ih hlt

/-- What stands between a prefix and a text that has it has it too. -/
theorem prefix_of_between {lead a b : List Char} (hlead : ¬ a < lead) (hab : a < b)
    (hb : lead <+: b) : lead <+: a := by
  induction lead generalizing a b with
  | nil => exact List.nil_prefix
  | cons c lead ih =>
    obtain ⟨rest, rfl⟩ := hb
    cases a with
    | nil => exact absurd (List.nil_lt_cons c lead) hlead
    | cons d a =>
      rw [List.cons_append, List.cons_lt_cons_iff] at hab
      rw [List.cons_lt_cons_iff, not_or, not_and] at hlead
      rcases hab with hdc | ⟨rfl, hab⟩
      · exact absurd hdc hlead.1
      · rw [List.cons_prefix_cons]
        exact ⟨rfl, ih (hlead.2 rfl) hab ⟨rest, rfl⟩⟩

end Text

section Scan

variable {α : Type} {key : α → String} {lead : String}

theorem takeWhile_hasPrefix {l : List α} (hl : l.Pairwise fun a b => key a < key b)
    (hlead : ∀ a ∈ l, ¬ key a < lead) :
    (l.takeWhile fun a => Text.hasPrefix lead (key a))
      = l.filter fun a => Text.hasPrefix lead (key a) := by
  induction l with
  | nil => rfl
  | cons a rest ih =>
    rw [List.pairwise_cons] at hl
    by_cases ha : Text.hasPrefix lead (key a) = true
    · rw [List.takeWhile_cons, if_pos ha, List.filter_cons, if_pos ha,
        ih hl.2 fun b hb => hlead b (List.mem_cons_of_mem _ hb)]
    · rw [List.takeWhile_cons, if_neg ha, List.filter_cons, if_neg ha]
      -- A text without the prefix ends the run: if a later one had it, this one in between would
      -- too.
      refine (List.filter_eq_nil_iff.2 fun b hb hpre => ha ?_).symm
      rw [Text.hasPrefix_iff] at hpre ⊢
      exact Text.prefix_of_between (hlead a List.mem_cons_self) (hl.1 b hb) hpre

/-- Scanning an ascending list from the prefix on finds all that begin with it. -/
theorem scan_eq_filter {l : List α} (hl : l.Pairwise fun a b => key a < key b) :
    ((l.dropWhile fun a => decide (key a < lead)).takeWhile fun a => Text.hasPrefix lead (key a))
      = l.filter fun a => Text.hasPrefix lead (key a) := by
  induction l with
  | nil => rfl
  | cons a rest ih =>
    by_cases ha : key a < lead
    · have hnot : ¬ Text.hasPrefix lead (key a) = true := by
        rw [Text.hasPrefix_iff]
        exact fun hpre => Text.not_lt_of_prefix hpre ha
      rw [List.dropWhile_cons, if_pos (decide_eq_true ha), List.filter_cons, if_neg hnot,
        ih (List.pairwise_cons.1 hl).2]
    · rw [List.dropWhile_cons, if_neg (by simpa using ha)]
      refine takeWhile_hasPrefix hl fun b hb hlt => ?_
      rcases List.mem_cons.1 hb with rfl | hb
      · exact ha hlt
      · exact ha (String.lt_trans ((List.pairwise_cons.1 hl).1 b hb) hlt)

end Scan

namespace Tree

variable {t : Tree} {label : String}

/-- The children of a playlist are the entries that stand under its label. -/
theorem childrenOf_eq_filter (t : Tree) (h : '.' ∉ label.toList) :
    t.childrenOf label = t.toList.filter fun e => e.path.root.text == label := by
  rw [childrenOf, scan_eq_filter t.ascending]
  exact List.filter_congr fun e _ => e.path.hasPrefix_childPrefix_eq h

theorem mem_childrenOf (h : '.' ∉ label.toList) {e : Entry} :
    e ∈ t.childrenOf label ↔ e ∈ t.toList ∧ e.path.root.text = label := by
  rw [t.childrenOf_eq_filter h, List.mem_filter, beq_iff_eq]

theorem mem_of_mem_childrenOf {e : Entry} (he : e ∈ t.childrenOf label) : e ∈ t.toList :=
  (List.dropWhile_sublist _).subset ((List.takeWhile_sublist _).subset he)

/-! ## The order in which siblings are played -/

theorem notAfter_iff {a b : Entry} : a.notAfter b = true ↔
    a.node.position < b.node.position ∨ a.node.position = b.node.position ∧ a.key ≤ b.key := by
  simp [Entry.notAfter]

theorem notAfter_trans {a b c : Entry} (hab : a.notAfter b = true) (hbc : b.notAfter c = true) :
    a.notAfter c = true := by
  rw [notAfter_iff] at *
  rcases hab with hab | ⟨hab, hkab⟩
  · rcases hbc with hbc | ⟨hbc, -⟩ <;> left <;> omega
  · rcases hbc with hbc | ⟨hbc, hkbc⟩
    · left
      omega
    · exact .inr ⟨hab.trans hbc, String.le_trans hkab hkbc⟩

theorem notAfter_total (a b : Entry) : (a.notAfter b || b.notAfter a) = true := by
  rw [Bool.or_eq_true, notAfter_iff, notAfter_iff]
  rcases Nat.lt_trichotomy a.node.position b.node.position with hlt | heq | hgt
  · exact .inl (.inl hlt)
  · rcases String.le_total a.key b.key with hle | hle
    · exact .inl (.inr ⟨heq, hle⟩)
    · exact .inr (.inr ⟨heq.symm, hle⟩)
  · exact .inr (.inl hgt)

/-- Entries that come no later than each other have one key. -/
theorem key_eq_of_notAfter {a b : Entry} (hab : a.notAfter b = true) (hba : b.notAfter a = true) :
    a.key = b.key := by
  rw [notAfter_iff] at hab hba
  rcases hab with hab | ⟨heq, hkab⟩
  · rcases hba with hba | ⟨hba, -⟩ <;> omega
  · rcases hba with hba | ⟨-, hkba⟩
    · omega
    · exact String.le_antisymm hkab hkba

theorem siblings_perm (t : Tree) (label : String) : (t.siblings label).Perm (t.childrenOf label) :=
  List.mergeSort_perm _ _

theorem siblings_pairwise (t : Tree) (label : String) :
    (t.siblings label).Pairwise fun a b => a.notAfter b = true := by
  apply List.pairwise_mergeSort
  · intro a b c hab hbc
    exact notAfter_trans hab hbc
  · exact notAfter_total

theorem mem_siblings (h : '.' ∉ label.toList) {e : Entry} :
    e ∈ t.siblings label ↔ e ∈ t.toList ∧ e.path.root.text = label := by
  rw [(t.siblings_perm label).mem_iff, mem_childrenOf h]

theorem siblings_nodup (t : Tree) (h : '.' ∉ label.toList) : (t.siblings label).Nodup := by
  rw [(t.siblings_perm label).nodup_iff, t.childrenOf_eq_filter h]
  exact t.nodup.sublist List.filter_sublist

/-- There is only one way to put the children of a playlist into the order they are played in. -/
theorem eq_siblings (h : '.' ∉ label.toList) {l : List Entry}
    (hmem : ∀ e, e ∈ l ↔ e ∈ t.toList ∧ e.path.root.text = label) (hnodup : l.Nodup)
    (hsorted : l.Pairwise fun a b => a.notAfter b = true) : l = t.siblings label := by
  have hperm : l.Perm (t.siblings label) :=
    (List.perm_ext_iff_of_nodup hnodup (t.siblings_nodup h)).2 fun e =>
      (hmem e).trans (mem_siblings h).symm
  -- The order ends with the key, which no two entries share, so sorting leaves no choice.
  refine hperm.eq_of_pairwise (fun a b ha hb hab hba => ?_) hsorted (t.siblings_pairwise label)
  exact t.eq_of_key_eq ((hmem a).1 ha).1 ((mem_siblings h).1 hb).1 (key_eq_of_notAfter hab hba)

/-- Sorting by position keeps the order of the keys where positions are equal, so nothing stands
after what it should stand before. -/
theorem pairwise_byPosition {l : List Entry} (hl : l.Pairwise fun a b => a.key < b.key) :
    (byPosition l).Pairwise fun a b => a.notAfter b = true := by
  have htrans : ∀ a b c : Entry, decide (a.node.position ≤ b.node.position) = true →
      decide (b.node.position ≤ c.node.position) = true →
      decide (a.node.position ≤ c.node.position) = true := by
    simp only [decide_eq_true_iff]
    exact fun _ _ _ => Nat.le_trans
  have htotal : ∀ a b : Entry, (decide (a.node.position ≤ b.node.position)
      || decide (b.node.position ≤ a.node.position)) = true := by
    simp only [Bool.or_eq_true, decide_eq_true_iff]
    exact fun _ _ => Nat.le_total _ _
  induction l with
  | nil =>
    rw [byPosition, List.mergeSort_nil]
    exact .nil
  | cons a rest ih =>
    -- The head goes behind what is at a smaller position and before everything else.
    obtain ⟨front, back, hsorted, hrest, hfront⟩ := List.mergeSort_cons htrans htotal a rest
    have horder := List.pairwise_mergeSort htrans htotal (a :: rest)
    have hback : ∀ b ∈ back, b ∈ rest := fun b hb =>
      (List.mergeSort_perm rest _).subset (hrest ▸ List.mem_append_right front hb)
    rw [List.pairwise_cons] at hl
    have hothers := ih hl.2
    rw [byPosition, hrest] at hothers
    rw [hsorted] at horder
    rw [byPosition, hsorted, List.pairwise_append, List.pairwise_cons]
    rw [List.pairwise_append] at hothers
    obtain ⟨-, hbehind, -⟩ := List.pairwise_append.1 horder
    refine ⟨hothers.1, ⟨fun b hb => ?_, hothers.2.1⟩, fun b hb c hc => ?_⟩
    · have hle := of_decide_eq_true ((List.pairwise_cons.1 hbehind).1 b hb)
      rcases Nat.lt_or_eq_of_le hle with hlt | heq
      · exact notAfter_iff.2 (.inl hlt)
      · exact notAfter_iff.2 (.inr ⟨heq, String.not_lt.1 (String.lt_asymm (hl.1 b (hback b hb)))⟩)
    · rcases List.mem_cons.1 hc with rfl | hc
      · have hlt := hfront b hb
        rw [Bool.not_eq_true', decide_eq_false_iff_not, Nat.not_le] at hlt
        exact notAfter_iff.2 (.inl hlt)
      · exact hothers.2.2 b hb c hc

/-- A group sorted by position is in the order it is played in. -/
theorem byPosition_group (t : Tree) (h : '.' ∉ label.toList) :
    byPosition (t.group label) = t.siblings label := by
  have hperm : (byPosition (t.group label)).Perm (t.group label) := List.mergeSort_perm _ _
  refine eq_siblings h (fun e => ?_) ?_ ?_
  · rw [hperm.mem_iff, group, List.mem_filter, beq_iff_eq]
  · exact hperm.nodup_iff.2 (t.nodup.filter _)
  · exact pairwise_byPosition (t.ascending.filter _)

end Tree

/-! ## Siblings as paths -/

namespace Path

variable {paths : List Path} {label : Label}

/-- Whether a path comes no later than another among siblings: by position first, and by text where
positions are equal. -/
def notAfter (p q : Path) : Bool :=
  p.position < q.position || p.position == q.position && decide (p.text ≤ q.text)

/-- The paths under a label in the order they are played. -/
def siblings (paths : List Path) (label : Label) : List Path :=
  (paths.filter (·.root == label)).mergeSort notAfter

theorem siblings_perm (paths : List Path) (label : Label) :
    (siblings paths label).Perm (paths.filter (·.root == label)) :=
  List.mergeSort_perm _ _

theorem mem_siblings {p : Path} : p ∈ siblings paths label ↔ p ∈ paths ∧ p.root = label := by
  rw [(siblings_perm paths label).mem_iff, List.mem_filter, beq_iff_eq]

theorem nodup_siblings (h : paths.Nodup) : (siblings paths label).Nodup :=
  (siblings_perm paths label).nodup_iff.2 (h.filter _)

theorem pairwise_siblings (paths : List Path) (label : Label) :
    (siblings paths label).Pairwise fun p q => p.notAfter q = true := by
  apply List.pairwise_mergeSort
  · intro p q r hpq hqr
    exact Tree.notAfter_trans (a := Entry.ofPath p) (b := Entry.ofPath q) (c := Entry.ofPath r)
      hpq hqr
  · intro p q
    exact Tree.notAfter_total (Entry.ofPath p) (Entry.ofPath q)

/-- Paths in order are decided by which paths they are. -/
theorem eq_of_notAfter {l l' : List Path} (hmem : ∀ p, p ∈ l ↔ p ∈ l') (hnodup : l.Nodup)
    (hnodup' : l'.Nodup) (hsorted : l.Pairwise fun p q => p.notAfter q = true)
    (hsorted' : l'.Pairwise fun p q => p.notAfter q = true) : l = l' := by
  have hperm : l.Perm l' := (List.perm_ext_iff_of_nodup hnodup hnodup').2 hmem
  refine hperm.eq_of_pairwise (fun p q _ _ hpq hqp => ?_) hsorted hsorted'
  exact text_injective (Tree.key_eq_of_notAfter (a := Entry.ofPath p) (b := Entry.ofPath q) hpq hqp)

/-- Siblings that stay keep their order, whatever becomes of the others. -/
theorem filter_siblings_eq {paths' : List Path} {f g : Path → Bool} (h : paths.Nodup)
    (h' : paths'.Nodup) (hmem : ∀ p, p ∈ paths ∧ f p = true ↔ p ∈ paths' ∧ g p = true)
    (label : Label) : (siblings paths label).filter f = (siblings paths' label).filter g := by
  refine eq_of_notAfter (fun p => ?_) ((nodup_siblings h).filter _) ((nodup_siblings h').filter _)
    ((pairwise_siblings paths label).filter _) ((pairwise_siblings paths' label).filter _)
  rw [List.mem_filter, List.mem_filter, mem_siblings, mem_siblings, and_right_comm, hmem,
    and_right_comm]

end Path

/-- The siblings in a tree are those among its paths. -/
theorem Tree.map_path_siblings {t : Tree} (ha : t.Agreeing) (label : Label) :
    (t.siblings label.text).map Entry.path = Path.siblings t.paths label := by
  have hchildren : t.paths.filter (·.root == label) = (t.childrenOf label.text).map Entry.path := by
    rw [t.childrenOf_eq_filter label.dot_not_mem, paths, List.filter_map]
    refine congrArg _ (List.filter_congr fun e _ => ?_)
    rw [Bool.eq_iff_iff, beq_iff_eq]
    exact beq_iff_eq.trans ⟨congrArg Label.text, Label.ext_text⟩
  rw [Path.siblings, hchildren, siblings]
  refine List.map_mergeSort fun e he f hf => ?_
  rw [ha e ((mem_childrenOf label.dot_not_mem).1 he).1,
    ha f ((mem_childrenOf label.dot_not_mem).1 hf).1]
  rfl

theorem Tree.siblings_eq_map {t : Tree} (ha : t.Agreeing) (label : Label) :
    t.siblings label.text = (Path.siblings t.paths label).map Entry.ofPath := by
  rw [← map_path_siblings ha, List.map_map]
  refine (List.map_id _).symm.trans (List.map_congr_left fun e he => ?_)
  exact ha e ((mem_siblings label.dot_not_mem).1 he).1

end Playlists
