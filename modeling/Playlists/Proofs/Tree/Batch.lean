import Playlists.Proofs.Tree.Outline

/-!
# `Proofs/Tree/Batch.lean` — where the items of a batch stand

Every item of a batch gets one path, in the order of the items. An item that is given no position
comes behind all that is there under its label, so the items of one label stand in their order at
the end of it (`Grown.siblings_eq`), and their paths are new. Only a single item can be given a
position, and only then can the path of an item have been there before (`Path.overwrittenBy`).
-/

set_option autoImplicit false

namespace Playlists

namespace Path

/-- The path is one for an item that is to be added to `playlist`. -/
def Carries (playlist : String) (item : NewItem) (p : Path) : Prop :=
  p.root.text = item.parent.getD playlist ∧ p.kind = item.kind ∧ p.item.text = item.id

instance (playlist : String) (item : NewItem) (p : Path) : Decidable (p.Carries playlist item) :=
  inferInstanceAs (Decidable (_ ∧ _ ∧ _))

theorem eq_iff_sameEntry {p q : Path} :
    p = q ↔ p.sameEntry q = true ∧ p.position = q.position := by
  cases p
  cases q
  simp [sameEntry, and_assoc]

theorem Carries.congr {playlist : String} {item : NewItem} {p q : Path}
    (h : p.Carries playlist item) (hpq : p.sameEntry q = true) : q.Carries playlist item := by
  obtain ⟨hroot, hkind, hitem⟩ := sameEntry_iff.1 hpq
  unfold Carries
  rw [← hroot, ← hkind, ← hitem]
  exact h

/-- Paths for one item differ in nothing but the position. -/
theorem Carries.eq {playlist : String} {item : NewItem} {p q : Path} (hp : p.Carries playlist item)
    (hq : q.Carries playlist item) (hposition : p.position = q.position) : p = q := by
  refine eq_iff_sameEntry.2 ⟨sameEntry_iff.2 ⟨?_, ?_, ?_⟩, hposition⟩
  · exact Label.ext_text (hp.1.trans hq.1.symm)
  · exact hp.2.1.trans hq.2.1.symm
  · exact Label.ext_text (hp.2.2.trans hq.2.2.symm)

/-- Whether a batch writes over a path: it is a single item that is given the place of it. -/
def overwrittenBy (playlist : String) (items : List NewItem) (explicit : Option UInt64)
    (p : Path) : Bool :=
  match items, explicit with
  | [item], some position => decide (p.Carries playlist item) && p.position == position.toNat
  | _, _ => false

/-- Nothing is written over by items that are appended. -/
theorem overwrittenBy_eq_false {playlist : String} {items : List NewItem}
    {explicit : Option UInt64} (h : items.length = 1 → explicit = none) (p : Path) :
    p.overwrittenBy playlist items explicit = false := by
  unfold overwrittenBy
  split
  · exact nomatch h rfl
  · rfl

end Path

namespace Tree

variable {t grown : Tree} {playlist : String} {explicit : Option UInt64} {items : List NewItem}
  {created : List Path} {p : Path} {label : Label}

theorem path_siblings_put (ha : t.Agreeing) (hn : t.nextPosition p.root.text = .ok p.position) :
    Path.siblings (paths (t.put (Entry.ofPath p))) label
      = Path.siblings t.paths label ++ [p].filter (·.root == label) := by
  rw [← map_path_siblings (agreeing_put ha p), ← map_path_siblings ha]
  by_cases hroot : p.root = label
  · subst hroot
    rw [siblings_put_self ha hn, List.map_append]
    simp [Entry.ofPath]
  · have hne : p.root.text ≠ label.text := fun htext => hroot (Label.ext_text htext)
    rw [siblings_put_of_ne label.dot_not_mem hne]
    simp [hroot]

theorem Takes.carries {item : NewItem} (h : t.Takes playlist explicit item p) :
    p.Carries playlist item :=
  ⟨h.root, h.kind, h.item⟩

/-- A position that is given leaves one path that an item can take. -/
theorem Takes.eq_iff {item : NewItem} {n : UInt64} {q : Path}
    (h : t.Takes playlist (some n) item q) :
    p = q ↔ p.Carries playlist item ∧ p.position = n.toNat := by
  constructor
  · rintro rfl
    exact ⟨h.carries, h.position⟩
  · rintro ⟨hcarries, hposition⟩
    exact hcarries.eq h.carries (hposition.trans h.position.symm)

namespace Grown

theorem carries (h : Grown playlist explicit t items created grown) :
    List.Forall₂ (fun item p => Path.Carries playlist item p) items created := by
  induction h with
  | nil t => exact .nil
  | cons first rest ih =>
    exact .cons (pathFor_eq_ok first).carries ih

/-! ## Items without a position -/

theorem not_mem_of_mem_created (h : Grown playlist none t items created grown) (ha : t.Agreeing) :
    ∀ p ∈ created, p ∉ t.paths := by
  generalize hnone : none = explicit at h
  induction h with
  | nil t => simp
  | cons first rest ih =>
    subst hnone
    intro q hq hold
    rcases List.mem_cons.1 hq with rfl | hq
    · exact not_mem_of_nextPosition ha (pathFor_eq_ok first).position hold
    · exact ih (agreeing_put ha _) q hq (mem_paths_put.2 (.inr hold))

theorem nodup_appended (h : Grown playlist none t items created grown) (ha : t.Agreeing) :
    created.Nodup := by
  generalize hnone : none = explicit at h
  induction h with
  | nil t => exact List.nodup_nil
  | cons first rest ih =>
    subst hnone
    have ha' := agreeing_put ha
    refine List.nodup_cons.2 ⟨fun hmem => ?_, ih (ha' _)⟩
    exact rest.not_mem_of_mem_created (ha' _) _ hmem (mem_paths_put.2 (.inl rfl))

/-- The items of one label stand behind all that was there, in their order. -/
theorem siblings_eq (h : Grown playlist none t items created grown) (ha : t.Agreeing)
    (label : Label) : Path.siblings grown.paths label
      = Path.siblings t.paths label ++ created.filter (·.root == label) := by
  -- By induction on the batch with no position fixed; each item goes to the very end.
  generalize hnone : none = explicit at h
  induction h with
  | nil t => simp
  | cons first rest ih =>
    subst hnone
    rw [ih (agreeing_put ha _), path_siblings_put ha (pathFor_eq_ok first).position,
      List.append_assoc, ← List.filter_append, List.singleton_append]

theorem siblings_eq_filter_append (h : Grown playlist none t items created grown)
    (ha : t.Agreeing) (label : Label) : Path.siblings grown.paths label
      = (Path.siblings grown.paths label).filter (· ∉ created)
        ++ created.filter (·.root == label) := by
  have hold : (Path.siblings t.paths label).filter (· ∉ created) = Path.siblings t.paths label :=
    List.filter_eq_self.2 fun p hp => decide_eq_true fun hmem =>
      h.not_mem_of_mem_created ha p hmem (Path.mem_siblings.1 hp).1
  have hnew : (created.filter (·.root == label)).filter (· ∉ created) = [] :=
    List.filter_eq_nil_iff.2 fun p hp hmem =>
      of_decide_eq_true hmem (List.mem_filter.1 hp).1
  rw [h.siblings_eq ha label, List.filter_append, hold, hnew, List.append_nil]

/-! ## Any batch -/

theorem nodup_created
    (h : Grown playlist (if items.length = 1 then explicit else none) t items created grown)
    (ha : t.Agreeing) : created.Nodup := by
  by_cases hlone : items.length = 1
  · obtain ⟨p, rfl⟩ := List.length_eq_one_iff.1 (h.length_created.trans hlone)
    exact List.nodup_singleton p
  · rw [if_neg hlone] at h
    exact h.nodup_appended ha

/-- The paths that were there before and belong to the batch are those that it writes over. -/
theorem mem_created_iff
    (h : Grown playlist (if items.length = 1 then explicit else none) t items created grown)
    (ha : t.Agreeing) (hp : p ∈ t.paths) :
    p ∈ created ↔ p.overwrittenBy playlist items explicit = true := by
  cases hplace : (if items.length = 1 then explicit else none) with
  | none =>
    rw [hplace] at h
    rw [Path.overwrittenBy_eq_false fun hlone => by rwa [if_pos hlone] at hplace]
    exact iff_of_false (fun hmem => h.not_mem_of_mem_created ha p hmem hp) Bool.false_ne_true
  | some n =>
    obtain ⟨hlone, rfl⟩ := Option.ite_none_right_eq_some.1 hplace
    obtain ⟨item, rfl⟩ := List.length_eq_one_iff.1 hlone
    obtain ⟨q, later, rfl, hpath, hrest⟩ := cons_iff.1 h
    obtain ⟨rfl, -⟩ := nil_iff.1 hrest
    rw [List.mem_singleton, (pathFor_eq_ok hpath).eq_iff]
    simp [Path.overwrittenBy]

/-- All other paths are those that were there and are not written over. -/
theorem mem_paths_and_not_mem_iff
    (h : Grown playlist (if items.length = 1 then explicit else none) t items created grown)
    (ha : t.Agreeing) : p ∈ grown.paths ∧ p ∉ created ↔
      p ∈ t.paths ∧ p.overwrittenBy playlist items explicit = false := by
  rw [h.mem_paths]
  constructor
  · rintro ⟨hp, hnew⟩
    have hp := hp.resolve_left hnew
    exact ⟨hp, Bool.eq_false_iff.2 fun hover => hnew ((h.mem_created_iff ha hp).2 hover)⟩
  · rintro ⟨hp, hstay⟩
    refine ⟨.inr hp, fun hmem => Bool.eq_false_iff.1 hstay ?_⟩
    exact (h.mem_created_iff ha hp).1 hmem

theorem filter_siblings_eq
    (h : Grown playlist (if items.length = 1 then explicit else none) t items created grown)
    (ha : t.Agreeing) (label : Label) :
    (Path.siblings t.paths label).filter (fun p => !p.overwrittenBy playlist items explicit)
      = (Path.siblings grown.paths label).filter (· ∉ created) := by
  refine Path.filter_siblings_eq t.nodup_paths grown.nodup_paths (fun p => ?_) label
  rw [Bool.not_eq_true', decide_eq_true_iff]
  exact (h.mem_paths_and_not_mem_iff ha).symm

end Grown

end Tree

end Playlists
