import Playlists.Proofs.Tree.Reordering

/-!
# `Proofs/Operation/Claiming.lean` — which entry a mention of an item claims

A new order mentions items, and each mention claims an entry of its item. `Claims` says which one
without following `arrange` step by step: the mention that comes after `n` others of its item claims
the entry that comes after `n` others of its item. One more mention can be answered exactly as long
as an entry of its item is left (`Claims.claim`), so all of them can be answered if no item is
mentioned more often than it has entries (`Claimable`), and otherwise the first one that cannot be
decides the refusal (`arrange_cases`).
-/

set_option autoImplicit false

namespace Playlists.Operation

/-- No item is mentioned more often than it has paths. -/
def Claimable (current : List Path) (items : List String) : Prop :=
  ∀ item ∈ items, items.count item ≤ current.countP (·.item.text == item)

instance (current : List Path) (items : List String) : Decidable (Claimable current items) :=
  inferInstanceAs (Decidable (∀ item ∈ items, _))

/-- Of the paths `current` the mentioned `items` claim the paths `claimed` and leave `others`. -/
structure Claims (current : List Path) (items : List String) (claimed others : List Path) :
    Prop where
  /-- Each mention claims a path of its item. -/
  mentions : claimed.map (·.item.text) = items
  /-- Mentions of one item claim its paths in turn. -/
  in_turn : ∀ front item rest, items = front ++ item :: rest →
    claimed[front.length]? = (current.filter (·.item.text == item))[front.count item]?
  /-- What nobody claims stays in order. -/
  left_over : others = current.filter fun p => !claimed.contains p
  /-- No path is claimed twice, and none is lost. -/
  perm : (claimed ++ others).Perm current
  /-- Of each item as many paths are gone from the front as it is mentioned. -/
  left_of : ∀ item, others.filter (·.item.text == item)
    = (current.filter (·.item.text == item)).drop (items.count item)

variable {item : String} {current paths claimed others : List Path} {p : Path}
  {items front : List String}

/-! ## Claiming one path -/

theorem claim?_eq_some (h : claim? item paths = some (p, others)) :
    p.item.text = item ∧ ∃ before after, paths = before ++ p :: after ∧
      others = before ++ after ∧ ∀ q ∈ before, q.item.text ≠ item := by
  induction paths generalizing others with
  | nil => cases h
  | cons q rest ih =>
    rw [claim?] at h
    split at h
    · next hitem =>
      cases h
      exact ⟨hitem, [], rest, rfl, rfl, fun _ hq => absurd hq List.not_mem_nil⟩
    · next hne =>
      obtain ⟨⟨p', others'⟩, hclaim, heq⟩ := Option.map_eq_some_iff.1 h
      cases heq
      obtain ⟨hitem, before, after, rfl, rfl, hbefore⟩ := ih hclaim
      exact ⟨hitem, q :: before, after, rfl, rfl, List.forall_mem_cons.2 ⟨hne, hbefore⟩⟩

theorem filter_of_claim?_self (h : claim? item paths = some (p, others)) :
    paths.filter (·.item.text == item) = p :: others.filter (·.item.text == item) := by
  obtain ⟨hitem, before, after, rfl, rfl, hbefore⟩ := claim?_eq_some h
  have hnone : before.filter (·.item.text == item) = [] := by
    rw [List.filter_eq_nil_iff]
    intro q hq
    rw [beq_iff_eq]
    exact hbefore q hq
  rw [List.filter_append, List.filter_append, hnone, List.filter_cons,
    if_pos (beq_iff_eq.2 hitem)]
  rfl

theorem filter_of_claim?_of_ne (h : claim? item paths = some (p, others)) {item' : String}
    (hne : item ≠ item') :
    paths.filter (·.item.text == item') = others.filter (·.item.text == item') := by
  obtain ⟨hitem, before, after, rfl, rfl, -⟩ := claim?_eq_some h
  have hp : ¬ (p.item.text == item') = true := by
    rw [beq_iff_eq, hitem]
    exact hne
  rw [List.filter_append, List.filter_append, List.filter_cons, if_neg hp]

theorem others_eq_of_claim? (h : claim? item paths = some (p, others)) (hnodup : paths.Nodup) :
    others = paths.filter (· != p) := by
  obtain ⟨-, before, after, rfl, rfl, -⟩ := claim?_eq_some h
  rw [List.nodup_middle, List.nodup_cons, List.mem_append, not_or] at hnodup
  have hpass : ∀ l : List Path, p ∉ l → l.filter (· != p) = l := by
    intro l hp
    rw [List.filter_eq_self]
    intro q hq
    exact bne_iff_ne.2 fun heq => hp (heq ▸ hq)
  rw [List.filter_append, List.filter_cons, if_neg (by simp), hpass before hnodup.1.1,
    hpass after hnodup.1.2]

theorem claim?_eq_none_iff : claim? item paths = none ↔ ∀ q ∈ paths, q.item.text ≠ item := by
  induction paths with
  | nil => simp [claim?]
  | cons q rest ih =>
    rw [claim?, List.forall_mem_cons, ← ih]
    split
    · next hitem => simp [hitem]
    · next hne => simp [hne]

namespace Claims

theorem start (current : List Path) : Claims current [] [] current where
  mentions := rfl
  in_turn front item rest h := by simp at h
  left_over := by simp
  perm := .refl _
  left_of item := by simp

theorem length_claimed (h : Claims current items claimed others) :
    claimed.length = items.length := by
  rw [← h.mentions, List.length_map]

theorem count_claimed (h : Claims current items claimed others) (item : String) :
    claimed.countP (·.item.text == item) = items.count item := by
  rw [← h.mentions, List.count, List.countP_map]
  rfl

/-- The paths of an item are those that are claimed and those that are left. -/
theorem count_add_count_others (h : Claims current items claimed others) (item : String) :
    items.count item + others.countP (·.item.text == item)
      = current.countP (·.item.text == item) := by
  rw [← h.count_claimed, ← List.countP_append, h.perm.countP_eq]

theorem claimable (h : Claims current items claimed others) : Claimable current items := by
  intro item _
  rw [← h.count_add_count_others]
  exact Nat.le_add_right _ _

/-- One more mention claims the first path of its item that is left. -/
theorem claim (h : Claims current items claimed others) (hnodup : current.Nodup)
    {others' : List Path} (hclaim : claim? item others = some (p, others')) :
    Claims current (items ++ [item]) (claimed ++ [p]) others' := by
  have hitem := (claim?_perm hclaim).1
  have hnext : (current.filter (·.item.text == item)).drop (items.count item)
      = p :: others'.filter (·.item.text == item) := by
    rw [← h.left_of, filter_of_claim?_self hclaim]
  refine ⟨?_, fun front item' rest heq => ?_, ?_, ?_, fun item' => ?_⟩
  · rw [List.map_append, h.mentions, List.map_singleton, hitem]
  · rcases List.eq_nil_or_concat rest with rfl | ⟨rest, last, rfl⟩
    · -- The new mention is the last one, and what it claims is the first that is left.
      obtain ⟨rfl, hlast⟩ := List.append_inj' heq rfl
      cases hlast
      rw [← h.length_claimed, List.getElem?_concat_length, ← Nat.add_zero (items.count item),
        ← List.getElem?_drop, hnext]
      rfl
    · rw [List.concat_eq_append, ← List.cons_append, ← List.append_assoc] at heq
      obtain ⟨hitems, -⟩ := List.append_inj' heq rfl
      rw [← h.in_turn front item' rest hitems, List.getElem?_append_left]
      rw [h.length_claimed, hitems, List.length_append]
      exact Nat.lt_add_of_pos_right (Nat.succ_pos _)
  -- Paths do not repeat, so taking out the claimed one is filtering by it.
  · rw [others_eq_of_claim? hclaim (h.left_over ▸ hnodup.filter _), h.left_over,
      List.filter_filter]
    refine List.filter_congr fun q _ => ?_
    rw [Bool.eq_iff_iff]
    simp [and_comm]
  · have hmoved : (claimed ++ [p] ++ others').Perm (claimed ++ others) := by
      rw [List.append_assoc]
      exact (claim?_perm hclaim).2.symm.append_left claimed
    exact hmoved.trans h.perm
  · rw [List.count_append]
    by_cases hsame : item = item'
    · subst hsame
      rw [List.count_singleton_self, ← List.drop_drop, hnext]
      rfl
    · rw [List.count_singleton, if_neg (by simpa using hsame), Nat.add_zero, ← h.left_of,
        filter_of_claim?_of_ne hclaim hsame]

/-- Where no path of an item is left, one more mention of it is one too many. -/
theorem not_claimable (h : Claims current items claimed others)
    (hnone : ∀ q ∈ others, q.item.text ≠ item) : ¬ Claimable current (items ++ [item]) := by
  intro hclaimable
  have hle := hclaimable item (List.mem_append_right _ (List.mem_singleton_self item))
  have hzero : others.countP (·.item.text == item) = 0 := by
    rw [List.countP_eq_zero]
    intro q hq
    rw [beq_iff_eq]
    exact hnone q hq
  rw [List.count_append, List.count_singleton_self, ← h.count_add_count_others item, hzero] at hle
  omega

/-- An item of which no path is left is known by the paths that are claimed. -/
theorem any_claimed_eq (h : Claims current items claimed others)
    (hnone : ∀ q ∈ others, q.item.text ≠ item) :
    claimed.any (·.item.text == item) = current.any (·.item.text == item) := by
  rw [← h.perm.any_eq, List.any_append]
  have hnot : others.any (·.item.text == item) = false := by
    rw [List.any_eq_false]
    intro q hq
    rw [beq_iff_eq]
    exact hnone q hq
  rw [hnot, Bool.or_false]

end Claims

theorem Claimable.of_append {more : List String} (h : Claimable current (items ++ more)) :
    Claimable current items := by
  intro item hitem
  have hle := h item (List.mem_append_left _ hitem)
  rw [List.count_append] at hle
  exact (Nat.le_add_right _ _).trans hle

/-- The order of the paths does not matter to whether items can be claimed. -/
theorem Claimable.of_perm {current' : List Path} (hperm : current.Perm current')
    (h : Claimable current items) : Claimable current' items := by
  intro item hitem
  rw [← hperm.countP_eq]
  exact h item hitem

/-! ## Claiming them all -/

/-- The refusal of a mention that there is no path for. -/
def refusal (playlist : String) (current : List Path) (item : String) : Failure :=
  if current.any (·.item.text == item) then .listedTooOften item playlist
  else .notPartOf item playlist

/-- From where some mentions are answered already, either all others can be answered as well, or one
of them is the first that cannot. -/
theorem arrange_cases (playlist : String) (h : Claims current front claimed others)
    (hnodup : current.Nodup) (items : List String) :
    (∃ claimed' others', Claims current (front ++ items) claimed' others' ∧
      arrange playlist claimed others items = .ok (claimed' ++ others')) ∨
    ∃ lead item rest, front ++ items = lead ++ item :: rest ∧ Claimable current lead ∧
      ¬ Claimable current (lead ++ [item]) ∧
      arrange playlist claimed others items = .error (refusal playlist current item) := by
  induction items generalizing front claimed others with
  | nil =>
    rw [List.append_nil]
    exact .inl ⟨claimed, others, h, rfl⟩
  | cons item rest ih =>
    rw [arrange]
    cases hclaim : claim? item others with
    | none =>
      -- Nothing is left of this item, so the mention is one too many and everything before it was
      -- not.
      have hnone := claim?_eq_none_iff.1 hclaim
      refine .inr ⟨front, item, rest, rfl, h.claimable, h.not_claimable hnone, ?_⟩
      dsimp only
      rw [refusal, ← h.any_claimed_eq hnone]
      split <;> rfl
    | some split =>
      have hstep := ih (h.claim hnodup hclaim)
      rw [List.append_assoc] at hstep
      exact hstep

/-- All mentions are answered if no item is mentioned too often, and otherwise the first that is
decides the refusal. -/
theorem arrange_claims (playlist : String) (hnodup : current.Nodup) (items : List String) :
    (Claimable current items → ∃ claimed others, Claims current items claimed others ∧
      arrange playlist [] current items = .ok (claimed ++ others)) ∧
    (¬ Claimable current items → ∃ front item rest, items = front ++ item :: rest ∧
      Claimable current front ∧ ¬ Claimable current (front ++ [item]) ∧
      arrange playlist [] current items = .error (refusal playlist current item)) := by
  rcases arrange_cases playlist (.start current) hnodup items with
    ⟨claimed, others, hclaims, harrange⟩ | ⟨front, item, rest, hitems, hfront, hnot, harrange⟩
  · exact ⟨fun _ => ⟨claimed, others, hclaims, harrange⟩, fun hnot => absurd hclaims.claimable hnot⟩
  · refine ⟨fun hclaimable => absurd ?_ hnot, fun _ => ⟨front, item, rest, hitems, hfront, hnot,
      harrange⟩⟩
    rw [List.nil_append] at hitems
    rw [hitems, List.append_cons] at hclaimable
    exact hclaimable.of_append

end Playlists.Operation
