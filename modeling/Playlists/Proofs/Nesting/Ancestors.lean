import Playlists.Proofs.Nesting.Relation
import Playlists.Proofs.Tree.Growth
import Playlists.Tree.References

/-!
# `Proofs/Nesting/Ancestors.lean` — the check for cycles keeps nestings free of them

`Tree.ancestors` searches back from a label to everything that holds it. It finds what it should and
no more, also where references go round in circles (`contains_ancestors_iff`): the labels from which
one gets to `parent`, following entries and never entering the playlist itself.

The search does not look behind the playlist, which would be wrong if anything nested it. Nothing
does: an entry for the playlist is refused, since it is its own ancestor. So the check is as good as
a check of all nestings, and what passes it closes no cycle. `WellNested` is what every accepted
entry keeps (`WellNested.put`), and with it every batch.
-/

set_option autoImplicit false

namespace Playlists

open Relation

namespace Tree

variable {t : Tree} {playlist parent label : String}

/-- One step of the search: some entry under `a` points at `b`, and `b` is not the playlist. -/
def Holds (t : Tree) (playlist a b : String) : Prop :=
  Nests t.paths a b ∧ b ≠ playlist

theorem mem_holders {a : String} : a ∈ t.holders label ↔ Nests t.paths a label := by
  simp only [holders, pathsOf, List.mem_map, List.mem_filter, beq_iff_eq, Nests, Path.PointsAt]
  constructor
  · intro hex
    obtain ⟨p, ⟨⟨hp, hitem⟩, hkind⟩, hroot⟩ := hex
    exact ⟨p, hp, hroot, hkind, hitem⟩
  · intro hex
    obtain ⟨p, hp, hroot, hkind, hitem⟩ := hex
    exact ⟨p, ⟨⟨hp, hitem⟩, hkind⟩, hroot⟩

/-- What holds of the labels that are seen and of those that are still to be followed. -/
structure SearchState (t : Tree) (playlist parent : String) (seen pending : List String) : Prop where
  seen_self : playlist ∈ seen
  reached : parent ∈ seen ∨ parent ∈ pending
  sound : ∀ l, l ∈ seen ∨ l ∈ pending →
    l = playlist ∨ ReflTransGen (t.Holds playlist) l parent
  /-- A label that is seen has been followed, the playlist apart. -/
  followed : ∀ b ∈ seen, b ≠ playlist → ∀ a, Nests t.paths a b → a ∈ seen ∨ a ∈ pending

namespace SearchState

variable {seen pending rest : List String}

theorem skip (h : SearchState t playlist parent seen (label :: rest)) (hseen : label ∈ seen) :
    SearchState t playlist parent seen rest := by
  have hdrop : ∀ l, l ∈ seen ∨ l ∈ label :: rest → l ∈ seen ∨ l ∈ rest := by
    intro l hl
    rcases hl with hl | hl
    · exact .inl hl
    · rcases List.mem_cons.1 hl with rfl | hl
      · exact .inl hseen
      · exact .inr hl
  refine ⟨h.seen_self, hdrop _ h.reached, fun l hl => h.sound l ?_, fun b hb hne a hab => ?_⟩
  · exact hl.imp_right (List.mem_cons_of_mem _)
  · exact hdrop a (h.followed b hb hne a hab)

theorem follow (h : SearchState t playlist parent seen (label :: rest)) (hnew : label ∉ seen) :
    SearchState t playlist parent (label :: seen) (t.holders label ++ rest) := by
  -- The playlist is seen from the start, so what is new is not the playlist.
  have hne : label ≠ playlist := fun heq => hnew (heq ▸ h.seen_self)
  have hkeep : ∀ l, l ∈ seen ∨ l ∈ label :: rest →
      l ∈ label :: seen ∨ l ∈ t.holders label ++ rest := by
    intro l hl
    rcases hl with hl | hl
    · exact .inl (List.mem_cons_of_mem _ hl)
    · rcases List.mem_cons.1 hl with rfl | hl
      · exact .inl List.mem_cons_self
      · exact .inr (List.mem_append_right _ hl)
  have hlabel := (h.sound label (.inr List.mem_cons_self)).resolve_left hne
  refine ⟨List.mem_cons_of_mem _ h.seen_self, hkeep _ h.reached, fun l hl => ?_,
    fun b hb hbne a hab => ?_⟩
  · rcases hl with hl | hl
    · rcases List.mem_cons.1 hl with rfl | hl
      · exact .inr hlabel
      · exact h.sound l (.inl hl)
    · rcases List.mem_append.1 hl with hl | hl
      · exact .inr (.head ⟨mem_holders.1 hl, hne⟩ hlabel)
      · exact h.sound l (.inr (List.mem_cons_of_mem _ hl))
  · rcases List.mem_cons.1 hb with rfl | hb
    · exact .inr (List.mem_append_left _ (mem_holders.2 hab))
    · exact hkeep a (h.followed b hb hbne a hab)

/-- With nothing left to follow, everything that leads to `parent` is seen. -/
theorem mem_seen (h : SearchState t playlist parent seen [])
    (hl : label = playlist ∨ ReflTransGen (t.Holds playlist) label parent) : label ∈ seen := by
  have hnone : ∀ l, l ∈ seen ∨ l ∈ [] → l ∈ seen := fun l hl => hl.resolve_right List.not_mem_nil
  rcases hl with rfl | hpath
  · exact h.seen_self
  · induction hpath using ReflTransGen.head_induction_on with
    | refl => exact hnone _ h.reached
    | head hstep _ ih => exact hnone _ (h.followed _ ih hstep.2 _ hstep.1)

theorem mem_searchHolders (h : SearchState t playlist parent seen pending) :
    label ∈ t.searchHolders seen pending ↔
      label = playlist ∨ ReflTransGen (t.Holds playlist) label parent := by
  -- By recursion of the search: skipping and following both keep the state, whatever the order.
  fun_induction searchHolders t seen pending with
  | case1 seen => exact ⟨fun hl => h.sound label (.inl hl), h.mem_seen⟩
  | case2 seen l rest hseen ih => exact ih (h.skip hseen)
  | case3 seen l rest hnew _ ih => exact ih (h.follow hnew)

end SearchState

/-- The ancestors are the playlist and every label from which one gets to `parent` without entering
the playlist. -/
theorem contains_ancestors_iff : (t.ancestors playlist parent).contains label = true ↔
    label = playlist ∨ ReflTransGen (t.Holds playlist) label parent := by
  have hstart : SearchState t playlist parent [playlist] [parent] := by
    refine ⟨List.mem_cons_self, .inr List.mem_cons_self, fun l hl => ?_, fun b hb hne => ?_⟩
    · rcases hl with hl | hl
      · exact .inl (List.mem_singleton.1 hl)
      · exact .inr (List.mem_singleton.1 hl ▸ .refl)
    · exact absurd (List.mem_singleton.1 hb) hne
  rw [KeyedList.contains_iff, ← hstart.mem_searchHolders, ancestors]
  simp only [KeyedList.mem_texts_ofList, id, exists_eq_right]

/-- Where nothing nests the playlist, the search leaves nothing out. -/
theorem holds_eq_nests (h : ∀ label, ¬ Nests t.paths label playlist) :
    t.Holds playlist = Nests t.paths := by
  funext a b
  exact propext (and_iff_left_of_imp fun hab heq => h a (heq ▸ hab))

end Tree

/-! ## Well nested playlists -/

/-- Nestings do not go round in circles and do not lead back to the playlist, and they lead to
everything. -/
structure WellNested (playlist : String) (paths : List Path) : Prop where
  acyclic : Acyclic paths
  not_nested : ∀ label, ¬ Nests paths label playlist
  rooted : Rooted playlist paths

namespace WellNested

variable {t : Tree} {playlist : String} {p : Path}

/-- Where nothing nests the playlist, the search for ancestors leaves nothing out. -/
theorem contains_ancestors_iff (h : WellNested playlist t.paths) {parent label : String} :
    (t.ancestors playlist parent).contains label = true ↔
      label = playlist ∨ ReflTransGen (Nests t.paths) label parent := by
  rw [Tree.contains_ancestors_iff, Tree.holds_eq_nests h.not_nested]

/-- **An accepted path keeps a playlist well nested.** -/
theorem put (h : WellNested playlist t.paths) {explicit : Option UInt64} {item : NewItem}
    (hp : t.Takes playlist explicit item p) :
    WellNested playlist (Tree.paths (t.put (Entry.ofPath p))) := by
  have hback : p.kind = .playlist →
      p.item.text ≠ playlist ∧ ¬ ReflTransGen (Nests t.paths) p.item.text p.root.text := by
    intro hkind
    exact not_or.1 fun hanc => hp.acyclic ⟨hkind, h.contains_ancestors_iff.2 hanc⟩
  -- A track adds no nesting. A playlist adds one, and no way leads from its item back to its root.
  refine ⟨?_, fun label hnest => ?_, Tree.rooted_put h.rooted hp.rooted⟩
  · by_cases hkind : p.kind = .playlist
    · refine h.acyclic.add_edge (a := p.root.text) (b := p.item.text) (fun x y hxy => ?_)
        (hback hkind).2
      exact (Tree.nests_put_iff.1 hxy).imp_right fun hnew => ⟨hnew.1.symm, hnew.2.2.symm⟩
    · refine h.acyclic.anti fun x y hxy => ?_
      exact (Tree.nests_put_iff.1 hxy).resolve_right fun hnew => hkind hnew.2.1
  · rcases Tree.nests_put_iff.1 hnest with hold | ⟨-, hkind, hitem⟩
    · exact h.not_nested label hold
    · exact (hback hkind).1 hitem

/-- A batch keeps a playlist well nested, also where its items are nested in one another. -/
theorem grown {explicit : Option UInt64} {items : List NewItem} {created : List Path}
    {after : Tree} (h : WellNested playlist t.paths)
    (hgrown : Tree.Grown playlist explicit t items created after) :
    WellNested playlist after.paths :=
  hgrown.keeps (P := fun t => WellNested playlist t.paths) h fun _ _ _ hp ht => ht.put hp

/-- What changes nothing but positions keeps a playlist well nested. -/
theorem rearranged {after : Tree} {steps : List (Entry × Entry)}
    (h : WellNested playlist t.paths) (hsteps : t.Rearranges after steps) :
    WellNested playlist after.paths where
  acyclic := h.acyclic.anti fun a b => (hsteps.nests_iff a b).2
  not_nested label hnest := h.not_nested label ((hsteps.nests_iff label playlist).2 hnest)
  rooted := hsteps.rooted h.rooted

/-- A playlist without entries is well nested. -/
theorem nil (playlist : String) : WellNested playlist [] where
  acyclic label hcycle := by
    obtain ⟨-, ⟨p, hp, -⟩, -⟩ := TransGen.head'_iff.1 hcycle
    exact List.not_mem_nil hp
  not_nested label hnest := by
    obtain ⟨p, hp, -⟩ := hnest
    exact List.not_mem_nil hp
  rooted p hp := absurd hp List.not_mem_nil

end WellNested

end Playlists
