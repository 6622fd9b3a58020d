import Mathlib.Data.List.Nodup
import Playlists.Proofs.Conformance.Cases

/-!
# `Proofs/Conformance/Isolation.lean` — the suite keeps to itself

The suite is run on stores that hold other things, and again and again under different names. It may
not get in the way of anything, and nothing may get in its way. Two things make this so: every case
gets through on playlists that have no rows, whatever they are called (`clean_scenario`), and no two
playlists of the suite have the same name (`eq_of_mem_playlists`). The part behind the last hyphen
of a name tells the case, and what is before it the namespace; only the second playlist of the case
on isolation has two parts of its own, and the last of them is none of the others.
-/

set_option autoImplicit false

namespace Playlists.Conformance

/-! ## Names -/

namespace Case

theorem mem_all (c : Case) : c ∈ all := by
  cases c <;> decide

theorem suffix_injective : Function.Injective suffix := by
  have hnodup : (all.map suffix).Nodup := by decide +kernel
  exact fun c c' h => List.inj_on_of_nodup_map hnodup c.mem_all c'.mem_all h

theorem hyphen_not_mem_suffix (c : Case) : '-' ∉ c.suffix.toList := by
  cases c <;> decide

theorem suffix_ne_other (c : Case) : c.suffix ≠ "other" := by
  cases c <;> decide

/-- How the names of the playlists of a case end. -/
def endings : Case → List String
  | playlistsAreIsolated => ["iso", "iso-other"]
  | c => [c.suffix]

theorem all_isLabelCharacter_of_mem_endings (c : Case) :
    ∀ ending ∈ c.endings, ending.toList.all isLabelCharacter = true := by
  cases c <;> decide

theorem suffix_mem_endings (c : Case) : c.suffix ∈ c.endings := by
  cases c <;> decide

/-- The playlists that a case works on. -/
def playlists (space : String) (c : Case) : List String :=
  c.endings.map fun ending => space ++ "-" ++ ending

end Case

/-- The playlists of all cases. -/
def derived (space : String) : List String :=
  Case.all.flatMap (Case.playlists space)

/-- The last hyphen tells what is before it from what is behind it. -/
theorem eq_of_append_hyphen {a b x y : String} (hx : '-' ∉ x.toList) (hy : '-' ∉ y.toList)
    (h : a ++ "-" ++ x = b ++ "-" ++ y) : a = b ∧ x = y := by
  -- Read backwards the part behind the last hyphen comes first, and a first field is known.
  have hreverse : x.toList.reverse ++ '-' :: a.toList.reverse
      = y.toList.reverse ++ '-' :: b.toList.reverse := by
    have hlist := congrArg (fun s => s.toList.reverse) h
    simpa using hlist
  have hlead : x.toList.reverse ++ ['-'] <+: y.toList.reverse ++ '-' :: b.toList.reverse := by
    rw [← hreverse]
    exact ⟨a.toList.reverse, by simp⟩
  have hends := Text.eq_of_append_separator_prefix (by simpa using hx) (by simpa using hy) hlead
  rw [hends, List.append_cancel_left_eq, List.cons.injEq, List.reverse_inj] at hreverse
  exact ⟨String.toList_injective hreverse.2, String.toList_injective (List.reverse_inj.1 hends)⟩

/-- What is behind the last hyphen is the suffix of the case, or it is the second playlist of the
case on isolation. -/
theorem eq_of_mem_endings {c : Case} {ending : String} (h : ending ∈ c.endings) (space : String) :
    ending = c.suffix ∨ c = .playlistsAreIsolated ∧
      space ++ "-" ++ ending = space ++ "-iso" ++ "-" ++ "other" := by
  cases c with
  | playlistsAreIsolated =>
    refine (List.mem_pair.1 h).imp_right fun hother => ⟨rfl, ?_⟩
    rw [hother]
    simp only [String.append_assoc]
    rfl
  | _ => exact .inl (List.mem_singleton.1 h)

/-- A playlist of the suite belongs to one case in one namespace. -/
theorem eq_of_mem_playlists {space space' p : String} {c c' : Case} (h : p ∈ c.playlists space)
    (h' : p ∈ c'.playlists space') : space = space' ∧ c = c' := by
  have hother : '-' ∉ "other".toList := by decide
  obtain ⟨ending, hending, rfl⟩ := List.mem_map.1 h
  obtain ⟨ending', hending', heq⟩ := List.mem_map.1 h'
  have hc := c.hyphen_not_mem_suffix
  have hc' := c'.hyphen_not_mem_suffix
  -- Names are taken apart at their last hyphen. What is behind it is no suffix for one playlist
  -- only, the second one of the case on isolation.
  rcases eq_of_mem_endings hending space with rfl | ⟨rfl, hiso⟩
  · rcases eq_of_mem_endings hending' space' with rfl | ⟨-, hiso'⟩
    · obtain ⟨hspace, hsuffix⟩ := eq_of_append_hyphen hc' hc heq
      exact ⟨hspace.symm, Case.suffix_injective hsuffix.symm⟩
    · exact absurd (eq_of_append_hyphen hother hc (hiso'.symm.trans heq)).2.symm c.suffix_ne_other
  · rw [hiso] at heq
    rcases eq_of_mem_endings hending' space' with rfl | ⟨rfl, hiso'⟩
    · exact absurd (eq_of_append_hyphen hc' hother heq).2 c'.suffix_ne_other
    · have hspace := (eq_of_append_hyphen hother hother (hiso'.symm.trans heq)).1
      exact ⟨((String.append_left_inj _).1 hspace).symm, rfl⟩

/-! ## Scenarios that keep to some playlists -/

/-- A scenario gets through wherever some playlists have no rows, and changes no others. -/
def Clean (own : List String) (x : Scenario Unit) : Prop :=
  ∀ s : Store, (∀ p ∈ own, s.rows p = .empty) →
    ∃ s', x s = .ok () s' ∧ ∀ p, p ∉ own → s'.rows p = s.rows p

namespace Clean

variable {own own' : List String} {x y : Scenario Unit}

theorem pure : Clean [] (pure ()) :=
  fun s _ => ⟨s, rfl, fun _ _ => rfl⟩

/-- Scenarios that keep to different playlists can follow each other. -/
theorem bind (hx : Clean own x) (hy : Clean own' y) (hown : own.Disjoint own') :
    Clean (own ++ own') (x >>= fun _ => y) := by
  intro s hs
  obtain ⟨t, hrun, ht⟩ := hx s fun p hp => hs p (List.mem_append_left _ hp)
  obtain ⟨u, hrun', hu⟩ := hy t fun p hp =>
    (ht p (hown.symm hp)).trans (hs p (List.mem_append_right _ hp))
  refine ⟨u, (Run.bind_of_ok hrun).trans hrun', fun p hp => ?_⟩
  rw [List.mem_append, not_or] at hp
  exact (hu p hp.2).trans (ht p hp.1)

theorem forM {α : Type} {l : List α} {f : α → Scenario Unit} {own : α → List String}
    (h : ∀ a ∈ l, Clean (own a) (f a))
    (hown : l.Pairwise fun a b => (own a).Disjoint (own b)) :
    Clean (l.flatMap own) (l.forM f) := by
  induction l with
  | nil => exact pure
  | cons a rest ih =>
    rw [List.forall_mem_cons] at h
    rw [List.pairwise_cons] at hown
    rw [List.flatMap_cons, List.forM_eq_forM, List.forM_cons]
    refine bind h.1 (ih h.2 hown.2) fun p hp hmem => ?_
    obtain ⟨b, hb, hpb⟩ := List.mem_flatMap.1 hmem
    exact hown.1 b hb hp hpb

end Clean

theorem Yields.clean {v : Venue} {x : Scenario Unit} {after : List Spot}
    (h : Yields v [] x () after) : Clean [v.label.text] x := by
  intro s hs
  obtain ⟨s', hrun, -, hother⟩ := h s (hs _ (List.mem_singleton_self _))
  exact ⟨s', hrun, fun p hp => hother p fun heq => hp (List.mem_singleton.2 heq)⟩

theorem YieldsBoth.clean {v w : Venue} {x : Scenario Unit} {after after' : List Spot}
    (h : YieldsBoth v w [] [] x () after after') : Clean [v.label.text, w.label.text] x := by
  intro s hs
  obtain ⟨s', hrun, -, -, hother⟩ := h s (hs _ (by simp)) (hs _ (by simp))
  refine ⟨s', hrun, fun p hp => ?_⟩
  rw [List.mem_cons, List.mem_singleton, not_or] at hp
  exact hother p hp.1 hp.2

/-! ## The suite -/

/-- The playlist of a namespace whose name ends in a certain way. -/
def Venue.within (space ending : String) (h : space.toList.all isLabelCharacter = true)
    (h' : ending.toList.all isLabelCharacter = true) : Venue where
  label :=
    { text := space ++ "-" ++ ending
      nonempty := by
        intro hempty
        have hlist := congrArg String.toList hempty
        simp at hlist
      wellFormed := by
        have hhyphen : isLabelCharacter '-' = true := by decide
        intro ch hch
        simp only [String.toList_append, List.mem_append] at hch
        rcases hch with (hch | hch) | hch
        · exact List.all_eq_true.1 h ch hch
        · exact List.mem_singleton.1 hch ▸ hhyphen
        · exact List.all_eq_true.1 h' ch hch }
  hyphen := by simp

variable {d : Dialect} {space : String}

/-- Every case gets through and keeps to its playlists. -/
theorem clean_scenario
    (hrepeated : ∀ path playlist, (d.repeated path playlist).category = .storage)
    (h : space.toList.all isLabelCharacter = true) (c : Case) :
    Clean (c.playlists space) (c.scenario ⟨d, .never⟩ (space ++ "-" ++ c.suffix)) := by
  let v := Venue.within space c.suffix h
    (c.all_isLabelCharacter_of_mem_endings _ c.suffix_mem_endings)
  cases c with
  | addThenRebalance => exact (yields_addThenRebalance v d).clean
  | deleteKeepsNeighbours => exact (yields_deleteKeepsNeighbours v d).clean
  | nestedRemoval => exact (yields_nestedRemoval v d).clean
  | listingUsesRowOrder => exact (yields_listingUsesRowOrder v d).clean
  | setOrder => exact (yields_setOrder v d).clean
  | failedTransactionRollsBack => exact (yields_failedTransactionRollsBack v d hrepeated).clean
  | updateSwapsPositions => exact (yields_updateSwapsPositions v d).clean
  | appendAndContains => exact (yields_appendAndContains v d).clean
  | underscoreIsNoWildcard => exact (yields_underscoreIsNoWildcard v d).clean
  | playlistsAreIsolated =>
    let w := Venue.within space "iso-other" h (by decide)
    have hw : w.label.text = v.label.text ++ "-other" := by
      show space ++ "-" ++ "iso-other" = space ++ "-" ++ "iso" ++ "-other"
      simp only [String.append_assoc]
      rfl
    exact (yields_playlistsAreIsolated v d hw).clean
  | rootCycleKeepsSiblings => exact (yields_rootCycleKeepsSiblings v d).clean
  | sharedPlaylistSurvives => exact (yields_sharedPlaylistSurvives v d).clean
  | overflowingAppendIsRefused => exact (yields_overflowingAppendIsRefused v d).clean

theorem clean_runAll
    (hrepeated : ∀ path playlist, (d.repeated path playlist).category = .storage)
    (h : space.toList.all isLabelCharacter = true) :
    Clean (derived space) (runAll ⟨d, .never⟩ space) := by
  have hall : Case.all.Nodup := by decide
  refine .forM (fun c _ => clean_scenario hrepeated h c) (hall.imp fun {c c'} hne p hp hp' => ?_)
  exact hne (eq_of_mem_playlists hp hp').2

/-- **The suite is isolated by its namespace.** On a store where the playlists of the suite have no
rows it can be run for one namespace after another, the empty one included. Every run gets through,
whatever else the store holds, and no playlist changes that does not belong to one of the
namespaces. -/
theorem runAll_isolated {spaces : List String}
    (hlabels : ∀ space ∈ spaces, space.toList.all isLabelCharacter = true)
    (hdistinct : spaces.Nodup) {s : Store}
    (hempty : ∀ space ∈ spaces, ∀ p ∈ derived space, s.rows p = .empty) :
    ∃ s', (spaces.forM (runAll ⟨.memory, .never⟩)) s = .ok () s' ∧
      ∀ p, (∀ space ∈ spaces, p ∉ derived space) → s'.rows p = s.rows p := by
  have hclean : Clean (spaces.flatMap derived) (spaces.forM (runAll ⟨.memory, .never⟩)) := by
    refine .forM (fun space hspace => clean_runAll (fun _ _ => rfl) (hlabels space hspace)) ?_
    refine hdistinct.imp fun {space space'} hne p hp hp' => ?_
    obtain ⟨c, -, hc⟩ := List.mem_flatMap.1 hp
    obtain ⟨c', -, hc'⟩ := List.mem_flatMap.1 hp'
    exact hne (eq_of_mem_playlists hc hc').1
  obtain ⟨s', hrun, hother⟩ := hclean s fun p hp => by
    obtain ⟨space, hspace, hp⟩ := List.mem_flatMap.1 hp
    exact hempty space hspace p hp
  refine ⟨s', hrun, fun p hp => hother p fun hmem => ?_⟩
  obtain ⟨space, hspace, hmem⟩ := List.mem_flatMap.1 hmem
  exact hp space hspace hmem

/-- Namespaces that begin alike, and the empty one. -/
def nearSpaces : List String :=
  ["", "-", "a", "a-iso"]

/-- A store with playlists that are called almost like those of the suite, or like the names in its
scripts, and a row that cannot be read. -/
def nearStore : Store :=
  (((Store.seed .empty "Q" ["Q.track.A.1"]).seed "a" ["a.playlist.a-iso.1"]).seed
    "a-iso-other-add" ["-add.track.T1.1"]).seed "add" ["junk"]

theorem runAll_isolated_near :
    (∀ space ∈ nearSpaces, space.toList.all isLabelCharacter = true) ∧ nearSpaces.Nodup ∧
      (∀ space ∈ nearSpaces, ∀ p ∈ derived space, nearStore.rows p = .empty) ∧
      ∃ s', (nearSpaces.forM (runAll ⟨.memory, .never⟩)) nearStore = .ok () s' ∧
        ∀ p, (∀ space ∈ nearSpaces, p ∉ derived space) → s'.rows p = nearStore.rows p :=
  have hlabels : ∀ space ∈ nearSpaces, space.toList.all isLabelCharacter = true := by decide
  have hdistinct : nearSpaces.Nodup := by decide
  have hempty : ∀ space ∈ nearSpaces, ∀ p ∈ derived space, nearStore.rows p = .empty := by
    decide +kernel
  ⟨hlabels, hdistinct, hempty, runAll_isolated hlabels hdistinct hempty⟩

end Playlists.Conformance
