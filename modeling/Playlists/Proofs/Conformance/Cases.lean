import Playlists.Conformance.Cases
import Playlists.Proofs.Conformance.Steps

/-!
# `Proofs/Conformance/Cases.lean` — every case gets through

Each case is gone through step by step at a venue that has no rows, with the spots that are there
after every step.
-/

set_option autoImplicit false

namespace Playlists.Conformance

open Scenario Spot

open Session (within_bind within_of_error within_of_ok within_pure)

open Staging (within within_rows)

/-! ## The fixed names -/

namespace Mention

def t1 : Mention := .literal "T1" (by decide) (by decide)

def t2 : Mention := .literal "T2" (by decide) (by decide)

def t3 : Mention := .literal "T3" (by decide) (by decide)

def a : Mention := .literal "A" (by decide) (by decide)

def b : Mention := .literal "B" (by decide) (by decide)

def c : Mention := .literal "C" (by decide) (by decide)

def q : Mention := .literal "Q" (by decide) (by decide)

def r : Mention := .literal "R" (by decide) (by decide)

def x : Mention := .literal "X" (by decide) (by decide)

def y : Mention := .literal "Y" (by decide) (by decide)

def t : Mention := .literal "t" (by decide) (by decide)

def qUnderscore : Mention := .literal "Q_" (by decide) (by decide)

def qa : Mention := .literal "QA" (by decide) (by decide)

end Mention

/-- A track of the playlist itself. -/
def Spot.track (item : Mention) (position : UInt64) : Spot :=
  ⟨.self, .track, item, position⟩

/-- A playlist that is nested in the playlist itself. -/
def Spot.nested (item : Mention) (position : UInt64) : Spot :=
  ⟨.self, .playlist, item, position⟩

variable (v : Venue) (d : Dialect)

theorem yields_addThenRebalance :
    Yields v [] (addThenRebalance ⟨d, .never⟩ v.label.text) ()
      [.track .t1 1, .track .t2 2, .track .t3 3] := by
  have hfirst : Addable [] [.track .t1 1, .track .t2 2] := by decide +kernel
  have hthird : Addable [.track .t1 1, .track .t2 2] [.track .t3 3] := by decide +kernel
  have hadd := Yields.addItems (v := v) (d := d) hfirst
  obtain ⟨response, hrebalance⟩ := Yields.addItems_rebalanced (v := v) (d := d) hthird
    (by decide +kernel) (by decide +kernel) (by decide)
  have hlist := v.toList_rows (show Listed [.track .t1 1, .track .t2 2, .track .t3 3] by
    decide +kernel)
  refine hadd.discard.bind ?_
  refine hrebalance.discard.bind ?_
  exact .expectRows hlist

theorem yields_deleteKeepsNeighbours :
    Yields v [] (deleteKeepsNeighbours ⟨d, .never⟩ v.label.text) ()
      [.track .a 1, .track .c 3] := by
  have hseed := Yields.seed (v := v) d (show Fresh [] [.track .a 1, .track .b 2, .track .c 3] by
    decide +kernel)
  have hleaves : Leaves [.track .a 1, .track .b 2, .track .c 3] .b []
      [.track .a 1, .track .c 3] := by decide +kernel
  have hremove := Yields.removeItem (v := v) (d := d) ⟨false, true, none⟩ hleaves
    (by decide +kernel) (by decide) rfl
  have hlist := Yields.listItems (v := v) (d := d) ⟨false, true, none⟩
    (show Listed [.track .a 1, .track .c 3] by decide +kernel)
  refine hseed.bind ?_
  refine hremove.bind ?_
  refine .bind (.expect rfl) ?_
  exact hlist.bind (.expect rfl)

/-- A playlist with another one nested in it, which has a third one nested in it. -/
def nestedSpots : List Spot :=
  [.track .a 1, .nested .q 2, .track .c 3, ⟨.q, .track, .x, 1⟩, ⟨.q, .playlist, .r, 2⟩,
    ⟨.r, .track, .y, 1⟩]

theorem yields_nestedRemoval :
    Yields v [] (nestedRemoval ⟨d, .never⟩ v.label.text) () [.track .a 1, .track .c 2] := by
  have hown : Addable [] [.track .a 1, .nested .q 2, .track .c 3] := by decide +kernel
  have hinQ : Addable [.track .a 1, .nested .q 2, .track .c 3]
      [⟨.q, .track, .x, 1⟩, ⟨.q, .playlist, .r, 2⟩] := by decide +kernel
  have hinR : Addable [.track .a 1, .nested .q 2, .track .c 3, ⟨.q, .track, .x, 1⟩,
      ⟨.q, .playlist, .r, 2⟩] [⟨.r, .track, .y, 1⟩] := by decide +kernel
  have hcloses : Closes ⟨.r, .playlist, .q, 2⟩ nestedSpots := by decide +kernel
  have hfresh : Fresh nestedSpots [⟨.r, .playlist, .q, 2⟩] := by decide +kernel
  -- The removal frees `Q`, for the entry in `R` goes as well, and emptying `Q` frees `R`.
  have hleaves : Leaves (nestedSpots ++ [⟨.r, .playlist, .q, 2⟩]) .q [.r, .q]
      [.track .a 1, .track .c 3] := by decide +kernel
  have hremove := Yields.removeItem_rebalanced (v := v) (d := d) hleaves (by decide +kernel)
    (by decide) (by decide +kernel) (by decide)
  have hlist := v.toList_rows (show Listed [.track .a 1, .track .c 2] by decide +kernel)
  refine (Yields.addItems hown).discard.bind ?_
  refine (Yields.addItems hinQ).discard.bind ?_
  refine (Yields.addItems hinR).discard.bind ?_
  refine (Yields.refuse_addItem (v.pathFor_eq_cyclic hcloses) rfl).bind ?_
  refine (Yields.seed d hfresh).bind ?_
  refine hremove.bind ?_
  refine .bind (.expect rfl) ?_
  exact .expectRows hlist

/-- Ten entries of one track. -/
def tenfold : List Spot :=
  [.track .t 1, .track .t 2, .track .t 3, .track .t 4, .track .t 5, .track .t 6, .track .t 7,
    .track .t 8, .track .t 9, .track .t 10]

/-- The same entries in the order of their rows. -/
def tenfoldListed : List Spot :=
  [.track .t 1, .track .t 10, .track .t 2, .track .t 3, .track .t 4, .track .t 5, .track .t 6,
    .track .t 7, .track .t 8, .track .t 9]

theorem yields_listingUsesRowOrder :
    Yields v [] (listingUsesRowOrder ⟨d, .never⟩ v.label.text) () tenfold := by
  have hadd := Yields.addItems (v := v) (d := d) (show Addable [] tenfold by decide +kernel)
  have hperm : tenfold.Perm tenfoldListed := by decide +kernel
  have hlist := Yields.listItems (v := v) (d := d) {} (show Listed tenfoldListed by decide +kernel)
  have hplay := Yields.playbackOrder (v := v) (d := d) (show InTurn tenfold by decide +kernel)
    (by decide +kernel)
  refine (hadd.discard.reorder hperm).bind ?_
  refine (hlist.reorder hperm.symm).bind ?_
  refine .bind (.expect rfl) ?_
  exact hplay.bind (.expect rfl)

theorem yields_setOrder :
    Yields v [] (setOrder ⟨d, .never⟩ v.label.text) ()
      [.track .c 1, .track .a 2, .track .b 3] := by
  have hadd := Yields.addItems (v := v) (d := d)
    (show Addable [] [.track .a 1, .track .b 2, .track .c 3] by decide +kernel)
  have harrange : Operation.arrange v.label.text []
      ([.track .a 1, .track .b 2, .track .c 3].map v.path) ["C", "A"]
        = .ok ([.track .c 3, .track .a 1, .track .b 2].map v.path) := rfl
  have horder := Yields.setOrder (v := v) (d := d)
    (show InTurn [.track .a 1, .track .b 2, .track .c 3] by decide +kernel) (by decide) harrange
  have hturn : InTurn [.track .c 1, .track .a 2, .track .b 3] := by decide +kernel
  have hplay := Yields.playbackOrder (v := v) (d := d) hturn (by decide +kernel)
  have hmissing : Operation.arrange v.label.text []
      ([.track .c 1, .track .a 2, .track .b 3].map v.path) ["missing"]
        = .error (.notPartOf "missing" v.label.text) := rfl
  refine hadd.discard.bind ?_
  refine horder.discard.bind ?_
  refine hplay.bind ?_
  refine .bind (.expect rfl) ?_
  exact .refuse_setOrder hturn hmissing rfl

/-- The second write of a row is refused as a fault of the store, in whatever words. -/
theorem yields_failedTransactionRollsBack
    (hrepeated : ∀ path playlist, (d.repeated path playlist).category = .storage) :
    Yields v [] (failedTransactionRollsBack ⟨d, .never⟩ v.label.text) () [.track .a 1] := by
  have hseed := Yields.seed (v := v) d (show Fresh [] [.track .a 1] by decide +kernel)
  have hfirst := v.insert_eq (d := d) (show Fresh [.track .a 1] [.track .b 2] by decide +kernel)
  have hsecond := v.insert_eq_error (d := d)
    (show Spot.track .a 1 ∈ [.track .a 1, .track .b 2] by decide +kernel)
  have hlist := v.toList_rows (show Listed [.track .a 1] by decide +kernel)
  refine hseed.bind ?_
  refine (Yields.decode (.track .b 2)).bind ?_
  refine (Yields.decode (.track .a 1)).bind ?_
  refine .bind (.rollBack fun s hs => ?_) (.expectRows hlist)
  have hstaged := within_of_ok (t := Session.fresh s) ((congrArg _ hs).trans hfirst)
  have hrefused := within_of_error
    ((congrArg _ ((Session.fresh s).rows_stage v.label.text _)).trans hsecond)
  refine ⟨_, (Run.bind_of_ok hstaged).trans (congrArg (EStateM.Result.ok · _) hrefused), ?_⟩
  show ((d.repeated _ _).category == .storage) = true
  rw [hrepeated]
  rfl

theorem yields_updateSwapsPositions :
    Yields v [] (updateSwapsPositions ⟨d, .never⟩ v.label.text) ()
      [.track .a 2, .track .b 1] := by
  have hseed := Yields.seed (v := v) d (show Fresh [] [.track .a 1, .track .b 2] by decide +kernel)
  have hrekey := v.rekey_eq (d := d) (show Relocates [.track .a 1, .track .b 2]
    [(.track .a 1, .track .a 2), (.track .b 2, .track .b 1)] by decide +kernel)
  have hlist := v.toList_rows (show Listed [.track .a 2, .track .b 1] by decide +kernel)
  refine hseed.bind ?_
  refine (Yields.decode (.track .a 1)).bind ?_
  refine (Yields.decode (.track .a 2)).bind ?_
  refine (Yields.decode (.track .b 2)).bind ?_
  refine (Yields.decode (.track .b 1)).bind ?_
  exact .bind (.commit rfl hrekey rfl) (.expectRows hlist)

theorem lookAndAppend_eq_within (backend : Backend) (playlist : String) :
    lookAndAppend backend playlist
      = (within playlist (lookAndAppend backend playlist) : Work Session _) := by
  simp only [lookAndAppend, within_bind, within_pure, within_rows, ← Edit.append_eq_within]

/-- Two entries of the playlist, and one under a name that it nests. -/
def gappedSpots : List Spot :=
  [.track .a 9, .nested .q 10, ⟨.q, .track, .x, 2⟩]

theorem yields_appendAndContains :
    Yields v [] (appendAndContains ⟨d, .never⟩ v.label.text) ()
      (gappedSpots ++ [⟨.q, .track, .y, 3⟩] ++ [.track .b 11]) := by
  have hseed := Yields.seed (v := v) d (show Fresh [] gappedSpots by decide +kernel)
  have hown := v.lastPosition_eq (d := d) (show last gappedSpots .self = some 10 by decide +kernel)
  have hinQ := v.lastPosition_eq (d := d) (show last gappedSpots .q = some 2 by decide +kernel)
  have hinR := v.lastPosition_eq (d := d) (show last gappedSpots .r = none by decide +kernel)
  have hplaylist := v.pointsAt_eq (d := d)
    (show decide (∃ s ∈ gappedSpots, s.kind = .playlist ∧ s.item = .q) = true by decide +kernel)
  have htrack := v.pointsAt_eq (d := d)
    (show decide (∃ s ∈ gappedSpots, s.kind = .track ∧ s.item = .q) = false by decide +kernel)
  have hy := v.append_eq (d := d) (s := ⟨.q, .track, .y, 3⟩)
    (show 3 = (last gappedSpots .q).getD 0 + 1 by decide +kernel)
  have hb := Yields.appendItem (v := v) (d := d)
    (show Addable (gappedSpots ++ [⟨.q, .track, .y, 3⟩]) [.track .b 11] by decide +kernel)
  refine hseed.bind (.bind (.commit (a := (some 10, some 2, none, true, false, "Q.track.Y.3"))
    (lookAndAppend_eq_within ⟨d, .never⟩ v.label.text) ?_ (beq_self_eq_true _))
    (hb.bind (.expect ?_)))
  · refine (Run.bind_of_ok hown).trans ?_
    refine (Run.bind_of_ok hinQ).trans ?_
    refine (Run.bind_of_ok hinR).trans ?_
    refine (Run.bind_of_ok hplaylist).trans ?_
    refine (Run.bind_of_ok htrack).trans ?_
    refine (Run.bind_of_ok hy).trans ?_
    rw [v.text_path]
    rfl
  · exact beq_iff_eq.2 (v.text_path _)

theorem lookAndRemove_eq_within (backend : Backend) (playlist : String) :
    lookAndRemove backend playlist
      = (within playlist (lookAndRemove backend playlist) : Work Session _) := by
  simp only [lookAndRemove, within_bind, within_pure, within_rows, ← Edit.removeSubtree_eq_within]

/-- Two nested playlists whose names differ where one of them has an underscore. -/
def wildSpots : List Spot :=
  [.nested .qUnderscore 1, .nested .qa 2, ⟨.qUnderscore, .track, .x, 1⟩, ⟨.qa, .track, .y, 1⟩]

theorem yields_underscoreIsNoWildcard :
    Yields v [] (underscoreIsNoWildcard ⟨d, .never⟩ v.label.text) ()
      [.nested .qa 2, ⟨.qa, .track, .y, 1⟩] := by
  have hseed := Yields.seed (v := v) d (show Fresh [] wildSpots by decide +kernel)
  have hinside := v.rowsUnder_eq (d := d) (show wildSpots.filter (·.root = .qUnderscore)
    = [⟨.qUnderscore, .track, .x, 1⟩] by decide +kernel) (by decide)
  have hremove := v.removeSubtree_eq (d := d) (show Leaves wildSpots .qUnderscore [.qUnderscore]
    [.nested .qa 2, ⟨.qa, .track, .y, 1⟩] by decide +kernel)
  refine hseed.bind (.bind (.commit (a := (["Q_.track.X.1"], 2))
    (lookAndRemove_eq_within ⟨d, .never⟩ v.label.text) ?_ (beq_self_eq_true _))
    (.expectRows (congrArg KeyedList.toList (v.rows_eq _))))
  refine (Run.bind_of_ok hinside).trans ?_
  exact Run.bind_of_ok hremove

theorem yields_playlistsAreIsolated {w : Venue} (hw : w.label.text = v.label.text ++ "-other") :
    YieldsBoth v w [] [] (playlistsAreIsolated ⟨d, .never⟩ v.label.text) () [] [.track .a 1] := by
  have hne : w.label.text ≠ v.label.text := by
    intro heq
    have hlength := congrArg String.length (hw.symm.trans heq)
    rw [String.length_append] at hlength
    exact absurd (Nat.add_eq_left.1 hlength) (by decide)
  have hone : Addable [] [.track .a 1] := by decide +kernel
  have hadd := Yields.addItems (v := v) (d := d) hone
  have hother := Yields.addItems (v := w) (d := d) hone
  have hclear := Yields.clearPlaylist (v := v) (d := d) (List.nodup_singleton (Spot.track .a 1))
  have hnone := Yields.listItems (v := v) (d := d) {} (show Listed [] by decide)
  have hlist := Yields.listItems (v := w) (d := d) {} (show Listed [.track .a 1] by decide +kernel)
  rw [playlistsAreIsolated, ← hw]
  refine (YieldsBoth.first hne hadd.discard).bind ?_
  refine (YieldsBoth.second hne hother.discard).bind ?_
  refine (YieldsBoth.first hne hclear).bind ?_
  refine (YieldsBoth.first hne (.expect rfl)).bind ?_
  refine (YieldsBoth.first hne hnone).bind ?_
  refine (YieldsBoth.first hne (.expect rfl)).bind ?_
  exact (YieldsBoth.second hne hlist).bind (.first hne (.expect rfl))

/-- A playlist with one nested in it that holds the playlist. -/
def roundSpots : List Spot :=
  [.track .a 1, .nested .q 2, .track .c 3, ⟨.q, .playlist, .self, 1⟩]

theorem yields_rootCycleKeepsSiblings :
    Yields v [] (rootCycleKeepsSiblings ⟨d, .never⟩ v.label.text) ()
      [.track .a 1, .track .c 2] := by
  have hseed := Yields.seed (v := v) d (show Fresh [] roundSpots by decide +kernel)
  have hback : "Q.playlist." ++ v.label.text ++ ".1"
      = Spot.text v.label.text ⟨.q, .playlist, .self, 1⟩ := by
    show _ = "Q" ++ (".playlist." ++ v.label.text ++ "." ++ "1")
    simp only [String.append_assoc]
    show ("Q" ++ ".playlist.") ++ (v.label.text ++ ".1") = _
    exact String.append_assoc
  -- The playlist loses the entry that points at it and is not freed all the same.
  have hleaves : Leaves roundSpots .q [.q] [.track .a 1, .track .c 3] := by decide +kernel
  have hremove := Yields.removeItem_rebalanced (v := v) (d := d) hleaves (by decide +kernel)
    (by decide) (by decide +kernel) (by decide)
  have hlist := v.toList_rows (show Listed [.track .a 1, .track .c 2] by decide +kernel)
  rw [rootCycleKeepsSiblings, hback]
  refine hseed.bind (hremove.bind ?_)
  exact .bind (.expect rfl) (.expectRows hlist)

/-- Two nested playlists that hold each other, one of them pointed at by the playlist. -/
def sharedSpots : List Spot :=
  [.nested .q 1, ⟨.q, .track, .x, 1⟩, ⟨.q, .playlist, .r, 2⟩, ⟨.r, .track, .y, 1⟩,
    ⟨.r, .playlist, .q, 2⟩]

theorem yields_sharedPlaylistSurvives :
    Yields v [] (sharedPlaylistSurvives ⟨d, .never⟩ v.label.text) ()
      [.nested .q 1, ⟨.q, .track, .x, 1⟩] := by
  have hseed := Yields.seed (v := v) d (show Fresh [] sharedSpots by decide +kernel)
  -- `Q` loses the entry in `R` and is still pointed at by the playlist.
  have hremove := v.removeSubtree_eq (d := d) (show Leaves sharedSpots .r [.r]
    [.nested .q 1, ⟨.q, .track, .x, 1⟩] by decide +kernel)
  refine hseed.bind (.bind (.commit (Edit.removeSubtree_eq_within _ d "R") hremove rfl) ?_)
  exact .expectRows (congrArg KeyedList.toList (v.rows_eq _))

theorem yields_overflowingAppendIsRefused :
    Yields v [] (overflowingAppendIsRefused ⟨d, .never⟩ v.label.text) ()
      [.track .a 18446744073709551615] := by
  have hlast : v.label.text ++ ".track.A." ++ String.ofList (Text.numeral (UInt64.size - 1))
      = Spot.text v.label.text (.track .a 18446744073709551615) := by
    rw [String.append_assoc]
    rfl
  have hseed := Yields.seed (v := v) d
    (show Fresh [] [.track .a 18446744073709551615] by decide +kernel)
  have hfull := v.pathFor_eq_error (s := .track .b 1)
    (show Fits _ [.track .a 18446744073709551615] by decide +kernel) (by decide +kernel)
  have hlist := v.toList_rows (show Listed [.track .a 18446744073709551615] by decide +kernel)
  rw [overflowingAppendIsRefused, hlast]
  refine hseed.bind ?_
  refine (Yields.refuse_appendItem hfull rfl).bind ?_
  refine (Yields.refuse_addItem hfull rfl).bind ?_
  exact .expectRows hlist

end Playlists.Conformance
