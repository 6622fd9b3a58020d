import Playlists.Proofs.Service.Soundness
import Playlists.Proofs.Tree.Spacing

/-!
# `Proofs/Service/Spacing.lean` — siblings stay at positions of their own

As long as no request gives an item a position, siblings are at different ones. Each answer to a
request leaves them so (`Request.outcome_spaced`), whether or not it numbers anything afresh, and a
refused request changes nothing. What makes it hold is that playlists stay sound at the same time:
the next position is asked for in a tree of all rows. That in turn needs no bound on the number of
rows here, since siblings that are apart never run out of numbers (`Request.outcome_numerable`).
-/

set_option autoImplicit false

namespace Playlists

/-! ## Every request keeps siblings apart -/

namespace Operation

variable {config : Config} {playlist : Label} {t after : Tree}

theorem enlarge_spaced (h : Spaced t.paths) (ha : t.Agreeing) {items : List NewItem}
    {rebalance : Bool} {paths : List Path}
    (hok : enlarge config playlist items none rebalance t = .ok (paths, after)) :
    Spaced after.paths := by
  obtain ⟨-, -, created, grown, hgrown, -, rfl⟩ := enlarge_eq_ok_iff.1 hok
  rw [ite_self] at hgrown
  exact Tree.spaced_balanced (hgrown.spaced ha h) rebalance

theorem extend_spaced (h : Spaced t.paths) (ha : t.Agreeing) {parent : Option String} {kind : Kind}
    {item : String} {path : Path}
    (hok : extend config playlist parent kind item t = .ok (path, after)) :
    Spaced after.paths := by
  obtain ⟨-, hpath, rfl⟩ := extend_eq_ok_iff.1 hok
  exact Tree.spaced_put h ha (Tree.pathFor_eq_ok hpath).position

theorem rearrange_spaced (h : Spaced t.paths) (ha : t.Agreeing) {items : List String}
    (hok : rearrange playlist items t = .ok ((), after)) : Spaced after.paths := by
  rw [rearrange_eq ha] at hok
  obtain ⟨ordered, harrange, heq⟩ := Failure.map_eq_ok_iff.1 hok
  cases heq
  exact Tree.spaced_reordered h playlist.dot_not_mem (perm_siblings_of_arrange ha harrange)

theorem reduce_spaced {d : Dialect} {rows : Rows} (h : Spaced rows.paths) (hread : rows.Readable)
    {item : String} {removed : Nat}
    (hok : reduce d config playlist item rows = .ok (removed, after)) : Spaced after.paths := by
  rw [reduce_eq_ok hread hok]
  refine Tree.spaced_balanced ?_ config.rebalanceOnRemove
  rw [Rows.paths_tree]
  exact h.anti fun p hp => (Rows.mem_paths_remaining.1 hp).1

/-! Numbering afresh keeps the number of children, so it is enough to look before it. -/

theorem enlarge_numerable (h : Spaced t.paths) (ha : t.Agreeing) (hs : t.Storable)
    {items : List NewItem} {rebalance : Bool} {paths : List Path}
    (hok : enlarge config playlist items none rebalance t = .ok (paths, after)) :
    after.Numerable := by
  obtain ⟨-, -, created, grown, hgrown, -, rfl⟩ := enlarge_eq_ok_iff.1 hok
  rw [ite_self] at hgrown
  rw [Tree.numerable_balanced_iff]
  exact Tree.numerable_of_spaced (hgrown.agreeing ha) (hgrown.storable hs) (hgrown.spaced ha h)

theorem extend_numerable (h : Spaced t.paths) (ha : t.Agreeing) (hs : t.Storable)
    {parent : Option String} {kind : Kind} {item : String} {path : Path}
    (hok : extend config playlist parent kind item t = .ok (path, after)) : after.Numerable := by
  obtain ⟨-, hpath, rfl⟩ := extend_eq_ok_iff.1 hok
  have htakes := Tree.pathFor_eq_ok hpath
  exact Tree.numerable_of_spaced (Tree.agreeing_put ha _)
    (Tree.storable_put hs htakes.position_lt_size) (Tree.spaced_put h ha htakes.position)

theorem rearrange_numerable (hnum : t.Numerable) (ha : t.Agreeing) {items : List String}
    (hok : rearrange playlist items t = .ok ((), after)) : after.Numerable := by
  rw [rearrange_eq ha] at hok
  obtain ⟨ordered, harrange, heq⟩ := Failure.map_eq_ok_iff.1 hok
  cases heq
  have hperm := perm_siblings_of_arrange ha harrange
  exact (Tree.rearranges_reordered playlist.dot_not_mem hperm).numerable_iff.1 hnum

theorem reduce_numerable {d : Dialect} {rows : Rows} (h : Spaced rows.paths)
    (hread : rows.Readable) {item : String} {removed : Nat}
    (hok : reduce d config playlist item rows = .ok (removed, after)) : after.Numerable := by
  rw [reduce_eq_ok hread hok, Tree.numerable_balanced_iff]
  refine Tree.numerable_of_spaced (Rows.agreeing_tree _) (Rows.storable_tree _) ?_
  rw [Rows.paths_tree]
  exact h.anti fun p hp => (Rows.mem_paths_remaining.1 hp).1

end Operation

/-- The position that a request gives to its items, if it gives one. -/
def Request.explicit? : Request → Option UInt64
  | addItems _ _ explicit _ => explicit
  | _ => none

/-- Every answer to a request that gives no position leaves siblings apart. -/
theorem Request.outcome_spaced {d : Dialect} {config : Config} {playlist : Label} {rows : Rows}
    (h : Spaced rows.paths) (hread : rows.Readable) {r : Request} (hr : r.explicit? = none)
    {response : Response} {after : Tree}
    (hok : r.outcome d config playlist rows = .ok (response, after)) : Spaced after.paths := by
  have htree : Spaced rows.tree.paths := rows.paths_tree.symm ▸ h
  cases Request.accepted hok with
  | addItems hadd =>
    cases hr
    exact Operation.enlarge_spaced htree rows.agreeing_tree hadd
  | appendItem happend => exact Operation.extend_spaced htree rows.agreeing_tree happend
  | setOrder horder => exact Operation.rearrange_spaced htree rows.agreeing_tree horder
  | removeItem hremove => exact Operation.reduce_spaced h hread hremove
  | listItems _ => exact htree
  | playbackOrder _ => exact htree
  | clearPlaylist _ => exact .nil

/-- Where siblings are apart, what a request leaves can be numbered: numbering afresh leaves as many
children as it finds, and those that it finds are apart as well. -/
theorem Request.outcome_numerable {d : Dialect} {config : Config} {playlist : Label} {rows : Rows}
    (h : Spaced rows.paths) (hread : rows.Readable) {r : Request} (hr : r.explicit? = none)
    {response : Response} {after : Tree}
    (hok : r.outcome d config playlist rows = .ok (response, after)) : after.Numerable := by
  have hspaced : Spaced rows.tree.paths := rows.paths_tree.symm ▸ h
  have htree : rows.tree.Numerable :=
    Tree.numerable_of_spaced rows.agreeing_tree rows.storable_tree hspaced
  cases Request.accepted hok with
  | addItems hadd =>
    cases hr
    exact Operation.enlarge_numerable hspaced rows.agreeing_tree rows.storable_tree hadd
  | appendItem happend =>
    exact Operation.extend_numerable hspaced rows.agreeing_tree rows.storable_tree happend
  | setOrder horder => exact Operation.rearrange_numerable htree rows.agreeing_tree horder
  | removeItem hremove => exact Operation.reduce_numerable h hread hremove
  | listItems _ => exact htree
  | playbackOrder _ => exact htree
  | clearPlaylist _ => exact Tree.numerable_of_size_lt (by decide)

/-! ## Runs -/

/-- In every playlist of a store siblings are at different positions. -/
def Store.Spaced (s : Store) : Prop :=
  ∀ playlist, Playlists.Spaced (s.rows playlist).paths

namespace Service

variable {backend : Backend} {s : Store}

/-- Soundness is what makes the next position one of its own, and spacing is what lets siblings be
numbered, so the two are kept together. -/
theorem handle_spaced (hsound : s.Sound) (h : s.Spaced) {config : Config} {r : Request}
    (hr : r.explicit? = none) :
    (handle backend config r s).2.Sound ∧ (handle backend config r s).2.Spaced := by
  have hnum : ∀ playlist response after,
      r.outcome backend.dialect config playlist (s.rows playlist.text) = .ok (response, after) →
      after.Numerable := fun playlist response after =>
    Request.outcome_numerable (h playlist.text) (hsound playlist.text).readable hr
  refine ⟨handle_sound hsound fun playlist response after hout _ => hnum playlist _ _ hout, ?_⟩
  rcases handle_cases_of_sound hsound config r with
    ⟨failure, hrun⟩ | ⟨playlist, response, after, hout, hrun⟩
  · rw [hrun]
    exact h
  · have hafter := Request.outcome_sound (hsound playlist.text) (hnum _ _ _ hout) hout
    have hspaced := Request.outcome_spaced (h _) (hsound _).readable hr hout
    rw [← Tree.paths_toRows hafter.storable] at hspaced
    rw [hrun]
    exact Store.forall_rows_withRows (P := fun _ rows => Spaced rows.paths) h hspaced

theorem run_spaced_of_spaced (hsound : s.Sound) (h : s.Spaced) {requests : List (Config × Request)}
    (hrequests : ∀ request ∈ requests, request.2.explicit? = none) :
    (run backend requests s).2.Sound ∧ (run backend requests s).2.Spaced := by
  induction requests generalizing s with
  | nil => exact ⟨hsound, h⟩
  | cons request rest ih =>
    obtain ⟨hfirst, hrest⟩ := List.forall_mem_cons.1 hrequests
    obtain ⟨hsound', hspaced'⟩ := handle_spaced hsound h hfirst
    exact ih hsound' hspaced' hrest

/-- **Siblings never share a position.** However many requests have been answered or refused, under
whatever settings and on whatever medium, if none of them gave an item a position, then all rows of
every playlist can be read, the rows under one label are at different positions, tracks and
playlists together, and no position is below one. -/
theorem run_spaced (backend : Backend) {requests : List (Config × Request)}
    (h : ∀ request ∈ requests, request.2.explicit? = none) (playlist : String) :
    ((run backend requests .empty).2.rows playlist).Readable ∧
      Spaced ((run backend requests .empty).2.rows playlist).paths := by
  have hkept : (run backend requests .empty).2.Sound ∧ (run backend requests .empty).2.Spaced :=
    run_spaced_of_spaced sound_empty (fun _ => .nil) h
  obtain ⟨hsound, hspaced⟩ := hkept
  exact ⟨(hsound playlist).readable, hspaced playlist⟩

/-- Requests that leave gaps, go on behind them and close them, some of them in vain. -/
def gappingRequests : List (Config × Request) :=
  [({}, .addItems "P" [⟨.track, "A", none⟩, ⟨.playlist, "Q", none⟩, ⟨.track, "B", some "Q"⟩,
      ⟨.track, "C", none⟩] none false),
    ({ rebalanceOnRemove := false }, .removeItem "P" "A"),
    ({}, .appendItem "P" (some "Q") .playlist "P"), ({}, .appendItem "P" none .track "D"),
    ({}, .appendItem "P" none .track "Q"), ({}, .setOrder "P" ["C", "Q"]),
    ({}, .removeItem "P" "B"),
    ({}, .addItems "P" [⟨.track, "B", some "Q"⟩] none true)]

theorem run_spaced_gapping :
    (∀ request ∈ gappingRequests, request.2.explicit? = none) ∧
      ((run ⟨.memory, .poisoned "D"⟩ gappingRequests .empty).2.rows "P").Readable ∧
      Spaced ((run ⟨.memory, .poisoned "D"⟩ gappingRequests .empty).2.rows "P").paths :=
  have h : ∀ request ∈ gappingRequests, request.2.explicit? = none := by decide
  ⟨h, run_spaced ⟨.memory, .poisoned "D"⟩ h "P"⟩

end Service

end Playlists
