import Playlists.Proofs.Nesting.Ancestors
import Playlists.Proofs.Service.Capacity

/-!
# `Proofs/Service/Soundness.lean` — playlists stay sound

A playlist is sound if all its rows can be read, if its nestings neither go round in circles nor
lead back to it, and if every row is reached from it. Requests decide in memory what becomes of a
playlist (`Request.outcome`), so it is enough to look at the trees they make: each of them is sound
if the one before was (`outcome_sound`). A request on sound playlists is refused or leaves the rows of
such a tree (`Service.handle_cases_of_sound`), and by induction all playlists stay sound for as long
as nothing but requests changes them (`Service.run_sound`).

Positions that are given afresh go up to the number of siblings, and they can be read back only if
there are positions for all of them (`Tree.Numerable`). That is so while rows can be counted.
-/

set_option autoImplicit false

namespace Playlists

open Relation

/-- A tree that the rows of a sound playlist make. -/
structure Tree.Sound (playlist : String) (t : Tree) : Prop where
  agreeing : t.Agreeing
  storable : t.Storable
  nested : WellNested playlist t.paths

/-- The rows of a sound playlist. -/
structure Rows.Sound (playlist : String) (rows : Rows) : Prop where
  readable : rows.Readable
  nested : WellNested playlist rows.paths

theorem Rows.Sound.tree {playlist : String} {rows : Rows} (h : rows.Sound playlist) :
    rows.tree.Sound playlist where
  agreeing := rows.agreeing_tree
  storable := rows.storable_tree
  nested := rows.paths_tree.symm ▸ h.nested

theorem Tree.Sound.toRows {playlist : String} {t : Tree} (h : t.Sound playlist) :
    t.toRows.Sound playlist where
  readable := readable_toRows h.storable
  nested := (paths_toRows h.storable).symm ▸ h.nested

theorem Rows.sound_empty (playlist : String) : Rows.Sound playlist .empty where
  readable _ hrow := absurd hrow KeyedList.mem_empty
  nested := .nil playlist

namespace Tree.Sound

variable {playlist : String} {t after : Tree}

/-- Other positions keep a tree sound, if they can be stored. -/
theorem rearranged {steps : List (Entry × Entry)} (h : t.Sound playlist)
    (hsteps : t.Rearranges after steps) (hs : after.Storable) : after.Sound playlist where
  agreeing := hsteps.agreeing h.agreeing
  storable := hs
  nested := h.nested.rearranged hsteps

theorem balanced (h : t.Sound playlist) {rebalance : Bool}
    (hnum : (t.balanced rebalance).1.Numerable) : (t.balanced rebalance).1.Sound playlist := by
  obtain ⟨steps, hsteps, -⟩ := t.exists_rearranges_balanced rebalance
  have ht := (Tree.numerable_balanced_iff rebalance).1 hnum
  exact h.rearranged hsteps (Tree.storable_balanced h.storable ht rebalance)

end Tree.Sound

/-! ## Every request keeps a playlist sound -/

namespace Operation

variable {config : Config} {playlist : Label} {t after : Tree}

theorem enlarge_sound (h : t.Sound playlist.text) {items : List NewItem}
    {explicit : Option UInt64} {rebalance : Bool} {paths : List Path} (hnum : after.Numerable)
    (hok : enlarge config playlist items explicit rebalance t = .ok (paths, after)) :
    after.Sound playlist.text := by
  obtain ⟨-, -, created, grown, hgrown, -, rfl⟩ := enlarge_eq_ok_iff.1 hok
  have hsound : grown.Sound playlist.text :=
    { agreeing := hgrown.agreeing h.agreeing
      storable := hgrown.storable h.storable
      nested := h.nested.grown hgrown }
  exact hsound.balanced hnum

theorem extend_sound (h : t.Sound playlist.text) {parent : Option String} {kind : Kind}
    {item : String} {path : Path}
    (hok : extend config playlist parent kind item t = .ok (path, after)) :
    after.Sound playlist.text := by
  obtain ⟨-, hpath, rfl⟩ := extend_eq_ok_iff.1 hok
  have htakes := Tree.pathFor_eq_ok hpath
  exact ⟨Tree.agreeing_put h.agreeing _, Tree.storable_put h.storable htakes.position_lt_size,
    h.nested.put htakes⟩

theorem rearrange_sound (h : t.Sound playlist.text) {items : List String} (hnum : after.Numerable)
    (hok : rearrange playlist items t = .ok ((), after)) : after.Sound playlist.text := by
  rw [rearrange_eq h.agreeing] at hok
  obtain ⟨ordered, harrange, heq⟩ := Failure.map_eq_ok_iff.1 hok
  cases heq
  have hperm := perm_siblings_of_arrange h.agreeing harrange
  have hsteps := Tree.rearranges_reordered playlist.dot_not_mem hperm
  exact h.rearranged hsteps (hsteps.storable h.storable hnum
    fun _ hp => Tree.position_of_mem_reordered playlist.dot_not_mem hperm hp)

end Operation

/-- What a removal leaves is sound. -/
theorem Rows.Sound.remaining {playlist : String} {rows : Rows} (h : rows.Sound playlist)
    (item : String) : (rows.remaining playlist item).Sound playlist where
  readable := h.readable.remaining playlist item
  nested := by
    have hsub : ∀ p ∈ (rows.remaining playlist item).paths, p ∈ rows.paths :=
      fun p hp => (mem_paths_remaining.1 hp).1
    exact ⟨h.nested.acyclic.anti fun a b => Nests.mono hsub,
      fun label hnest => h.nested.not_nested label (hnest.mono hsub),
      rooted_remaining h.nested.rooted⟩

theorem Operation.reduce_sound {d : Dialect} {config : Config} {playlist : Label} {rows : Rows}
    (h : rows.Sound playlist.text) {item : String} {removed : Nat} {after : Tree}
    (hnum : after.Numerable) (hok : reduce d config playlist item rows = .ok (removed, after)) :
    after.Sound playlist.text := by
  have hafter := reduce_eq_ok h.readable hok
  subst hafter
  exact (h.remaining item).tree.balanced hnum

/-- Every answer to a request on a sound playlist leaves a sound one, if its children can be
numbered. -/
theorem Request.outcome_sound {d : Dialect} {config : Config} {playlist : Label} {rows : Rows}
    (h : rows.Sound playlist.text) {r : Request} {response : Response} {after : Tree}
    (hnum : after.Numerable) (hok : r.outcome d config playlist rows = .ok (response, after)) :
    after.Sound playlist.text := by
  cases Request.accepted hok with
  | addItems hadd => exact Operation.enlarge_sound h.tree hnum hadd
  | appendItem happend => exact Operation.extend_sound h.tree happend
  | setOrder horder => exact Operation.rearrange_sound h.tree hnum horder
  | removeItem hremove => exact Operation.reduce_sound h hnum hremove
  | listItems _ => exact h.tree
  | playbackOrder _ => exact h.tree
  | clearPlaylist _ => exact (Rows.sound_empty playlist.text).tree

/-! ## Runs -/

/-- All playlists of a store are sound. -/
def Store.Sound (s : Store) : Prop :=
  ∀ playlist, (s.rows playlist).Sound playlist

/-- Sound rows for one playlist leave a sound store. -/
theorem Store.Sound.withRows {s : Store} (h : s.Sound) {playlist : String} {rows : Rows}
    (hrows : rows.Sound playlist) : (s.withRows playlist rows).Sound :=
  Store.forall_rows_withRows (P := fun playlist rows => rows.Sound playlist) h hrows

namespace Service

variable {backend : Backend} {config : Config} {s : Store}

/-- All that a request can come to where the playlists are sound: it is refused and changes nothing,
or it is decided in memory and leaves the rows of the tree that was made there. -/
theorem handle_cases_of_sound (h : s.Sound) (config : Config) (r : Request) :
    (∃ failure, handle backend config r s = (.error failure, s)) ∨
      ∃ (playlist : Label) (response : Response) (after : Tree),
        r.outcome backend.dialect config playlist (s.rows playlist.text) = .ok (response, after) ∧
        handle backend config r s = (.ok response, s.withRows playlist.text after.toRows) := by
  rcases handle_cases backend config r s with
    hrefused | ⟨playlist, response, rows, -, hwork, hrun⟩
  · exact .inl hrefused
  · have hp := h playlist.text
    rw [Request.work_eq backend.dialect hp.readable r fun _ => hp.nested.rooted] at hwork
    cases hout : r.outcome backend.dialect config playlist (s.rows playlist.text) with
    | error failure =>
      rw [hout] at hwork
      cases hwork
    | ok result =>
      obtain ⟨response', after⟩ := result
      rw [hout] at hwork
      cases hwork
      exact .inr ⟨playlist, response, after, hout, hrun⟩

/-- One request keeps all playlists sound, if it leaves children that can be numbered. -/
theorem handle_sound (h : s.Sound) {r : Request}
    (hnum : ∀ playlist response after,
      r.outcome backend.dialect config playlist (s.rows playlist.text) = .ok (response, after) →
      handle backend config r s = (.ok response, s.withRows playlist.text after.toRows) →
      after.Numerable) : (handle backend config r s).2.Sound := by
  rcases handle_cases_of_sound h config r with
    ⟨failure, hrun⟩ | ⟨playlist, response, after, hout, hrun⟩
  · rw [hrun]
    exact h
  · have hafter := hnum playlist response after hout hrun
    rw [hrun]
    exact h.withRows (Request.outcome_sound (h playlist.text) hafter hout).toRows

theorem handle_sound_of_size (h : s.Sound) {r : Request}
    (hsize : ∀ playlist, ((handle backend config r s).2.rows playlist).size < UInt64.size) :
    (handle backend config r s).2.Sound := by
  refine handle_sound h fun playlist response after _ hrun => ?_
  have hlt := hsize playlist.text
  rw [hrun, Store.rows_withRows_self, Tree.size_toRows] at hlt
  exact Tree.numerable_of_size_lt hlt

theorem run_sound_of_sound (h : s.Sound) {requests : List (Config × Request)}
    (hcount : StaysCountable backend requests s) : (run backend requests s).2.Sound := by
  induction requests generalizing s with
  | nil => exact h
  | cons request rest ih => exact ih (handle_sound_of_size h hcount.first) hcount.rest

theorem sound_empty : Store.Sound .empty :=
  fun playlist => Rows.sound_empty playlist

/-- **Playlists stay sound.** However many requests have been answered, under whatever settings and
on whatever medium, all rows of every playlist can be read, its nestings do not go round in circles,
nothing nests the playlist itself, and every row stands under a label that one gets to from it. -/
theorem run_sound (backend : Backend) {requests : List (Config × Request)}
    (hcount : StaysCountable backend requests .empty) (playlist : String) :
    ((run backend requests .empty).2.rows playlist).Readable ∧
      Acyclic ((run backend requests .empty).2.rows playlist).paths ∧
      (∀ label, ¬ Nests ((run backend requests .empty).2.rows playlist).paths label playlist) ∧
      ∀ p ∈ ((run backend requests .empty).2.rows playlist).paths,
        ReflTransGen (Nests ((run backend requests .empty).2.rows playlist).paths) playlist
          p.root.text := by
  have h : ((run backend requests .empty).2.rows playlist).Sound playlist :=
    run_sound_of_sound sound_empty hcount playlist
  -- Requests keep every label pointed at; without circles that means reached.
  exact ⟨h.readable, h.nested.acyclic, h.nested.not_nested,
    fun p hp => h.nested.acyclic.reachable h.nested.rooted hp⟩

/-- Requests that nest playlists in one another, try to close a circle, number afresh, and take away
what is shared. -/
def knottingRequests : List (Config × Request) :=
  let config : Config := { maxPlaylistItems := some 5 }
  [(config, .addItems "P" [⟨.playlist, "Q", none⟩, ⟨.playlist, "R", some "Q"⟩,
      ⟨.track, "A", some "R"⟩] none true),
    (config, .appendItem "P" (some "R") .playlist "Q"), (config, .appendItem "P" none .playlist "R"),
    (config, .addItems "P" [⟨.track, "C", some "Q"⟩] (some 18446744073709551615) true),
    (config, .appendItem "P" none .track "D"), (config, .removeItem "P" "A"),
    (config, .appendItem "P" none .track "B"), (config, .removeItem "P" "Q")]

theorem run_sound_knotting :
    StaysCountable ⟨.memory, .poisoned "B"⟩ knottingRequests .empty ∧
      ((run ⟨.memory, .poisoned "B"⟩ knottingRequests .empty).2.rows "P").Readable ∧
      Acyclic ((run ⟨.memory, .poisoned "B"⟩ knottingRequests .empty).2.rows "P").paths ∧
      (∀ label,
        ¬ Nests ((run ⟨.memory, .poisoned "B"⟩ knottingRequests .empty).2.rows "P").paths label
          "P") ∧
      ∀ p ∈ ((run ⟨.memory, .poisoned "B"⟩ knottingRequests .empty).2.rows "P").paths,
        ReflTransGen
          (Nests ((run ⟨.memory, .poisoned "B"⟩ knottingRequests .empty).2.rows "P").paths) "P"
          p.root.text :=
  have hlimit : ∀ request ∈ knottingRequests, request.1.maxPlaylistItems = some 5 := by decide
  have hcount : StaysCountable ⟨.memory, .poisoned "B"⟩ knottingRequests .empty :=
    .of_limits (fun _ => (by decide : 0 < UInt64.size)) hlimit
  ⟨hcount, run_sound ⟨.memory, .poisoned "B"⟩ hcount "P"⟩

end Service

end Playlists
