import Playlists.Proofs.Operation.Alike
import Playlists.Proofs.Service.Soundness
import Playlists.Proofs.Tree.Playback

/-!
# `Proofs/Service/Rebalancing.lean` — numbering afresh never changes what playlists mean

Take the same requests to two services, of which each numbers afresh when it likes. Their rows have
little in common after a while, but their playlists mean the same: the same entries in the same
order under every label. The proof walks through both runs at once and keeps the trees of all
playlists alike (`Store.Paired`). Each request is then refused for the same cause or answered in the
same way, and leaves alike trees (`Request.outcome_both`).

Positions can run out, and the two services would notice at different times. They cannot run out
while the items that were added and those that are asked for are fewer than there are positions.
-/

set_option autoImplicit false

namespace Playlists

open Failure (Both)

/-! ## Requests and responses of two services -/

/-- How many items were added. -/
def Response.added : Response → Nat
  | paths created => created.length
  | path _ => 1
  | _ => 0

/-- How many items were added in the course of some responses. -/
def Service.added (responses : List (Except Failure Response)) : Nat :=
  (responses.map fun
    | .ok response => response.added
    | .error _ => 0).sum

/-- The same request to change a playlist, but for the wish to number afresh. No item is given a
position. -/
inductive Request.Same : Request → Request → Prop where
  | addItems (playlist : String) (items : List NewItem) (rebalance rebalance' : Bool) :
    Same (.addItems playlist items none rebalance) (.addItems playlist items none rebalance')
  | appendItem (playlist : String) (parent : Option String) (kind : Kind) (item : String) :
    Same (.appendItem playlist parent kind item) (.appendItem playlist parent kind item)
  | setOrder (playlist : String) (items : List String) :
    Same (.setOrder playlist items) (.setOrder playlist items)
  | removeItem (playlist item : String) :
    Same (.removeItem playlist item) (.removeItem playlist item)
  | clearPlaylist (playlist : String) : Same (.clearPlaylist playlist) (.clearPlaylist playlist)

/-- The same request under settings with the same limit. -/
structure Counterparts (a b : Config × Request) : Prop where
  limit : a.1.maxPlaylistItems = b.1.maxPlaylistItems
  request : a.2.Same b.2

/-- The same response, but for the positions in it. -/
inductive Response.Same : Response → Response → Prop where
  | paths {paths paths' : List Path} (h : SameEntries paths paths') :
    Same (.paths paths) (.paths paths')
  | path {path path' : Path} (h : path.sameEntry path' = true) : Same (.path path) (.path path')
  | done : Same .done .done
  | count (n : Nat) : Same (.count n) (.count n)

theorem Request.Same.playlist_eq {r r' : Request} (h : r.Same r') : r.playlist = r'.playlist := by
  cases h <;> rfl

/-! ## One request -/

variable (d d' : Dialect) {config config' : Config} {n : Nat}

theorem Tree.paired_empty (n : Nat) : Tree.Paired n .empty .empty where
  alike := .refl _
  agreeing _ he := absurd he KeyedList.mem_empty
  agreeing' _ he := absurd he KeyedList.mem_empty
  within := ⟨Nat.zero_le n, fun _ hp => absurd hp List.not_mem_nil⟩
  within' := ⟨Nat.zero_le n, fun _ hp => absurd hp List.not_mem_nil⟩

/-- Requests that are the same are refused for the same cause, or are answered in the same way and
leave alike trees. -/
theorem Request.outcome_both {playlist : Label} {rows rows' : Rows}
    (h : Tree.Paired n rows.tree rows'.tree) (hread : rows.Readable) (hread' : rows'.Readable)
    (hlimit : config.maxPlaylistItems = config'.maxPlaylistItems) {r r' : Request}
    (hr : r.Same r') (hroom : n + r.itemCount < UInt64.size) :
    Both (fun result result' => result.1.Same result'.1 ∧
        Tree.Paired (n + result.1.added) result.2 result'.2)
      (r.outcome d config playlist rows) (r'.outcome d' config' playlist rows') := by
  cases hr with
  | addItems _ items rebalance rebalance' =>
    refine .map (Operation.enlarge_both h hlimit items hroom rebalance rebalance') ?_
    intro result result' hok _ hboth
    have hlength : result.1.length = items.length := by
      obtain ⟨-, -, created, grown, hgrown, hpaths, -⟩ := Operation.enlarge_eq_ok_iff.1 hok
      rw [hpaths, List.length_map, hgrown.length_created]
    exact ⟨.paths hboth.1, by
      show Tree.Paired (n + result.1.length) _ _
      rw [hlength]
      exact hboth.2⟩
  | appendItem _ parent kind item =>
    refine .map (Operation.extend_both h hlimit hroom parent kind item) ?_
    intro result result' _ _ hboth
    exact ⟨.path hboth.1, hboth.2⟩
  | setOrder _ items =>
    refine .map (Operation.rearrange_both h items) ?_
    intro result result' _ _ hboth
    exact ⟨.done, hboth⟩
  | removeItem _ item =>
    refine .map (Operation.reduce_both h hread hread' item) ?_
    intro result result' _ _ hboth
    obtain ⟨m, after⟩ := result
    obtain ⟨m', after'⟩ := result'
    obtain ⟨rfl, hpaired⟩ := hboth
    exact ⟨.count m, hpaired⟩
  | clearPlaylist _ =>
    have hsize := h.size_eq
    rw [hread.size_tree, hread'.size_tree] at hsize
    refine .ok ⟨?_, Tree.paired_empty _⟩
    rw [hsize]
    exact .count _

/-- No request adds more items than it asks for. -/
theorem Request.added_le_itemCount {playlist : Label} {rows : Rows} {r : Request}
    {result : Response × Tree} (hok : r.outcome d config playlist rows = .ok result) :
    result.1.added ≤ r.itemCount := by
  obtain ⟨response, after⟩ := result
  cases Request.accepted hok with
  | addItems hadd =>
    obtain ⟨-, -, created, grown, hgrown, rfl, -⟩ := Operation.enlarge_eq_ok_iff.1 hadd
    show (created.map _).length ≤ List.length _
    rw [List.length_map, hgrown.length_created]
  | appendItem _ => exact Nat.le_refl 1
  | setOrder _ => exact Nat.le_refl 0
  | removeItem _ => exact Nat.le_refl 0
  | listItems _ => exact Nat.le_refl 0
  | playbackOrder _ => exact Nat.le_refl 0
  | clearPlaylist _ => exact Nat.le_refl 0

/-! ## Runs -/

/-- The playlists of two stores mean the same. -/
structure Store.Paired (n : Nat) (s s' : Store) : Prop where
  sound : s.Sound
  sound' : s'.Sound
  paired : ∀ playlist, Tree.Paired n (s.rows playlist).tree (s'.rows playlist).tree

namespace Service

variable {s s' : Store}

theorem added_cons (response : Except Failure Response)
    (responses : List (Except Failure Response)) :
    added (response :: responses) = added [response] + added responses := by
  rw [added, added, added, List.map_cons, List.map_cons, List.sum_cons, List.sum_cons,
    List.map_nil, List.sum_nil, Nat.add_zero]

/-- Two answers that were decided alike leave stores that mean the same. -/
theorem answer_both (h : s.Paired n s') {playlist : String}
    {outcome outcome' : Except Failure (Response × Tree)}
    (hboth : Both (fun result result' => result.1.Same result'.1 ∧
      Tree.Paired (n + result.1.added) result.2 result'.2) outcome outcome')
    (hsound : ∀ response after, after.Numerable → outcome = .ok (response, after) →
      after.Sound playlist)
    (hsound' : ∀ response after, after.Numerable → outcome' = .ok (response, after) →
      after.Sound playlist)
    (hroom : ∀ response after, outcome = .ok (response, after) →
      n + response.added < UInt64.size) :
    Both Response.Same (s.answer playlist outcome).1 (s'.answer playlist outcome').1 ∧
      Store.Paired (n + added [(s.answer playlist outcome).1]) (s.answer playlist outcome).2
        (s'.answer playlist outcome').2 := by
  cases hboth with
  | error failure => exact ⟨.error failure, h⟩
  | @ok result result' hresult =>
    -- The answer has at most as many entries as the new bound, so both sides can number them.
    have hlt := hroom _ _ rfl
    have hnum := Tree.numerable_of_size_lt (Nat.lt_of_le_of_lt hresult.2.within.size_le hlt)
    have hnum' := Tree.numerable_of_size_lt (Nat.lt_of_le_of_lt hresult.2.within'.size_le hlt)
    have hafter := hsound _ _ hnum rfl
    have hafter' := hsound' _ _ hnum' rfl
    refine ⟨.ok hresult.1, h.sound.withRows hafter.toRows, h.sound'.withRows hafter'.toRows,
      fun other => ?_⟩
    show Tree.Paired (n + result.1.added) (Store.rows (s.withRows _ _) other).tree
      (Store.rows (s'.withRows _ _) other).tree
    by_cases hother : other = playlist
    · rw [hother, Store.rows_withRows_self, Store.rows_withRows_self,
        Tree.toRows_tree hafter.agreeing hafter.storable,
        Tree.toRows_tree hafter'.agreeing hafter'.storable]
      exact hresult.2
    · rw [Store.rows_withRows_of_ne _ _ hother, Store.rows_withRows_of_ne _ _ hother]
      exact (h.paired other).mono (Nat.le_add_right _ _)

/-- One step of both runs. -/
theorem handle_both (h : s.Paired n s') {a b : Config × Request} (hab : Counterparts a b)
    (hroom : n + a.2.itemCount < UInt64.size) :
    Both Response.Same (handle ⟨d, .never⟩ a.1 a.2 s).1 (handle ⟨d', .never⟩ b.1 b.2 s').1 ∧
      Store.Paired (n + added [(handle ⟨d, .never⟩ a.1 a.2 s).1]) (handle ⟨d, .never⟩ a.1 a.2 s).2
        (handle ⟨d', .never⟩ b.1 b.2 s').2 := by
  cases hlabel : Label.read a.2.playlist with
  | error failure =>
    have hlabel' := hlabel
    rw [hab.request.playlist_eq] at hlabel'
    rw [handle, handle, hlabel, hlabel']
    exact ⟨.error failure, h⟩
  | ok playlist =>
    have hname : a.2.playlist = playlist.text := (Label.text_of_read hlabel).symm
    have hname' : b.2.playlist = playlist.text := hab.request.playlist_eq.symm.trans hname
    have hp := h.sound playlist.text
    have hp' := h.sound' playlist.text
    rw [handle_eq d hp.readable hp.nested.rooted hname,
      handle_eq d' hp'.readable hp'.nested.rooted hname']
    refine answer_both h ?_ (fun _ _ hnum hok => Request.outcome_sound hp hnum hok)
      (fun _ _ hnum hok => Request.outcome_sound hp' hnum hok) fun response after hok => ?_
    · exact Request.outcome_both d d' (h.paired playlist.text) hp.readable hp'.readable hab.limit
        hab.request hroom
    · have hle := Request.added_le_itemCount d hok
      exact Nat.lt_of_le_of_lt (Nat.add_le_add_left hle n) hroom

/-- Before each request there is room for the items that it asks for: together with those added so
far they are fewer than there are positions. -/
def HasRoom (backend : Backend) (n : Nat) (requests : List (Config × Request)) (s : Store) : Prop :=
  ∀ front request, front ++ [request] <+: requests →
    n + added (run backend front s).1 + request.2.itemCount < UInt64.size

theorem run_both (h : s.Paired n s') {requests requests' : List (Config × Request)}
    (hsame : List.Forall₂ Counterparts requests requests')
    (hroom : HasRoom ⟨d, .never⟩ n requests s) :
    List.Forall₂ (Both Response.Same) (run ⟨d, .never⟩ requests s).1
        (run ⟨d', .never⟩ requests' s').1 ∧
      ∃ m, Store.Paired m (run ⟨d, .never⟩ requests s).2 (run ⟨d', .never⟩ requests' s').2 := by
  induction hsame generalizing n s s' with
  | nil => exact ⟨.nil, n, h⟩
  | @cons a b rest rest' hab hrest ih =>
    have hfirst : n + a.2.itemCount < UInt64.size :=
      hroom [] a (List.prefix_append [a] rest)
    obtain ⟨hboth, hpaired⟩ := handle_both d d' h hab hfirst
    -- What this request has added is taken off the room for the rest of the run.
    have hlater : HasRoom ⟨d, .never⟩ (n + added [(handle ⟨d, .never⟩ a.1 a.2 s).1]) rest
        (handle ⟨d, .never⟩ a.1 a.2 s).2 := by
      intro front request hfront
      have hlong := hroom (a :: front) request ((List.prefix_cons_inj a).2 hfront)
      rw [run, added_cons] at hlong
      omega
    obtain ⟨hresponses, hstores⟩ := ih hpaired hlater
    exact ⟨.cons hboth hresponses, hstores⟩

theorem paired_empty : Store.Paired 0 .empty .empty where
  sound := sound_empty
  sound' := sound_empty
  paired _ := Tree.paired_empty 0

theorem HasRoom.take {backend : Backend} {requests : List (Config × Request)}
    (h : HasRoom backend n requests s) (k : Nat) : HasRoom backend n (requests.take k) s :=
  fun front request hfront => h front request (hfront.trans (List.take_prefix k requests))

theorem added_handle_le (h : s.Sound) (config : Config) (r : Request) :
    added [(handle ⟨d, .never⟩ config r s).1] ≤ r.itemCount := by
  rcases handle_cases_of_sound h config r with
    ⟨failure, hrun⟩ | ⟨playlist, response, after, hout, hrun⟩
  · rw [hrun]
    exact Nat.zero_le _
  · rw [hrun]
    exact Request.added_le_itemCount d hout

theorem added_run_le (h : s.Sound) {requests : List (Config × Request)}
    (hcount : StaysCountable ⟨d, .never⟩ requests s) :
    added (run ⟨d, .never⟩ requests s).1 ≤ (requests.map fun request => request.2.itemCount).sum := by
  induction requests generalizing s with
  | nil => exact Nat.le_refl 0
  | cons request rest ih =>
    rw [run, added_cons, List.map_cons, List.sum_cons]
    exact Nat.add_le_add (added_handle_le d h request.1 request.2)
      (ih (handle_sound_of_size h hcount.first) hcount.rest)

/-- There is room throughout a run that asks for fewer items in total than there are positions. -/
theorem hasRoom_of_total (h : s.Sound) (hs : ∀ playlist, (s.rows playlist).size ≤ n)
    {requests : List (Config × Request)}
    (htotal : n + (requests.map fun request => request.2.itemCount).sum < UInt64.size) :
    HasRoom ⟨d, .never⟩ n requests s := by
  intro front request hfront
  have hcount : StaysCountable ⟨d, .never⟩ requests s := .of_total hs htotal
  have hle := added_run_le d h
    (hcount.of_prefix ((List.prefix_append front [request]).trans hfront))
  obtain ⟨rest, rfl⟩ := hfront
  simp only [List.map_append, List.map_cons, List.map_nil, List.sum_append, List.sum_cons,
    List.sum_nil] at htotal
  omega

end Service

/-! ## What two runs have in common -/

/-- The playlists of two stores mean the same. -/
structure Store.MeansSame (s s' : Store) : Prop where
  /-- The children of every label are of the same kinds and items, in the same order. -/
  outline : ∀ playlist label,
    (s.rows playlist).tree.outline label = (s'.rows playlist).tree.outline label
  /-- The same is heard, up to the positions that the nodes mention. -/
  playback : ∀ playlist (label : Label),
    ((s.rows playlist).tree.playbackOrder label.text).map Node.unplaced
      = ((s'.rows playlist).tree.playbackOrder label.text).map Node.unplaced
  /-- Numbered afresh, the rows are the same. -/
  rebalanced : ∀ playlist, (s.rows playlist).tree.rebalance.1.toRows
    = (s'.rows playlist).tree.rebalance.1.toRows

theorem Store.Paired.meansSame {s s' : Store} (h : s.Paired n s') : s.MeansSame s' where
  outline playlist := (h.paired playlist).alike
  playback playlist label :=
    (h.paired playlist).alike.playbackOrder (Rows.agreeing_tree _) (Rows.agreeing_tree _) label
  rebalanced playlist := congrArg Tree.toRows
    ((h.paired playlist).alike.rebalance_eq (Rows.agreeing_tree _) (Rows.agreeing_tree _))

/-- **Numbering afresh never changes what playlists mean.** Two services that start with nothing and
get the same requests, but number afresh at different times, answer them alike, and after every
request their playlists mean the same. -/
theorem Service.run_means_same {requests requests' : List (Config × Request)}
    (hsame : List.Forall₂ Counterparts requests requests')
    (hroom : HasRoom ⟨d, .never⟩ 0 requests .empty) :
    List.Forall₂ (Both Response.Same) (run ⟨d, .never⟩ requests .empty).1
        (run ⟨d', .never⟩ requests' .empty).1 ∧
      ∀ k, Store.MeansSame (run ⟨d, .never⟩ (requests.take k) .empty).2
        (run ⟨d', .never⟩ (requests'.take k) .empty).2 := by
  refine ⟨(run_both d d' paired_empty hsame hroom).1, fun k => ?_⟩
  obtain ⟨-, m, hpaired⟩ := run_both d d' paired_empty (List.forall₂_take k hsame) (hroom.take k)
  exact hpaired.meansSame

/-- Requests to a service that numbers afresh whenever it can. -/
def tidyRequests : List (Config × Request) :=
  [({}, .addItems "P" [⟨.track, "A", none⟩, ⟨.playlist, "Q", none⟩] none true),
    ({}, .appendItem "P" (some "Q") .track "B"), ({}, .setOrder "P" ["Q"]),
    ({}, .removeItem "P" "A"), ({}, .addItems "P" [⟨.track, "C", none⟩] none true)]

/-- The same requests to a service that never does. -/
def untidyRequests : List (Config × Request) :=
  [({}, .addItems "P" [⟨.track, "A", none⟩, ⟨.playlist, "Q", none⟩] none false),
    ({}, .appendItem "P" (some "Q") .track "B"), ({}, .setOrder "P" ["Q"]),
    ({ rebalanceOnRemove := false }, .removeItem "P" "A"),
    ({}, .addItems "P" [⟨.track, "C", none⟩] none false)]

theorem Service.run_means_same_untidy :
    List.Forall₂ Counterparts tidyRequests untidyRequests ∧
      HasRoom ⟨.memory, .never⟩ 0 tidyRequests .empty ∧
      List.Forall₂ (Both Response.Same) (run ⟨.memory, .never⟩ tidyRequests .empty).1
        (run ⟨.memory, .never⟩ untidyRequests .empty).1 ∧
      ∀ k, Store.MeansSame (run ⟨.memory, .never⟩ (tidyRequests.take k) .empty).2
        (run ⟨.memory, .never⟩ (untidyRequests.take k) .empty).2 :=
  have hsame : List.Forall₂ Counterparts tidyRequests untidyRequests :=
    .cons ⟨rfl, .addItems ..⟩ (.cons ⟨rfl, .appendItem ..⟩ (.cons ⟨rfl, .setOrder ..⟩
      (.cons ⟨rfl, .removeItem ..⟩ (.cons ⟨rfl, .addItems ..⟩ .nil))))
  have hroom : HasRoom ⟨.memory, .never⟩ 0 tidyRequests .empty :=
    hasRoom_of_total .memory sound_empty (fun _ => Nat.le_refl 0) (by decide)
  ⟨hsame, hroom, run_means_same .memory .memory hsame hroom⟩

end Playlists
