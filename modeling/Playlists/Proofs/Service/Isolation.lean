import Playlists.Proofs.Service.Frame

/-!
# `Proofs/Service/Isolation.lean` — playlists do not interfere

A label names a playlist of the store, and the same label may stand in the rows of another playlist,
which nests it. The two have nothing to do with each other. The operations are free to read and write
the rows of any playlist, and each of their calls names the one that it means; what holds them apart
is that this is always the playlist of the request, also where a label that was read from a row is
followed, looked for or emptied. That is the frame lemma of each operation
(`Request.work_transacts`), and with it a request comes to the work on the rows of its own playlist
(`Service.handle_eq_keep`).

So a run can be looked at from one playlist (`exchangesOn`): the requests on it, in their order,
with the answers to them. Requests on other playlists change none of its rows
(`rows_handle_of_ne`), and a request on it comes to the same in any store with these rows
(`handle_congr`). What is seen from a playlist is then the run of its own requests alone
(`exchangesOn_eq`).
-/

set_option autoImplicit false

namespace Playlists

/-! ## One request -/

namespace Store

variable {α : Type} {s s' : Store} {playlist other : String}

theorem rows_keep_of_ne (result : EStateM.Result Failure Rows α) (s : Store)
    (h : other ≠ playlist) : (s.keep playlist result).2.rows other = s.rows other := by
  cases result with
  | ok a rows => exact rows_withRows_of_ne s rows h
  | error failure rows => rfl

theorem keep_congr (result : EStateM.Result Failure Rows α)
    (h : s.rows playlist = s'.rows playlist) :
    (s.keep playlist result).1 = (s'.keep playlist result).1 ∧
      (s.keep playlist result).2.rows playlist = (s'.keep playlist result).2.rows playlist := by
  cases result with
  | ok a rows =>
    refine ⟨rfl, ?_⟩
    rw [keep, keep, rows_withRows_self, rows_withRows_self]
  | error failure rows => exact ⟨rfl, h⟩

end Store

namespace Service

variable (backend : Backend) {s s' : Store} {playlist : String}

/-- A request on one playlist leaves the rows of the others. -/
theorem rows_handle_of_ne (config : Config) (r : Request) (s : Store) (h : playlist ≠ r.playlist) :
    (handle backend config r s).2.rows playlist = s.rows playlist := by
  cases hlabel : Label.read r.playlist with
  | error failure => rw [handle, hlabel]
  | ok label =>
    rw [← Label.text_of_read hlabel] at h
    rw [handle_eq_keep backend config hlabel]
    exact Store.rows_keep_of_ne _ s h

/-- A request sees no rows but those of its playlist. -/
theorem handle_congr (config : Config) {r : Request} (h : s.rows r.playlist = s'.rows r.playlist) :
    (handle backend config r s).1 = (handle backend config r s').1 ∧
      (handle backend config r s).2.rows r.playlist
        = (handle backend config r s').2.rows r.playlist := by
  cases hlabel : Label.read r.playlist with
  | error failure =>
    rw [handle, handle, hlabel]
    exact ⟨rfl, h⟩
  | ok label =>
    rw [handle_eq_keep backend config hlabel, handle_eq_keep backend config hlabel]
    rw [← Label.text_of_read hlabel] at h ⊢
    rw [h]
    exact Store.keep_congr _ h

/-! ## Runs -/

/-- The requests on a playlist, in their order. -/
def requestsOn (playlist : String) (requests : List (Config × Request)) : List (Config × Request) :=
  requests.filter fun request => request.2.playlist == playlist

/-- The requests of a run, each with its answer. -/
def exchanges (requests : List (Config × Request)) (s : Store) :
    List ((Config × Request) × Except Failure Response) :=
  requests.zip (run backend requests s).1

/-- What is seen of a run from one playlist: the requests on it, each with its answer. -/
def exchangesOn (playlist : String) (requests : List (Config × Request)) (s : Store) :
    List ((Config × Request) × Except Failure Response) :=
  (exchanges backend requests s).filter fun exchange => exchange.1.2.playlist == playlist

theorem exchanges_cons (request : Config × Request) (rest : List (Config × Request)) (s : Store) :
    exchanges backend (request :: rest) s
      = (request, (handle backend request.1 request.2 s).1) ::
          exchanges backend rest (handle backend request.1 request.2 s).2 :=
  rfl

/-- Seen from a playlist, a run is the run of the requests on it alone, in any store that has the
same rows for it. -/
theorem exchangesOn_eq (h : s.rows playlist = s'.rows playlist)
    (requests : List (Config × Request)) :
    exchangesOn backend playlist requests s
        = exchanges backend (requestsOn playlist requests) s' ∧
      (run backend requests s).2.rows playlist
        = (run backend (requestsOn playlist requests) s').2.rows playlist := by
  induction requests generalizing s s' with
  | nil => exact ⟨rfl, h⟩
  | cons request rest ih =>
    obtain ⟨config, r⟩ := request
    rw [exchangesOn, exchanges_cons, requestsOn]
    by_cases hr : r.playlist = playlist
    · subst hr
      obtain ⟨hanswer, hrows⟩ := handle_congr backend config h
      obtain ⟨hexchanges, hlast⟩ := ih hrows
      rw [List.filter_cons_of_pos (by simp), List.filter_cons_of_pos (by simp), exchanges_cons,
        hanswer]
      exact ⟨congrArg _ hexchanges, hlast⟩
    · -- The request is on another playlist, so only the first of the two runs makes a step.
      have hframe := rows_handle_of_ne backend config r s (Ne.symm hr)
      rw [List.filter_cons_of_neg (by simpa using hr), List.filter_cons_of_neg (by simpa using hr)]
      exact ih (hframe.trans h)

/-- **Playlists do not interfere.** Any number of clients ask what they like of any playlists, one
request after another. Take a second history, of other clients or in another order, that has the
same requests on one playlist in the same order, and let it begin on a store with the same rows for
that playlist. Then each of these requests is answered alike in both, and the rows of the playlist
are the same in the end. Nothing is assumed of the labels: a playlist may nest a label that names
another one. -/
theorem run_isolated {requests requests' : List (Config × Request)}
    (hrequests : requestsOn playlist requests = requestsOn playlist requests')
    (hrows : s.rows playlist = s'.rows playlist) :
    exchangesOn backend playlist requests s = exchangesOn backend playlist requests' s' ∧
      (run backend requests s).2.rows playlist = (run backend requests' s').2.rows playlist := by
  obtain ⟨hexchanges, hlast⟩ := exchangesOn_eq backend hrows requests
  obtain ⟨hexchanges', hlast'⟩ := exchangesOn_eq backend (s := s') rfl requests'
  rw [hexchanges, hexchanges', hlast, hlast', hrequests]
  exact ⟨rfl, rfl⟩

/-- Requests on a playlist that nests another, among requests on that other. -/
def crossedRequests : List (Config × Request) :=
  [({}, .addItems "P" [⟨.playlist, "Q", none⟩] none false), ({}, .appendItem "Q" none .track "A"),
    ({}, .appendItem "P" (some "Q") .track "B"), ({}, .clearPlaylist "Q"),
    ({}, .removeItem "Q" "B"), ({}, .removeItem "P" "B"), ({}, .playbackOrder "P")]

/-- The same requests on the one, and others on the other. -/
def recrossedRequests : List (Config × Request) :=
  [({}, .addItems "Q" [⟨.playlist, "P", none⟩] (some 7) true), ({}, .removeItem "Q" "P"),
    ({}, .addItems "P" [⟨.playlist, "Q", none⟩] none false),
    ({}, .appendItem "P" (some "Q") .track "B"), ({}, .removeItem "P" "B"),
    ({}, .playbackOrder "P"), ({}, .appendItem "Q" none .track "A")]

theorem run_isolated_crossed :
    requestsOn "P" crossedRequests = requestsOn "P" recrossedRequests ∧
      Store.rows .empty "P" = Store.rows (.seed .empty "Q" ["Q.track.B.4", "Q.playlist.P.2"]) "P" ∧
      exchangesOn ⟨.memory, .never⟩ "P" crossedRequests .empty
        = exchangesOn ⟨.memory, .never⟩ "P" recrossedRequests
            (.seed .empty "Q" ["Q.track.B.4", "Q.playlist.P.2"]) ∧
      (run ⟨.memory, .never⟩ crossedRequests .empty).2.rows "P"
        = (run ⟨.memory, .never⟩ recrossedRequests
            (.seed .empty "Q" ["Q.track.B.4", "Q.playlist.P.2"])).2.rows "P" :=
  have hrequests : requestsOn "P" crossedRequests = requestsOn "P" recrossedRequests := by decide
  have hrows : Store.rows .empty "P"
      = Store.rows (.seed .empty "Q" ["Q.track.B.4", "Q.playlist.P.2"]) "P" := by decide +kernel
  ⟨hrequests, hrows, run_isolated ⟨.memory, .never⟩ hrequests hrows⟩

end Service

end Playlists
