import Playlists.Proofs.Operation.Remove
import Playlists.Proofs.Service.Frame

/-!
# `Proofs/Service/Answers.lean` — how requests on a sound playlist are answered

On rows that can be read a request is decided in memory: `Request.outcome` is what it comes to
there, a refusal or a response with a tree. The service does nothing else. If it refuses, the store
is what it was, and if it does not, the rows of the playlist are the rows of that tree. The rows have
to hang together only for a request that moves nested rows (`Request.movesNested`), since a row that
moves is refused under a label that the playlist does not know.
-/

set_option autoImplicit false

namespace Playlists

variable {playlist : Label} {config : Config}

/-- What a request comes to in memory, on the rows of its playlist. -/
def Request.outcome (d : Dialect) (config : Config) (playlist : Label) (rows : Rows) :
    Request → Except Failure (Response × Tree)
  | addItems _ items explicit rebalance =>
    (Operation.enlarge config playlist items explicit rebalance rows.tree).map (.map .paths id)
  | appendItem _ parent kind item =>
    (Operation.extend config playlist parent kind item rows.tree).map (.map .path id)
  | setOrder _ items =>
    (Operation.rearrange playlist items rows.tree).map (.map (fun _ => .done) id)
  | removeItem _ item => (Operation.reduce d config playlist item rows).map (.map .count id)
  | listItems _ => .ok (.nodes (rows.paths.map Node.ofPath), rows.tree)
  | playbackOrder _ => .ok (.nodes (rows.tree.playbackOrder playlist.text), rows.tree)
  | clearPlaylist _ => .ok (.count rows.size, .empty)

/-- A request that is accepted in memory, with its response and the tree that it leaves. -/
inductive Request.Accepted (d : Dialect) (config : Config) (playlist : Label) (rows : Rows) :
    Request → Response → Tree → Prop where
  | addItems {name : String} {items : List NewItem} {explicit : Option UInt64} {rebalance : Bool}
    {paths : List Path} {after : Tree}
    (h : Operation.enlarge config playlist items explicit rebalance rows.tree
      = .ok (paths, after)) :
    Accepted d config playlist rows (.addItems name items explicit rebalance) (.paths paths) after
  | appendItem {name : String} {parent : Option String} {kind : Kind} {item : String} {path : Path}
    {after : Tree}
    (h : Operation.extend config playlist parent kind item rows.tree = .ok (path, after)) :
    Accepted d config playlist rows (.appendItem name parent kind item) (.path path) after
  | setOrder {name : String} {items : List String} {after : Tree}
    (h : Operation.rearrange playlist items rows.tree = .ok ((), after)) :
    Accepted d config playlist rows (.setOrder name items) .done after
  | removeItem {name item : String} {removed : Nat} {after : Tree}
    (h : Operation.reduce d config playlist item rows = .ok (removed, after)) :
    Accepted d config playlist rows (.removeItem name item) (.count removed) after
  | listItems (name : String) :
    Accepted d config playlist rows (.listItems name) (.nodes (rows.paths.map Node.ofPath))
      rows.tree
  | playbackOrder (name : String) :
    Accepted d config playlist rows (.playbackOrder name)
      (.nodes (rows.tree.playbackOrder playlist.text)) rows.tree
  | clearPlaylist (name : String) :
    Accepted d config playlist rows (.clearPlaylist name) (.count rows.size) .empty

/-- What a request comes to, if it comes to anything, it comes to by the operation that it asks
for. -/
theorem Request.accepted {d : Dialect} {rows : Rows} {r : Request} {response : Response}
    {after : Tree} (hok : r.outcome d config playlist rows = .ok (response, after)) :
    r.Accepted d config playlist rows response after := by
  cases r with
  | addItems name items explicit rebalance =>
    obtain ⟨result, h, heq⟩ := Failure.map_eq_ok_iff.1 hok
    cases heq
    exact .addItems h
  | appendItem name parent kind item =>
    obtain ⟨result, h, heq⟩ := Failure.map_eq_ok_iff.1 hok
    cases heq
    exact .appendItem h
  | setOrder name items =>
    obtain ⟨result, h, heq⟩ := Failure.map_eq_ok_iff.1 hok
    cases heq
    exact .setOrder h
  | removeItem name item =>
    obtain ⟨result, h, heq⟩ := Failure.map_eq_ok_iff.1 hok
    cases heq
    exact .removeItem h
  | listItems name =>
    cases hok
    exact .listItems name
  | playbackOrder name =>
    cases hok
    exact .playbackOrder name
  | clearPlaylist name =>
    cases hok
    exact .clearPlaylist name

/-- The answer to a request that was decided in memory, with the store after it. -/
def Store.answer (s : Store) (playlist : String) :
    Except Failure (Response × Tree) → Except Failure Response × Store
  | .ok (response, after) => (.ok response, s.withRows playlist after.toRows)
  | .error failure => (.error failure, s)

theorem Store.answer_fst (s : Store) (playlist : String)
    (outcome : Except Failure (Response × Tree)) :
    (s.answer playlist outcome).1 = outcome.map Prod.fst := by
  cases outcome with
  | error failure => rfl
  | ok result => rfl

theorem Store.answer_eq_ok_iff {s s' : Store} {playlist : String}
    {outcome : Except Failure (Response × Tree)} {response : Response} :
    s.answer playlist outcome = (.ok response, s') ↔
      ∃ after, outcome = .ok (response, after) ∧ s' = s.withRows playlist after.toRows := by
  cases outcome with
  | error failure => exact ⟨fun h => (nomatch h), fun ⟨_, h, _⟩ => (nomatch h)⟩
  | ok result =>
    constructor
    · intro h
      cases h
      exact ⟨result.2, rfl, rfl⟩
    · rintro ⟨after, heq, rfl⟩
      cases heq
      rfl

/-- Naming the result of work does not change how it ends. -/
theorem Rows.written_map {α β : Type} {rows : Rows} {work : Edit α} {f : α → β}
    {outcome : Except Failure (α × Tree)} (h : work rows = rows.written outcome) :
    (do return f (← work) : Edit β) rows = rows.written (outcome.map (.map f id)) := by
  cases outcome with
  | error failure => exact Run.bind_of_error h
  | ok result => exact Run.bind_of_ok h

theorem Operation.listItems_eq_ok {rows : Rows} (h : rows.Readable) :
    listItems playlist rows = .ok (rows.paths.map Node.ofPath) rows := by
  have hrows : Edit.rows rows = .ok rows.toList rows := rfl
  simp only [listItems, Staging.begin_rows, Staging.commit_rows, Staging.within_rows, pure_bind]
  rw [Run.bind_of_ok hrows, Rows.mapM_decode h]
  rfl

theorem Operation.playbackOrder_eq_ok {rows : Rows} (h : rows.Readable) :
    playbackOrder playlist rows = .ok (rows.tree.playbackOrder playlist.text) rows := by
  simp only [playbackOrder, Staging.begin_rows, Staging.commit_rows, pure_bind]
  exact Run.bind_of_ok (fetchTree_eq_ok h)

theorem Operation.clearPlaylist_eq_ok (config : Config) (playlist : Label) (rows : Rows) :
    clearPlaylist config playlist rows = .ok rows.size .empty := by
  simp only [clearPlaylist, Staging.begin_rows, Staging.commit_rows, Staging.within_rows, pure_bind,
    lock_rows]
  rfl

/-- Whether a request may move rows that are there already and nested in the playlist. -/
def Request.movesNested : Request → Bool
  | addItems _ _ _ rebalance => rebalance
  | removeItem .. => true
  | setOrder .. | appendItem .. | listItems _ | playbackOrder _ | clearPlaylist _ => false

/-- Only what moves nested rows needs a playlist that hangs together. -/
theorem Request.work_eq (d : Dialect) {rows : Rows} (h : rows.Readable) (r : Request)
    (hr : r.movesNested = true → Rooted playlist.text rows.paths) :
    r.work ⟨d, .never⟩ config playlist rows = rows.written (r.outcome d config playlist rows) := by
  cases r with
  | addItems _ items explicit rebalance =>
    exact Rows.written_map (Operation.addItems_eq d h items explicit rebalance hr)
  | appendItem _ parent kind item =>
    exact Rows.written_map (Operation.appendItem_eq d h parent kind item)
  | setOrder _ items => exact Rows.written_map (Operation.setOrder_eq d config h items)
  | removeItem _ item => exact Rows.written_map (Operation.removeItem_eq d h (hr rfl) item)
  -- What only reads leaves the rows, and they are the rows of the tree that they make.
  | listItems _ =>
    show _ = EStateM.Result.ok _ rows.tree.toRows
    rw [h.tree_toRows]
    exact Run.bind_of_ok (Operation.listItems_eq_ok h)
  | playbackOrder _ =>
    show _ = EStateM.Result.ok _ rows.tree.toRows
    rw [h.tree_toRows]
    exact Run.bind_of_ok (Operation.playbackOrder_eq_ok h)
  | clearPlaylist _ => exact Run.bind_of_ok (Operation.clearPlaylist_eq_ok config playlist rows)

/-- On readable rows the service does what is decided in memory, if no nested row has to move. -/
theorem Service.handle_eq_answer (d : Dialect) {s : Store} {r : Request}
    (hplaylist : r.playlist = playlist.text) (h : (s.rows playlist.text).Readable)
    (hr : r.movesNested = true → Rooted playlist.text (s.rows playlist.text).paths) :
    handle ⟨d, .never⟩ config r s
      = s.answer playlist.text (r.outcome d config playlist (s.rows playlist.text)) := by
  have hlabel : Label.read r.playlist = .ok playlist := hplaylist.symm ▸ playlist.read_text
  rw [handle_eq_keep _ config hlabel, Request.work_eq d h r hr]
  cases r.outcome d config playlist (s.rows playlist.text) with
  | error failure => rfl
  | ok result => rfl

/-- On a playlist that hangs together the service does what is decided in memory. -/
theorem Service.handle_eq (d : Dialect) {s : Store} (h : (s.rows playlist.text).Readable)
    (hr : Rooted playlist.text (s.rows playlist.text).paths) {r : Request}
    (hplaylist : r.playlist = playlist.text) :
    handle ⟨d, .never⟩ config r s
      = s.answer playlist.text (r.outcome d config playlist (s.rows playlist.text)) :=
  handle_eq_answer d hplaylist h fun _ => hr

/-- How a batch is answered. Rows that are there already move only if siblings are numbered afresh. -/
theorem Service.handle_addItems (d : Dialect) {s : Store} (h : (s.rows playlist.text).Readable)
    (items : List NewItem) (explicit : Option UInt64) {rebalance : Bool}
    (hr : rebalance = true → Rooted playlist.text (s.rows playlist.text).paths) :
    handle ⟨d, .never⟩ config (.addItems playlist.text items explicit rebalance) s
      = s.answer playlist.text ((Operation.enlarge config playlist items explicit rebalance
          (s.rows playlist.text).tree).map (.map .paths id)) :=
  handle_eq_answer (r := .addItems playlist.text items explicit rebalance) d rfl h hr

theorem Service.handle_addItems_iff (d : Dialect) {s s' : Store}
    (h : (s.rows playlist.text).Readable) {items : List NewItem} {explicit : Option UInt64}
    {rebalance : Bool} (hr : rebalance = true → Rooted playlist.text (s.rows playlist.text).paths)
    {response : Response} :
    handle ⟨d, .never⟩ config (.addItems playlist.text items explicit rebalance) s
        = (.ok response, s') ↔
      items ≠ [] ∧ config.Allows ((s.rows playlist.text).size + items.length) ∧
        ∃ created grown,
          Tree.Grown playlist.text (if items.length = 1 then explicit else none)
            (s.rows playlist.text).tree items created grown ∧
          response = .paths (created.map (grown.balanced rebalance).2.destination) ∧
          s' = s.withRows playlist.text (Tree.toRows (grown.balanced rebalance).1) := by
  rw [handle_addItems d h items explicit hr, Store.answer_eq_ok_iff, ← h.size_tree]
  constructor
  · rintro ⟨after, hout, rfl⟩
    obtain ⟨result, henlarge, heq⟩ := Failure.map_eq_ok_iff.1 hout
    obtain ⟨hne, hroom, created, grown, hgrown, hpaths, hafter⟩ :=
      Operation.enlarge_eq_ok_iff.1 henlarge
    cases heq
    exact ⟨hne, hroom, created, grown, hgrown, congrArg Response.paths hpaths,
      congrArg (fun t => s.withRows playlist.text (Tree.toRows t)) hafter⟩
  · rintro ⟨hne, hroom, created, grown, hgrown, rfl, rfl⟩
    refine ⟨(grown.balanced rebalance).1, Failure.map_eq_ok_iff.2 ⟨(_, _), ?_, rfl⟩, rfl⟩
    exact Operation.enlarge_eq_ok_iff.2 ⟨hne, hroom, created, grown, hgrown, rfl, rfl⟩

end Playlists
