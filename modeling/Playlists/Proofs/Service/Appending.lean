import Playlists.Proofs.Service.Answers
import Playlists.Proofs.Service.Faults

/-!
# `Proofs/Service/Appending.lean` — a batch is its items appended one by one

There are two ways to add behind what is there. A batch is built up in the tree of the whole
playlist and written as a difference; a single item is looked up among the rows and inserted. They
were made for different occasions and share no step, yet for every item they refuse the same for the
same cause and write the same row. Nothing about the playlist is needed for that but that its rows
can be read: rows that nothing leads to and nestings that go round in circles are left where they
are by both.

Both ways come to the same step in memory, `Operation.extend`. A batch is a chain of such steps
(`Tree.Grown`), and it fits under the limit exactly when every step of the chain does, since every
step adds one row (`run_appends_iff`).
-/

set_option autoImplicit false

namespace Playlists

open Playlists.Tree (Grown)

/-- The request to append an item behind its siblings. -/
def Request.append (playlist : String) (item : NewItem) : Request :=
  .appendItem playlist item.parent item.kind item.id

/-- The answer to an appended item as the answer to a batch of one. -/
def Response.listed : Response → Response
  | path p => .paths [p]
  | response => response

/-- Rows to which the next path of an item is put can be read, are one more, and make the tree with
that path. -/
theorem Rows.Readable.put_next {rows : Rows} (h : rows.Readable) {playlist : String}
    {item : NewItem} {p : Path} (hp : rows.tree.Takes playlist none item p) :
    (Tree.toRows (rows.tree.put (Entry.ofPath p))).Readable ∧
      (Tree.toRows (rows.tree.put (Entry.ofPath p))).size = rows.size + 1 ∧
      (Tree.toRows (rows.tree.put (Entry.ofPath p))).tree = rows.tree.put (Entry.ofPath p) := by
  have ha := Tree.agreeing_put rows.agreeing_tree p
  have hs := Tree.storable_put rows.storable_tree hp.position_lt_size
  have hnew := Tree.not_mem_of_nextPosition rows.agreeing_tree hp.position
  refine ⟨Tree.readable_toRows hs, ?_, Tree.toRows_tree ha hs⟩
  rw [Tree.size_toRows, Tree.size_put hnew, h.size_tree]

namespace Service

variable (d : Dialect) {config : Config} {playlist : Label} {s s' : Store} {item : NewItem}
  {items : List NewItem} {created : List Path}

/-- The requests to append items one by one. -/
def appends (config : Config) (playlist : String) (items : List NewItem) :
    List (Config × Request) :=
  items.map fun item => (config, .append playlist item)

theorem run_appends_cons (backend : Backend) (config : Config) (playlist : String) (item : NewItem)
    (items : List NewItem) (s : Store) :
    run backend (appends config playlist (item :: items)) s
      = ((handle backend config (.append playlist item) s).1 ::
          (run backend (appends config playlist items)
            (handle backend config (.append playlist item) s).2).1,
        (run backend (appends config playlist items)
          (handle backend config (.append playlist item) s).2).2) :=
  rfl

/-! ## One item -/

theorem handle_append (h : (s.rows playlist.text).Readable) (item : NewItem) :
    handle ⟨d, .never⟩ config (.append playlist.text item) s
      = s.answer playlist.text ((Operation.extend config playlist item.parent item.kind item.id
          (s.rows playlist.text).tree).map (.map .path id)) :=
  handle_eq_answer d rfl h fun hmoves => (nomatch hmoves)

theorem handle_append_iff (h : (s.rows playlist.text).Readable) {p : Path} :
    handle ⟨d, .never⟩ config (.append playlist.text item) s = (.ok (.path p), s') ↔
      config.Allows ((s.rows playlist.text).size + 1) ∧
        (s.rows playlist.text).tree.pathFor playlist.text none item = .ok p ∧
        s.withRows playlist.text
          (Tree.toRows ((s.rows playlist.text).tree.put (Entry.ofPath p))) = s' := by
  rw [handle_append d h, Store.answer_eq_ok_iff, ← h.size_tree]
  constructor
  · rintro ⟨after, hout, rfl⟩
    obtain ⟨result, hextend, heq⟩ := Failure.map_eq_ok_iff.1 hout
    cases heq
    obtain ⟨hlimit, hpath, hafter⟩ := Operation.extend_eq_ok_iff.1 hextend
    exact ⟨hlimit, hpath, congrArg (fun t => s.withRows playlist.text (Tree.toRows t)) hafter⟩
  · rintro ⟨hlimit, hpath, rfl⟩
    have hextend := Operation.extend_eq_ok_iff.2 ⟨hlimit, hpath, rfl⟩
    exact ⟨_, Failure.map_eq_ok_iff.2 ⟨_, hextend, rfl⟩, rfl⟩

theorem path_of_handle_append {backend : Backend} {playlist : String} {response : Response}
    (h : (handle backend config (.append playlist item) s).1 = .ok response) :
    ∃ p, response = .path p := by
  rcases handle_cases backend config (.append playlist item) s with
    ⟨failure, hrun⟩ | ⟨label, answer, rows, -, hwork, hrun⟩
  · rw [hrun] at h
    cases h
  · rw [hrun] at h
    cases h
    obtain ⟨p, rows', -, hanswer⟩ := Run.bind_eq_ok_iff.1 hwork
    cases hanswer
    exact ⟨p, rfl⟩

/-! ## One after another -/

theorem paths_of_run_appends {backend : Backend} {playlist : String}
    (h : ∀ answer ∈ (run backend (appends config playlist items) s).1,
      ∃ response, answer = .ok response) :
    ∃ created : List Path, (run backend (appends config playlist items) s).1
      = created.map fun p => .ok (.path p) := by
  induction items generalizing s with
  | nil => exact ⟨[], rfl⟩
  | cons item rest ih =>
    rw [run_appends_cons, List.forall_mem_cons] at h
    obtain ⟨⟨response, hfirst⟩, hrest⟩ := h
    obtain ⟨p, rfl⟩ := path_of_handle_append hfirst
    obtain ⟨later, hlater⟩ := ih hrest
    refine ⟨p :: later, ?_⟩
    rw [run_appends_cons, hfirst, hlater, List.map_cons]

/-- The first of some items is appended, and then the others are. -/
theorem run_appends_cons_iff {backend : Backend} {playlist : String} :
    run backend (appends config playlist (item :: items)) s
        = (created.map fun p => .ok (.path p), s') ↔
      ∃ p later s₁, created = p :: later ∧
        handle backend config (.append playlist item) s = (.ok (.path p), s₁) ∧
        run backend (appends config playlist items) s₁
          = (later.map fun p => .ok (.path p), s') := by
  rw [run_appends_cons]
  constructor
  · intro h
    obtain ⟨hanswers, hstore⟩ := Prod.mk.inj h
    cases created with
    | nil => cases hanswers
    | cons p later =>
      obtain ⟨hfirst, hlater⟩ := List.cons.inj hanswers
      exact ⟨p, later, _, rfl, Prod.ext hfirst rfl, Prod.ext hlater hstore⟩
  · rintro ⟨p, later, s₁, rfl, hfirst, hlater⟩
    rw [hfirst, hlater, List.map_cons]

/-- Items can be appended one by one if all of them fit and the tree can grow by them. -/
theorem run_appends_iff (h : (s.rows playlist.text).Readable) :
    run ⟨d, .never⟩ (appends config playlist.text (item :: items)) s
        = (created.map fun p => .ok (.path p), s') ↔
      ∃ grown, config.Allows ((s.rows playlist.text).size + (item :: items).length) ∧
        Grown playlist.text none (s.rows playlist.text).tree (item :: items) created grown ∧
        s.withRows playlist.text grown.toRows = s' := by
  -- By induction on the other items: what is left of the chain starts from the store after the
  -- first step, whose rows are those of the tree with one more path.
  induction items generalizing item s created with
  | nil =>
    simp only [run_appends_cons_iff, handle_append_iff d h, Grown.cons_iff, Grown.nil_iff]
    constructor
    · rintro ⟨p, later, s₁, hcreated, ⟨hlimit, hpath, rfl⟩, hrun⟩
      obtain ⟨hlater, rfl⟩ := Prod.mk.inj hrun
      exact ⟨_, hlimit, ⟨p, later, hcreated, hpath, List.map_eq_nil_iff.1 hlater.symm, rfl⟩, rfl⟩
    · rintro ⟨grown, hlimit, ⟨p, later, hcreated, hpath, rfl, rfl⟩, rfl⟩
      exact ⟨p, [], _, hcreated, ⟨hlimit, hpath, rfl⟩, rfl⟩
  | cons next rest ih =>
    have hrest : ∀ {p : Path} {later : List Path},
        (s.rows playlist.text).tree.pathFor playlist.text none item = .ok p →
        (run ⟨d, .never⟩ (appends config playlist.text (next :: rest))
            (s.withRows playlist.text
              (Tree.toRows ((s.rows playlist.text).tree.put (Entry.ofPath p))))
              = (later.map fun p => .ok (.path p), s') ↔
          ∃ grown, config.Allows ((s.rows playlist.text).size + (item :: next :: rest).length) ∧
            Grown playlist.text none ((s.rows playlist.text).tree.put (Entry.ofPath p))
              (next :: rest) later grown ∧
            s.withRows playlist.text grown.toRows = s') := by
      intro p later hpath
      obtain ⟨hread, hsize, htree⟩ := h.put_next (Tree.pathFor_eq_ok hpath)
      rw [ih (by rwa [Store.rows_withRows_self]), Store.rows_withRows_self, hsize, htree,
        Nat.add_assoc, Nat.add_comm 1]
      simp only [Store.withRows_withRows, List.length_cons]
    rw [run_appends_cons_iff]
    constructor
    · rintro ⟨p, later, s₁, rfl, hfirst, hlater⟩
      obtain ⟨hlimit, hpath, rfl⟩ := (handle_append_iff d h).1 hfirst
      obtain ⟨grown, hroom, hgrown, rfl⟩ := (hrest hpath).1 hlater
      exact ⟨grown, hroom, .cons hpath hgrown, rfl⟩
    · rintro ⟨grown, hroom, hgrown, rfl⟩
      obtain ⟨p, later, rfl, hpath, hgrown⟩ := Grown.cons_iff.1 hgrown
      have hlimit : config.Allows ((s.rows playlist.text).size + 1) :=
        hroom.anti (Nat.add_le_add_left (Nat.succ_le_succ (Nat.zero_le _)) _)
      exact ⟨p, later, _, rfl, (handle_append_iff d h).2 ⟨hlimit, hpath, rfl⟩,
        (hrest hpath).2 ⟨grown, hroom, hgrown, rfl⟩⟩

/-! ## Both ways -/

/-- A batch whose items take the next positions, and after which nothing is numbered afresh. -/
theorem handle_batch_iff (h : (s.rows playlist.text).Readable) :
    handle ⟨d, .never⟩ config (.addItems playlist.text items none false) s
        = (.ok (.paths created), s') ↔
      items ≠ [] ∧ ∃ grown, config.Allows ((s.rows playlist.text).size + items.length) ∧
        Grown playlist.text none (s.rows playlist.text).tree items created grown ∧
        s.withRows playlist.text grown.toRows = s' := by
  rw [handle_addItems_iff d h fun hmoves => absurd hmoves Bool.false_ne_true, ite_self]
  -- Nothing moves, so the items stay where they were added.
  have hstay : ∀ (paths : List Path) (grown : Tree),
      paths.map (grown.balanced false).2.destination = paths := fun paths _ => List.map_id paths
  constructor
  · rintro ⟨hne, hroom, paths, grown, hgrown, hcreated, rfl⟩
    rw [hstay] at hcreated
    cases hcreated
    exact ⟨hne, grown, hroom, hgrown, rfl⟩
  · rintro ⟨hne, grown, hroom, hgrown, rfl⟩
    exact ⟨hne, hroom, created, grown, hgrown, congrArg _ (hstay created grown).symm, rfl⟩

theorem paths_of_handle_batch {backend : Backend} {playlist : String} {response : Response}
    (h : (handle backend config (.addItems playlist items none false) s).1 = .ok response) :
    ∃ created, response = .paths created := by
  rcases handle_cases backend config (.addItems playlist items none false) s with
    ⟨failure, hrun⟩ | ⟨label, answer, rows, -, hwork, hrun⟩
  · rw [hrun] at h
    cases h
  · rw [hrun] at h
    cases h
    obtain ⟨created, rows', -, hanswer⟩ := Run.bind_eq_ok_iff.1 hwork
    cases hanswer
    exact ⟨created, rfl⟩

/-- A batch of one item is answered like that item appended. -/
theorem handle_singleton (playlist : String) (h : (s.rows playlist).Readable) (item : NewItem) :
    handle ⟨d, .never⟩ config (.addItems playlist [item] none false) s
      = (handle ⟨d, .never⟩ config (.append playlist item) s).map (.map .listed) id := by
  cases hlabel : Label.read playlist with
  | error failure =>
    have hbatch : (Request.addItems playlist [item] none false).playlist = playlist := rfl
    have happend : (Request.append playlist item).playlist = playlist := rfl
    rw [handle, handle, hbatch, happend, hlabel]
    rfl
  | ok label =>
    obtain rfl := Label.text_of_read hlabel
    rw [handle_addItems d h _ _ fun hmoves => absurd hmoves Bool.false_ne_true,
      handle_append d h, Operation.enlarge_singleton]
    cases Operation.extend config label item.parent item.kind item.id
        (s.rows label.text).tree with
    | error failure => rfl
    | ok result => rfl

theorem handle_batch_iff_run_appends (playlist : String) (h : (s.rows playlist).Readable)
    (hne : items ≠ []) :
    handle ⟨d, .never⟩ config (.addItems playlist items none false) s
        = (.ok (.paths created), s') ↔
      run ⟨d, .never⟩ (appends config playlist items) s
        = (created.map fun p => .ok (.path p), s') := by
  obtain ⟨item, rest, rfl⟩ := List.exists_cons_of_ne_nil hne
  cases hlabel : Label.read playlist with
  | error failure =>
    have hbatch : (Request.addItems playlist (item :: rest) none false).playlist = playlist := rfl
    have happend : (Request.append playlist item).playlist = playlist := rfl
    rw [run_appends_cons_iff, handle, hbatch, hlabel]
    constructor
    · intro hanswer
      cases hanswer
    · rintro ⟨p, later, s₁, -, hfirst, -⟩
      rw [handle, happend, hlabel] at hfirst
      cases hfirst
  | ok label =>
    obtain rfl := Label.text_of_read hlabel
    rw [handle_batch_iff d h, run_appends_iff d h]
    exact and_iff_right hne

/-- **A batch is its items appended one by one.** A single item is added and refused alike either
way. A batch is added exactly when each of its items can be appended after those before it, and then
the paths, in their order, and the rows are the same. -/
theorem addItems_eq_appends (config : Config) (playlist : String) {s : Store}
    (h : (s.rows playlist).Readable) :
    (∀ item : NewItem, handle ⟨d, .never⟩ config (.addItems playlist [item] none false) s
      = (handle ⟨d, .never⟩ config (.append playlist item) s).map (.map .listed) id) ∧
    ∀ items, items ≠ [] →
      ((∃ response,
          (handle ⟨d, .never⟩ config (.addItems playlist items none false) s).1 = .ok response) ↔
        ∀ answer ∈ (run ⟨d, .never⟩ (appends config playlist items) s).1,
          ∃ response, answer = .ok response) ∧
      ∀ created s', handle ⟨d, .never⟩ config (.addItems playlist items none false) s
          = (.ok (.paths created), s') ↔
        run ⟨d, .never⟩ (appends config playlist items) s
          = (created.map fun p => .ok (.path p), s') := by
  refine ⟨handle_singleton d playlist h, fun items hne => ⟨?_, fun created s' =>
    handle_batch_iff_run_appends d playlist h hne⟩⟩
  constructor
  · rintro ⟨response, hresponse⟩ answer hanswer
    obtain ⟨created, rfl⟩ := paths_of_handle_batch hresponse
    rw [(handle_batch_iff_run_appends d playlist h hne).1 (Prod.ext hresponse rfl)] at hanswer
    obtain ⟨p, -, rfl⟩ := List.mem_map.1 hanswer
    exact ⟨_, rfl⟩
  · intro hall
    obtain ⟨created, hcreated⟩ := paths_of_run_appends hall
    have hbatch := (handle_batch_iff_run_appends d playlist h hne).2 (Prod.ext hcreated rfl)
    exact ⟨_, congrArg Prod.fst hbatch⟩

/-- Rows that nothing leads to, and a playlist that is nested in itself. -/
def strayStore : Store :=
  Store.seed .empty "P" ["P.playlist.Q.3", "Q.playlist.Q.1", "Q.track.A.9", "O.playlist.R.7"]

/-- Items of which the first nests the playlist that the second goes to. -/
def strayItems : List NewItem :=
  [⟨.playlist, "T", some "R"⟩, ⟨.track, "A", some "T"⟩, ⟨.track, "B", some "Q"⟩]

theorem addItems_eq_appends_stray :
    (strayStore.rows "P").Readable ∧ strayItems ≠ [] ∧
      ∀ created s', handle ⟨.memory, .never⟩ {} (.addItems "P" strayItems none false) strayStore
          = (.ok (.paths created), s') ↔
        run ⟨.memory, .never⟩ (appends {} "P" strayItems) strayStore
          = (created.map fun p => .ok (.path p), s') :=
  have h : (strayStore.rows "P").Readable := by decide +kernel
  have hne : strayItems ≠ [] := List.cons_ne_nil _ _
  ⟨h, hne, ((addItems_eq_appends .memory {} "P" h).2 strayItems hne).2⟩

end Service

end Playlists
