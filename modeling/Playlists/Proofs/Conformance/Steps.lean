import Playlists.Conformance.Scenario
import Playlists.Proofs.Conformance.Outcomes

/-!
# `Proofs/Conformance/Steps.lean` — what the steps of a scenario come to

A scenario ends early if anything comes out otherwise than it says, so to show that it gets through
is to say in advance how each of its steps comes out. `Yields` says so of a step that works on one
playlist: where the playlist has certain rows, the step gives a certain result and leaves certain
other rows, and no other playlist changes. Steps are put together by `Yields.bind`, and there is one
rule for each kind of step. What is left to be shown of a script are questions about spots.
-/

set_option autoImplicit false

namespace Playlists.Conformance

open Scenario Spot

open Staging (within)

/-- Where the playlist has the rows of the spots `before`, a scenario gets through, gives `a` and
leaves the rows of the spots `after`. The rows of other playlists stay as they are. -/
def Yields {α : Type} (v : Venue) (before : List Spot) (x : Scenario α) (a : α)
    (after : List Spot) : Prop :=
  ∀ s : Store, s.rows v.label.text = v.rows before → ∃ s', x s = .ok a s' ∧
    s'.rows v.label.text = v.rows after ∧
    ∀ other, other ≠ v.label.text → s'.rows other = s.rows other

/-- A row of a spot is read as its path. -/
theorem Venue.decode_text (v : Venue) (s : Spot) :
    Path.decode (s.text v.label.text) = .ok (v.path s) := by
  rw [← v.text_path]
  exact Path.decode_text s.position.toNat_lt_size

namespace Yields

variable {α β : Type} {v : Venue} {before middle after : List Spot} {a : α} {b : β}
  {x : Scenario α} {next : α → Scenario β}

/-! ## Steps in general -/

theorem bind (hx : Yields v before x a middle) (hnext : Yields v middle (next a) b after) :
    Yields v before (x >>= next) b after := by
  intro s hs
  obtain ⟨t, hrun, ht, hother⟩ := hx s hs
  obtain ⟨u, hrun', hu, hother'⟩ := hnext t ht
  exact ⟨u, (Run.bind_of_ok hrun).trans hrun', hu,
    fun other hne => (hother' other hne).trans (hother other hne)⟩

theorem discard (hx : Yields v before x a after) : Yields v before (discard x) () after := by
  intro s hs
  obtain ⟨t, hrun, ht⟩ := hx s hs
  exact ⟨t, Run.discard_of_ok hrun, ht⟩

/-- It does not matter how the spots that are left are listed. -/
theorem reorder (hx : Yields v before x a middle) (h : middle.Perm after) :
    Yields v before x a after := by
  have hrows : v.rows middle = v.rows after := Rows.spelling_congr fun _ => (h.map v.path).mem_iff
  rw [Yields, ← hrows]
  exact hx

/-- A step that leaves the store as it is. -/
theorem of_stays (hx : ∀ s : Store, s.rows v.label.text = v.rows before → x s = .ok a s) :
    Yields v before x a before :=
  fun s hs => ⟨s, hx s hs, hs, fun _ _ => rfl⟩

/-- A step that gives the playlist other rows. -/
theorem of_withRows (hx : ∀ s : Store, s.rows v.label.text = v.rows before →
      x s = .ok a (s.withRows v.label.text (v.rows after))) :
    Yields v before x a after :=
  fun s hs => ⟨_, hx s hs, s.rows_withRows_self _ _, fun _ hne => s.rows_withRows_of_ne _ hne⟩

theorem pure (a : α) : Yields v before (pure a) a before :=
  of_stays fun _ _ => rfl

theorem expect {holds : Bool} (h : holds = true) : Yields v before (expect holds) () before := by
  subst h
  exact pure ()

theorem succeed {outcome : Except Failure α} (h : outcome = .ok a) :
    Yields v before (succeed outcome) a before := by
  subst h
  exact pure a

theorem decode (s : Spot) :
    Yields v before (Scenario.succeed (Path.decode (s.text v.label.text))) (v.path s) before :=
  succeed (v.decode_text s)

theorem rows : Yields v before (rows v.label.text) (v.rows before).toList before := by
  refine of_stays fun s hs => ?_
  rw [Scenario.rows, Run.bind_of_ok (Run.get_eq s), hs]
  rfl

/-- The rows are what they have to be. -/
theorem expectRows {texts : List String} (h : (v.rows before).toList = texts) :
    Yields v before (do Scenario.expect ((← Scenario.rows v.label.text) == texts)) () before := by
  subst h
  exact bind rows (expect (beq_self_eq_true _))

/-! ## Work in a transaction -/

/-- Work within the playlist that is accepted is committed. -/
theorem commit {work : Work Session α} {edit : Edit α} {accepts : α → Bool}
    (hwithin : work = within v.label.text edit)
    (hedit : edit (v.rows before) = .ok a (v.rows after)) (haccepts : accepts a = true) :
    Yields v before (commit work accepts) () after := by
  refine of_withRows fun s hs => ?_
  have hwork : work (.fresh s) = .ok a ((Session.fresh s).stage v.label.text (v.rows after)) := by
    rw [hwithin]
    exact Session.within_of_ok ((congrArg edit hs).trans hedit)
  rw [Scenario.commit, Run.bind_of_ok (Run.get_eq s), hwork]
  dsimp only
  rw [haccepts]
  rfl

/-- Work that is not committed leaves no trace. -/
theorem rollBack {work : Work Session α} {accepts : EStateM.Result Failure Session α → Bool}
    (hwork : ∀ s : Store, s.rows v.label.text = v.rows before →
      ∃ result, work (.fresh s) = result ∧ accepts result = true) :
    Yields v before (rollBack work accepts) () before := by
  refine of_stays fun s hs => ?_
  obtain ⟨result, hresult, haccepts⟩ := hwork s hs
  rw [Scenario.rollBack, Run.bind_of_ok (Run.get_eq s), hresult, haccepts]
  rfl

theorem seed (d : Dialect) {new : List Spot} (h : Fresh before new) :
    Yields v before (seed ⟨d, .never⟩ v.label.text (new.map (Spot.text v.label.text))) ()
      (before ++ new) := by
  have hread : (new.map (Spot.text v.label.text)).mapM Path.decode = .ok (new.map v.path) := by
    rw [List.mapM_map]
    exact Failure.mapM_eq_ok fun s _ => v.decode_text s
  rw [Scenario.seed, hread]
  exact bind (pure _) (commit rfl (v.insert_eq h) rfl)

/-! ## Requests -/

variable {d : Dialect} {r : Request} {response : Response} {t : Tree}

theorem tryRequest_eq (backend : Backend) (config : Config) (r : Request) (s : Store) :
    tryRequest backend config r s
      = .ok (Service.handle backend config r s).1 (Service.handle backend config r s).2 :=
  rfl

/-- A request that is accepted in memory succeeds. -/
theorem requestUnder {config : Config} (hr : r.playlist = v.label.text)
    (hrooted : r.movesNested = true → HangTogether before)
    (houtcome : r.outcome d config v.label (v.rows before) = .ok (response, t))
    (hafter : t.toRows = v.rows after) :
    Yields v before (requestUnder config ⟨d, .never⟩ r) response after := by
  refine of_withRows fun s hs => ?_
  have hanswer : Service.handle ⟨d, .never⟩ config r s = _ := Service.handle_eq_answer d hr
    (hs ▸ v.readable_rows before) fun hmoves => hs ▸ v.rooted_rows (hrooted hmoves)
  rw [hs, houtcome] at hanswer
  rw [Scenario.requestUnder, Run.bind_of_ok (tryRequest_eq _ config r s), hanswer, ← hafter]
  rfl

/-- A request that is refused in memory is refused. -/
theorem refuse {category : Category} {failure : Failure} (hr : r.playlist = v.label.text)
    (hrooted : r.movesNested = true → HangTogether before)
    (houtcome : r.outcome d {} v.label (v.rows before) = .error failure)
    (hcategory : failure.category = category) :
    Yields v before (refuse ⟨d, .never⟩ category r) () before := by
  refine of_stays fun s hs => ?_
  have hanswer : Service.handle ⟨d, .never⟩ {} r s = _ := Service.handle_eq_answer d hr
    (hs ▸ v.readable_rows before) fun hmoves => hs ▸ v.rooted_rows (hrooted hmoves)
  rw [hs, houtcome] at hanswer
  rw [Scenario.refuse, Run.bind_of_ok (tryRequest_eq _ {} r s), hanswer]
  show Scenario.expect (failure.category == category) s = _
  rw [hcategory, beq_self_eq_true]
  rfl

theorem addItems {new : List Spot} (h : Addable before new) :
    Yields v before (request ⟨d, .never⟩ (.addItems v.label.text (new.map v.newItem) none false))
      (.paths (new.map v.path)) (before ++ new) := by
  refine requestUnder rfl (fun hmoves => (nomatch hmoves)) (t := (v.rows (before ++ new)).tree) ?_
    (v.readable_rows _).tree_toRows
  rw [Request.outcome, v.enlarge_eq h]
  show Except.ok (Response.paths ((new.map v.path).map fun p => p), _) = _
  rw [List.map_id']
  rfl

/-- Siblings that are numbered afresh take the positions one to n. -/
theorem addItems_rebalanced {new : List Spot} (h : Addable before new)
    (hrooted : HangTogether before) (hturn : InTurn (before ++ new))
    (hlength : (before ++ new).length < UInt64.size) :
    ∃ response, Yields v before
      (request ⟨d, .never⟩ (.addItems v.label.text (new.map v.newItem) none true)) response
      (numbered (before ++ new)) := by
  obtain ⟨response, houtcome⟩ : ∃ response, Request.outcome d {} v.label (v.rows before)
      (.addItems v.label.text (new.map v.newItem) none true)
        = .ok (response, (v.rows (before ++ new)).tree.rebalance.1) := by
    rw [Request.outcome, v.enlarge_eq h]
    exact ⟨_, rfl⟩
  exact ⟨_, requestUnder rfl (fun _ => hrooted) houtcome (v.toRows_rebalance hturn hlength)⟩

theorem appendItem {s : Spot} (h : Addable before [s]) :
    Yields v before (request ⟨d, .never⟩
      (.appendItem v.label.text (v.newItem s).parent s.kind (v.name s.item).text))
      (.path (v.path s)) (before ++ [s]) := by
  refine requestUnder rfl (fun hmoves => (nomatch hmoves)) (t := (v.rows (before ++ [s])).tree) ?_
    (v.readable_rows _).tree_toRows
  rw [Request.outcome, v.extend_eq h]
  rfl

/-- A single item is refused if no path is found for it. -/
theorem refuse_addItem {s : Spot} {category : Category} {failure : Failure}
    (hpath : (v.rows before).tree.pathFor v.label.text none (v.newItem s) = .error failure)
    (hcategory : failure.category = category) :
    Yields v before (Scenario.refuse ⟨d, .never⟩ category
      (.addItems v.label.text [v.newItem s] none false)) () before := by
  refine refuse rfl (fun hmoves => (nomatch hmoves)) ?_ hcategory
  rw [Request.outcome, Operation.enlarge_singleton]
  show ((Operation.extend {} v.label (v.newItem s).parent s.kind (v.name s.item).text
    (v.rows before).tree).map _).map _ = _
  rw [v.extend_eq_error hpath]
  rfl

theorem refuse_appendItem {s : Spot} {category : Category} {failure : Failure}
    (hpath : (v.rows before).tree.pathFor v.label.text none (v.newItem s) = .error failure)
    (hcategory : failure.category = category) :
    Yields v before (Scenario.refuse ⟨d, .never⟩ category
      (.appendItem v.label.text (v.newItem s).parent s.kind (v.name s.item).text)) () before := by
  refine refuse rfl (fun hmoves => (nomatch hmoves)) ?_ hcategory
  rw [Request.outcome, v.extend_eq_error hpath]
  rfl

theorem setOrder {items : List String} {ordered : List Spot} (hturn : InTurn before)
    (hlength : before.length < UInt64.size)
    (harrange : Operation.arrange v.label.text [] (before.map v.path) items
      = .ok (ordered.map v.path)) :
    Yields v before (request ⟨d, .never⟩ (.setOrder v.label.text items)) .done
      (numbered ordered) := by
  obtain ⟨t, hrearrange, ht⟩ := v.rearrange_eq hturn hlength harrange
  refine requestUnder rfl (fun hmoves => (nomatch hmoves)) ?_ ht
  rw [Request.outcome, hrearrange]
  rfl

theorem refuse_setOrder {items : List String} {category : Category} {failure : Failure}
    (hturn : InTurn before)
    (harrange : Operation.arrange v.label.text [] (before.map v.path) items = .error failure)
    (hcategory : failure.category = category) :
    Yields v before (Scenario.refuse ⟨d, .never⟩ category (.setOrder v.label.text items)) ()
      before := by
  refine refuse rfl (fun hmoves => (nomatch hmoves)) ?_ hcategory
  rw [Request.outcome, v.rearrange_eq_error hturn harrange]
  rfl

/-- Under these settings the entries around a removed one stay where they are. -/
theorem removeItem (config : Config) {item : Mention} {gone : List Mention} {kept : List Spot}
    (h : Leaves before item gone kept) (hrooted : HangTogether before)
    (hless : kept.length < before.length) (hconfig : config.rebalanceOnRemove = false) :
    Yields v before (Scenario.requestUnder config ⟨d, .never⟩
      (.removeItem v.label.text (v.name item).text)) (.count (before.length - kept.length))
      kept := by
  refine requestUnder rfl (fun _ => hrooted) ?_ (v.readable_rows kept).tree_toRows
  rw [Request.outcome, v.reduce_eq h hless, hconfig]
  rfl

theorem removeItem_rebalanced {item : Mention} {gone : List Mention} {kept : List Spot}
    (h : Leaves before item gone kept) (hrooted : HangTogether before)
    (hless : kept.length < before.length) (hturn : InTurn kept)
    (hlength : kept.length < UInt64.size) :
    Yields v before (request ⟨d, .never⟩ (.removeItem v.label.text (v.name item).text))
      (.count (before.length - kept.length)) (numbered kept) := by
  refine requestUnder rfl (fun _ => hrooted) ?_ (v.toRows_rebalance hturn hlength)
  rw [Request.outcome, v.reduce_eq h hless]
  rfl

theorem listItems (config : Config) (h : Listed before) :
    Yields v before (Scenario.requestUnder config ⟨d, .never⟩ (.listItems v.label.text))
      (.nodes ((before.map v.path).map Node.ofPath)) before := by
  refine requestUnder rfl (fun hmoves => (nomatch hmoves)) ?_ (v.readable_rows before).tree_toRows
  rw [Request.outcome, v.paths_rows h]

theorem playbackOrder (hturn : InTurn before) (htracks : ∀ s ∈ before, s.kind = .track) :
    Yields v before (request ⟨d, .never⟩ (.playbackOrder v.label.text))
      (.nodes ((before.map v.path).map Node.ofPath)) before := by
  refine requestUnder rfl (fun hmoves => (nomatch hmoves)) ?_ (v.readable_rows before).tree_toRows
  rw [Request.outcome, v.playbackOrder_eq hturn htracks]

theorem clearPlaylist (hnodup : before.Nodup) :
    Yields v before (request ⟨d, .never⟩ (.clearPlaylist v.label.text))
      (.count before.length) [] := by
  refine requestUnder rfl (fun hmoves => (nomatch hmoves)) (t := .empty) ?_ rfl
  rw [Request.outcome, v.size_rows hnodup]

end Yields

/-! ## Two playlists -/

/-- The same of a scenario that works on two playlists. -/
def YieldsBoth {α : Type} (v w : Venue) (before before' : List Spot) (x : Scenario α) (a : α)
    (after after' : List Spot) : Prop :=
  ∀ s : Store, s.rows v.label.text = v.rows before → s.rows w.label.text = w.rows before' →
    ∃ s', x s = .ok a s' ∧ s'.rows v.label.text = v.rows after ∧
      s'.rows w.label.text = w.rows after' ∧
      ∀ other, other ≠ v.label.text → other ≠ w.label.text → s'.rows other = s.rows other

namespace YieldsBoth

variable {α β : Type} {v w : Venue} {before before' middle middle' after after' : List Spot} {a : α}
  {b : β} {x : Scenario α} {next : α → Scenario β}

theorem bind (hx : YieldsBoth v w before before' x a middle middle')
    (hnext : YieldsBoth v w middle middle' (next a) b after after') :
    YieldsBoth v w before before' (x >>= next) b after after' := by
  intro s hv hw
  obtain ⟨t, hrun, htv, htw, hother⟩ := hx s hv hw
  obtain ⟨u, hrun', huv, huw, hother'⟩ := hnext t htv htw
  exact ⟨u, (Run.bind_of_ok hrun).trans hrun', huv, huw,
    fun other hne hne' => (hother' other hne hne').trans (hother other hne hne')⟩

/-- What is done to the first playlist does not show in the second. -/
theorem first (hvw : w.label.text ≠ v.label.text) (hx : Yields v before x a after) :
    YieldsBoth v w before before' x a after before' := by
  intro s hv hw
  obtain ⟨t, hrun, ht, hother⟩ := hx s hv
  exact ⟨t, hrun, ht, (hother _ hvw).trans hw, fun other hne _ => hother other hne⟩

/-- What is done to the second playlist does not show in the first. -/
theorem second (hvw : w.label.text ≠ v.label.text) (hx : Yields w before' x a after') :
    YieldsBoth v w before before' x a before after' := by
  intro s hv hw
  obtain ⟨t, hrun, ht, hother⟩ := hx s hw
  exact ⟨t, hrun, (hother _ hvw.symm).trans hv, ht, fun other _ hne => hother other hne⟩

end YieldsBoth

end Playlists.Conformance
