import Playlists.Proofs.Service.Soundness

/-!
# `Proofs/Service/Refusals.lean` — whose fault it is when a request is refused

Half of the causes that there are say that the store holds what nobody should have written, or that
a row was in the way of another. On a medium that never fails none of them can be seen by those who
use the service and nothing else. `Request.Blames` lists what a request can be refused for:
something absent or impossible was asked for, a batch was empty, or a label that came with the
request is none.

In memory that is read off each operation (`Request.outcome_blames`), and nothing is added when rows
are written, because on a sound playlist the service does what was decided in memory
(`Service.handle_eq`). So nothing else is seen for as long as playlists stay sound. Numbering afresh
after a removal is decided there as well and refuses nothing (`Operation.reduce_rebalancing`).
-/

set_option autoImplicit false

namespace Playlists

open Failure (Only)

/-- Something absent or something impossible was asked for. -/
def Failure.Asked (failure : Failure) : Prop :=
  failure.category = .unknownItem ∨ failure.category = .invalidOperation

/-- The labels that come with a request, apart from those that are only looked for. -/
def Request.labels : Request → List String
  | addItems playlist items .. => playlist :: items.map NewItem.id
  | appendItem playlist _ _ item | removeItem playlist item => [playlist, item]
  | setOrder playlist _ | listItems playlist | playbackOrder playlist | clearPlaylist playlist =>
    [playlist]

/-- What a request can be refused for. -/
inductive Request.Blames (r : Request) : Failure → Prop where
  | asked {failure : Failure} (h : failure.Asked) : Blames r failure
  | emptyBatch {playlist : String} {explicit : Option UInt64} {rebalance : Bool}
      (h : r = .addItems playlist [] explicit rebalance) : Blames r .nothingToWrite
  | badLabel {label : String} {failure : Failure} (hmem : label ∈ r.labels)
      (h : Label.read label = .error failure) : Blames r failure

theorem Label.category_of_read_eq_error {s : String} {failure : Failure}
    (h : Label.read s = .error failure) : failure.category = .invalidPathFormat := by
  unfold Label.read at h
  split at h
  · cases h
    rfl
  · split at h
    · cases h
      rfl
    · cases h

/-! ## In memory -/

theorem Config.checkRoom_only (config : Config) (playlist : String) (rows added : Nat) :
    Only Failure.Asked (config.checkRoom playlist rows added) := by
  rw [checkRoom]
  split
  · exact .ite (fun _ => .error (.inr rfl)) fun _ => .ok ()
  · exact .ok ()

theorem Tree.pathFor_only (t : Tree) (playlist : Label) (explicit : Option UInt64)
    (item : NewItem) :
    Only (fun failure => failure.Asked ∨ Label.read item.id = .error failure)
      (t.pathFor playlist.text explicit item) := by
  -- A playlist that may be added to has a label for its name, so of the two labels of the new path
  -- only that of the item can be bad.
  have hcreate : ∀ n, item.parent.getD playlist.text = playlist.text ∨
        t.nests (item.parent.getD playlist.text) = true →
      Only (fun failure => failure.Asked ∨ Label.read item.id = .error failure)
        (Path.create (item.parent.getD playlist.text) item.kind item.id n) := by
    intro n hparent
    have hread : ∃ parent, Label.read (item.parent.getD playlist.text) = .ok parent := by
      rcases hparent with hown | hnests
      · rw [hown]
        exact ⟨playlist, playlist.read_text⟩
      · obtain ⟨p, -, -, hitem⟩ := Tree.nests_eq_true_iff.1 hnests
        rw [← hitem]
        exact ⟨p.item, p.item.read_text⟩
    obtain ⟨parent, hread⟩ := hread
    rw [Path.create, hread]
    refine Only.bind (.ok parent) fun _ _ => Only.bind ?_ fun _ _ => .ok _
    exact fun failure hfailure => .inr hfailure
  have hposition : Only (fun failure => failure.Asked ∨ Label.read item.id = .error failure)
      (t.nextPosition (item.parent.getD playlist.text)) := by
    rw [Tree.nextPosition]
    unfold positionAfter
    split
    · exact .ok _
    · exact .ite (fun _ => .ok _) fun _ => .error (.inl (.inr rfl))
  rw [Tree.pathFor]
  refine .ite (fun hparent => Only.bind ?_ fun _ _ => ?_) fun _ => .error (.inl (.inl rfl))
  · exact .ite (fun _ => .error (.inl (.inr rfl))) fun _ => .ok ()
  · cases explicit with
    | some n => exact hcreate _ hparent
    | none => exact hposition.bind fun n _ => hcreate n hparent

theorem Tree.add_only (t : Tree) (playlist : Label) (items : List NewItem)
    (explicit : Option UInt64) :
    Only (fun failure => failure.Asked ∨ ∃ item ∈ items, Label.read item.id = .error failure)
      (Run.outcome (items.mapM (Tree.addOne playlist.text explicit) t)) := by
  induction items generalizing t with
  | nil => exact .ok _
  | cons item rest ih =>
    rw [List.mapM_cons, Run.outcome_bind, Tree.outcome_addOne]
    refine Only.bind (Only.map ?_) fun result _ => ?_
    · refine (t.pathFor_only playlist explicit item).mono fun failure hfailure => ?_
      exact hfailure.imp_right fun hlabel => ⟨item, List.mem_cons_self, hlabel⟩
    · rw [Run.outcome_bind]
      refine Only.bind ((ih result.2).mono fun failure hfailure => ?_) fun _ _ => .ok _
      refine hfailure.imp_right fun hex => ?_
      obtain ⟨later, hlater, hlabel⟩ := hex
      exact ⟨later, List.mem_cons_of_mem _ hlater, hlabel⟩

namespace Operation

variable {config : Config} {playlist : Label}

theorem arrange_only (playlist : String) (claimed unclaimed : List Path) (items : List String) :
    Only Failure.Asked (arrange playlist claimed unclaimed items) := by
  induction items generalizing claimed unclaimed with
  | nil => exact .ok _
  | cons item rest ih =>
    rw [arrange]
    split
    · exact ih _ _
    · exact .ite (fun _ => .error (.inr rfl)) fun _ => .error (.inl rfl)

/-- A removal comes to the same whether or not what is left is numbered afresh afterwards, but for
the positions. -/
theorem reduce_rebalancing (d : Dialect) (config : Config) (playlist : Label) (item : String)
    (rows : Rows) (rebalance : Bool) :
    (reduce d { config with rebalanceOnRemove := rebalance } playlist item rows).map Prod.fst
      = (reduce d config playlist item rows).map Prod.fst := by
  rw [reduce, reduce]
  cases Label.read item with
  | error failure => rfl
  | ok label =>
    dsimp only
    cases Edit.removeSubtree d playlist.text item rows with
    | error failure kept => rfl
    | ok removed kept =>
      dsimp only
      by_cases hnone : removed = 0
      · rw [if_pos hnone, if_pos hnone]
      · rw [if_neg hnone, if_neg hnone]
        rfl

end Operation

/-- In memory a request is refused for nothing but what it asks for. -/
theorem Request.outcome_blames (d : Dialect) (config : Config) (playlist : Label) {rows : Rows}
    (h : rows.Readable) (r : Request) : Only r.Blames (r.outcome d config playlist rows) := by
  cases r with
  | addItems name items explicit rebalance =>
    refine Only.map ?_
    rw [Operation.enlarge_eq]
    refine .ite (fun hempty => .error ?_) fun _ => .bind ?_ fun _ _ => Only.map ?_
    · rw [List.isEmpty_iff.1 hempty]
      exact .emptyBatch rfl
    · exact (config.checkRoom_only _ _ _).mono fun _ hasked => .asked hasked
    · refine (rows.tree.add_only playlist items _).mono fun failure hfailure => ?_
      rcases hfailure with hasked | ⟨item, hitem, hlabel⟩
      · exact .asked hasked
      · exact .badLabel (List.mem_cons_of_mem _ (List.mem_map_of_mem hitem)) hlabel
  | appendItem name parent kind item =>
    refine Only.map ?_
    rw [Operation.extend]
    refine .bind ((config.checkRoom_only _ _ _).mono fun _ hasked => .asked hasked)
      fun _ _ => Only.map ?_
    refine (rows.tree.pathFor_only playlist none _).mono fun failure hfailure => ?_
    rcases hfailure with hasked | hlabel
    · exact .asked hasked
    · exact .badLabel (List.mem_cons_of_mem _ List.mem_cons_self) hlabel
  | setOrder name items =>
    refine Only.map ?_
    rw [Operation.rearrange_eq rows.agreeing_tree]
    exact Only.map ((Operation.arrange_only _ _ _ items).mono fun _ hasked => .asked hasked)
  | removeItem name item =>
    refine Only.map ?_
    rw [Operation.reduce, h.removeSubtree_eq d]
    cases hlabel : Label.read item with
    | error failure =>
      exact .error (.badLabel (List.mem_cons_of_mem _ List.mem_cons_self) hlabel)
    | ok label => exact .ite (fun _ => .error (.asked (.inl rfl))) fun _ => .ok _
  | listItems name => exact .ok _
  | playbackOrder name => exact .ok _
  | clearPlaylist name => exact .ok _

namespace Service

variable (d : Dialect) {s : Store}

theorem playlist_mem_labels (r : Request) : r.playlist ∈ r.labels := by
  cases r <;> exact List.mem_cons_self

theorem handle_blames (h : s.Sound) (config : Config) (r : Request) :
    Only r.Blames (handle ⟨d, .never⟩ config r s).1 := by
  cases hlabel : Label.read r.playlist with
  | error failure =>
    rw [handle, hlabel]
    exact .error (.badLabel (playlist_mem_labels r) hlabel)
  | ok playlist =>
    have hp := h playlist.text
    rw [handle_eq d hp.readable hp.nested.rooted (Label.text_of_read hlabel).symm, Store.answer_fst]
    exact Only.map (r.outcome_blames d config playlist hp.readable)

theorem run_blames (h : s.Sound) {requests : List (Config × Request)}
    (hcount : StaysCountable ⟨d, .never⟩ requests s) :
    List.Forall₂ (fun request answer => Only request.2.Blames answer) requests
      (run ⟨d, .never⟩ requests s).1 := by
  induction requests generalizing s with
  | nil => exact .nil
  | cons request rest ih =>
    exact .cons (handle_blames d h request.1 request.2)
      (ih (handle_sound_of_size h hcount.first) hcount.rest)

theorem removeItem_answer_eq (h : s.Sound) (config : Config) (rebalance : Bool)
    (playlist item : String) :
    (handle ⟨d, .never⟩ { config with rebalanceOnRemove := rebalance }
        (.removeItem playlist item) s).1
      = (handle ⟨d, .never⟩ config (.removeItem playlist item) s).1 := by
  have hname : (Request.removeItem playlist item).playlist = playlist := rfl
  cases hlabel : Label.read playlist with
  | error failure => rw [handle, handle, hname, hlabel]
  | ok label =>
    obtain rfl := Label.text_of_read hlabel
    have hp := h label.text
    have hreduce := Operation.reduce_rebalancing d config label item (s.rows label.text) rebalance
    rw [handle_eq d hp.readable hp.nested.rooted hname,
      handle_eq d hp.readable hp.nested.rooted hname, Store.answer_fst, Store.answer_fst]
    show (Except.map _ (Except.map _ _)) = Except.map _ (Except.map _ _)
    rw [Failure.map_fst_map, Failure.map_fst_map, hreduce]

/-- **Only what is asked for is refused.** However many requests have been answered since there was
nothing, none is ever refused because a row cannot be written or because the store contradicts
itself. A batch is refused as nothing to write only if it is empty, and a label only if it came with
the request and is none. A removal is answered the same whether or not it numbers afresh. -/
theorem run_refuses_requests_only {requests : List (Config × Request)}
    (hcount : StaysCountable ⟨d, .never⟩ requests .empty) :
    List.Forall₂ (fun request answer => ∀ failure, answer = .error failure →
        failure.category ∉ [.storage, .unexpectedValueType, .unexpectedKeyType] ∧
        (failure.category = .emptyTree → ∃ playlist explicit rebalance,
          request.2 = .addItems playlist [] explicit rebalance) ∧
        (failure.category = .invalidPathFormat →
          ∃ label ∈ request.2.labels, Label.read label = .error failure))
      requests (run ⟨d, .never⟩ requests .empty).1 ∧
    ∀ config rebalance playlist item,
      (handle ⟨d, .never⟩ { config with rebalanceOnRemove := rebalance }
          (.removeItem playlist item) (run ⟨d, .never⟩ requests .empty).2).1
        = (handle ⟨d, .never⟩ config (.removeItem playlist item)
            (run ⟨d, .never⟩ requests .empty).2).1 := by
  refine ⟨(run_blames d sound_empty hcount).imp fun request answer hblames failure hfailure => ?_,
    removeItem_answer_eq d (run_sound_of_sound sound_empty hcount)⟩
  -- Each blame has categories of its own, and none of them is one of the three.
  cases hblames failure hfailure with
  | asked h =>
    rcases h with h | h
    · simp [h]
    · simp [h]
  | emptyBatch h => exact ⟨by decide, fun _ => ⟨_, _, _, h⟩, fun h => (nomatch h)⟩
  | badLabel hmem h =>
    have hcategory := Label.category_of_read_eq_error h
    exact ⟨by simp [hcategory], fun h => by simp [hcategory] at h, fun _ => ⟨_, hmem, h⟩⟩

/-- Requests that are refused, each for a cause of its own, among requests that are not. -/
def erringRequests : List (Config × Request) :=
  [({}, .addItems "P" [⟨.playlist, "Q", none⟩, ⟨.track, "A", some "Q"⟩] none false),
    ({}, .addItems "P" [] none true), ({}, .appendItem "P" none .track "A.B"),
    ({}, .appendItem "P" (some "R") .track "A"), ({}, .appendItem "P" (some "Q") .playlist "Q"),
    ({ maxPlaylistItems := some 2 }, .appendItem "P" none .track "A"),
    ({}, .setOrder "P" ["Q", "Q"]), ({}, .removeItem "P" "B")]

theorem run_refuses_requests_only_erring :
    StaysCountable ⟨.memory, .never⟩ erringRequests .empty ∧
      List.Forall₂ (fun request answer => ∀ failure, answer = .error failure →
          failure.category ∉ [.storage, .unexpectedValueType, .unexpectedKeyType] ∧
          (failure.category = .emptyTree → ∃ playlist explicit rebalance,
            request.2 = .addItems playlist [] explicit rebalance) ∧
          (failure.category = .invalidPathFormat →
            ∃ label ∈ request.2.labels, Label.read label = .error failure))
        erringRequests (run ⟨.memory, .never⟩ erringRequests .empty).1 ∧
      (handle ⟨.memory, .never⟩ { rebalanceOnRemove := false } (.removeItem "P" "A")
          (run ⟨.memory, .never⟩ erringRequests .empty).2).1
        = (handle ⟨.memory, .never⟩ {} (.removeItem "P" "A")
            (run ⟨.memory, .never⟩ erringRequests .empty).2).1 :=
  have hcount : StaysCountable ⟨.memory, .never⟩ erringRequests .empty :=
    .of_total (fun _ => Nat.le_refl 0) (by decide)
  have h := run_refuses_requests_only .memory hcount
  ⟨hcount, h.1, h.2 {} false "P" "A"⟩

end Service

end Playlists
