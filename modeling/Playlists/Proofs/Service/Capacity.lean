import Playlists.Proofs.Edit.Counting
import Playlists.Proofs.Service.Answers
import Playlists.Proofs.Service.Faults
import Playlists.Proofs.Tree.Batch

/-!
# `Proofs/Service/Capacity.lean` — playlists stay within the limit

The limit is looked at before anything is added: a batch asks whether all of its items fit, a single
item whether there is a place left. What is written afterwards is another matter, a difference with
entries that move, that are new and that are written over. Counting the rows of every write settles
it (`Proofs/Edit/Counting.lean`): no operation leaves more rows than it found, or it leaves no more
than the limit.

Nothing about the rows is needed. They may be unreadable, already too many, or nested under labels
that lead nowhere; the medium may fail at any write.

Without a limit nothing but memory keeps a playlist from growing. Positions are machine words, though,
so numbering afresh can be trusted only while a machine word counts the rows. `StaysCountable` says
so of a run. It holds under limits, and it holds of any run that asks for fewer items than there are
words.
-/

set_option autoImplicit false

namespace Playlists

open Run (Ensures)

open Staging (within_rows begin_rows commit_rows)

/-- The paths that a batch writes over: one at most, and none that is not a row. -/
def Rows.overwritten (rows : Rows) (playlist : String) (items : List NewItem)
    (explicit : Option UInt64) : List Path :=
  rows.paths.filter (·.overwrittenBy playlist items explicit)

namespace Operation

variable (backend : Backend) (config : Config) (playlist : Label) (rows : Rows)

/-! ## What each operation does to the number of rows -/

/-- A batch inserts an entry for each item that does not take the place of an entry. -/
theorem size_difference {t grown : Tree} (ha : t.Agreeing) {explicit : Option UInt64}
    {items : List NewItem} {created : List Path}
    (h : Tree.Grown playlist.text (if items.length = 1 then explicit else none) t items created
      grown) (rebalance : Bool) :
    (difference t created (grown.balanced rebalance).1 (grown.balanced rebalance).2).1.size
      + (t.paths.filter (·.overwrittenBy playlist.text items explicit)).length = items.length := by
  obtain ⟨steps, hsteps, hmoves⟩ := grown.exists_rearranges_balanced rebalance
  have hcreated := h.nodup_created ha
  -- The created paths that were there already are just those that the batch writes over.
  have hold : (created.filter fun p => t.contains p.text).Perm
      (t.paths.filter (·.overwrittenBy playlist.text items explicit)) := by
    refine (List.perm_ext_iff_of_nodup (hcreated.filter _) (t.nodup_paths.filter _)).2 fun p => ?_
    rw [List.mem_filter, List.mem_filter, Tree.contains_text_iff, and_comm]
    exact and_congr_right fun hp => h.mem_created_iff ha hp
  rw [difference_eq, hmoves, Moves.size_arrived hsteps (hcreated.filter _), ← hold.length_eq,
    ← h.length_created, Nat.add_comm, ← List.length_append]
  · exact (List.filter_append_perm _ created).length_eq
  · intro p hp
    exact h.mem_paths.2 (.inl (List.mem_filter.1 hp).1)

/-- A batch leaves a row more for each item, less one if it writes over a row. -/
theorem addItems_counts (items : List NewItem) (explicit : Option UInt64) (rebalance : Bool) :
    Ensures (addItems backend config playlist items explicit rebalance) rows fun _ after =>
      after.size + (rows.overwritten playlist.text items explicit).length
          = rows.size + items.length ∧
        config.Allows (rows.size + items.length) := by
  rw [addItems]
  simp only [begin_rows, commit_rows, pure_bind, load_rows]
  refine .ite (fun _ => .throw _) fun _ => ensures_after_fetchTree fun hread => ?_
  refine .after_attempt fun _ hroom => ?_
  rw [Config.checkRoom_eq_ok_iff, hread.size_tree] at hroom
  split
  · exact .throw _
  · next created grown hadd =>
    have hnew := size_difference playlist rows.agreeing_tree (Tree.grown_of_mapM hadd) rebalance
    rw [Tree.balanced, rows.paths_tree] at hnew
    -- The rows that moved are as many as before, so the new ones can be counted on top of them.
    have hinsert : ∀ (w : WriteBack) (t : Tree) (paths : List Path) (moved : Rows),
        t.size + (rows.overwritten playlist.text items explicit).length = items.length →
        moved.size = rows.size →
        Ensures (if t.isEmpty then pure paths else do discard (w.insertAll backend t); pure paths)
          moved fun _ after =>
            after.size + (rows.overwritten playlist.text items explicit).length
                = rows.size + items.length ∧
              config.Allows (rows.size + items.length) := by
      intro w t paths moved hitems hmoved
      refine .ite (fun hempty => .pure ⟨?_, hroom⟩) fun _ =>
        .bind (.discard (w.insertAll_counts backend t moved)) fun _ after hafter =>
          .pure ⟨?_, hroom⟩
      · have hnone : t.size = 0 := List.length_eq_zero_iff.2 (List.isEmpty_iff.1 hempty)
        rw [hmoved, ← hitems, hnone, Nat.zero_add]
      · rw [hafter, hmoved, ← hitems, Nat.add_assoc]
    refine .ite (fun _ => hinsert _ _ _ rows hnew rfl) fun _ =>
      .bind (.discard (WriteBack.updateAll_counts _ backend _ rows _)) ?_
    exact fun _ moved hmoved => hinsert _ _ _ moved hnew hmoved

theorem appendItem_counts (parent : Option String) (kind : Kind) (item : String) :
    Ensures (appendItem backend config playlist parent kind item) rows fun _ after =>
      after.size = rows.size + 1 ∧ config.Allows (rows.size + 1) := by
  rw [appendItem]
  simp only [begin_rows, commit_rows, within_rows, pure_bind, lock_rows, bind_pure]
  refine .bind (P := fun _ after => after = rows ∧ config.Allows (rows.size + 1)) ?_ ?_
  · intro _ after hrun
    rw [checkPlace_rows] at hrun
    have hlook : Ensures (attempt (config.checkRoom playlist.text rows.size 1)) rows
        fun _ after => after = rows ∧ config.Allows (rows.size + 1) :=
      .attempt fun _ hroom => ⟨rfl, Config.checkRoom_eq_ok_iff.1 hroom⟩
    exact hlook () after hrun
  rintro _ rows ⟨rfl, hroom⟩
  -- The item goes below the playlist or below a nested one, so both are asked for any holder.
  have happend : ∀ holder : String,
      Ensures (Edit.append backend playlist.text holder kind item) rows fun _ after =>
        after.size = rows.size + 1 ∧ config.Allows (rows.size + 1) := by
    intro holder
    rw [Edit.append]
    simp only [within_rows]
    refine .after_reading (.after_reading (.pure rfl) fun _ => .attempt fun _ _ => rfl) fun _ => ?_
    refine .after_attempt fun position _ => .after_attempt fun path _ => ?_
    exact .bind (Edit.insert_counts playlist.text rows backend [path]) fun _ _ hafter =>
      .pure ⟨hafter, hroom⟩
  have hcheck : ∀ holder : String,
      Ensures (if kind = .playlist then do
          let tree ← fetchTree playlist
          attempt (tree.checkAcyclic playlist.text holder kind item)
          Edit.append backend playlist.text holder kind item
        else Edit.append backend playlist.text holder kind item) rows fun _ after =>
        after.size = rows.size + 1 ∧ config.Allows (rows.size + 1) := by
    intro holder
    refine .ite (fun _ => ensures_after_fetchTree fun _ => ?_) fun _ => happend holder
    exact .after_attempt fun _ _ => happend holder
  refine .ite (fun _ => hcheck _) fun _ => .after_reading (.pure rfl) fun pointed => ?_
  exact .ite (fun _ => hcheck _) fun _ =>
    .bind (P := fun _ _ => False) (.throw _) fun _ _ h => h.elim

theorem setOrder_counts (items : List String) :
    Ensures (setOrder backend config playlist items) rows fun _ after => after.size = rows.size := by
  rw [setOrder]
  simp only [begin_rows, commit_rows, pure_bind, load_rows]
  refine ensures_after_fetchTree fun _ => .after_attempt fun ordered _ => ?_
  split
  · exact .throw _
  · refine .ite (fun _ => .pure rfl) fun _ => ?_
    exact .bind (.discard (WriteBack.updateAll_counts _ backend _ rows _)) fun _ _ hafter =>
      .pure hafter

theorem renumber_counts :
    Ensures (renumber backend playlist) rows fun _ after => after.size = rows.size :=
  ensures_after_fetchTree fun _ => .ite (fun _ => .pure rfl) fun _ => .ite (fun _ => .pure rfl)
    fun _ => .discard (WriteBack.updateAll_counts _ backend _ rows _)

/-- A removal says exactly how many rows are missing afterwards, however they were moved since. -/
theorem removeItem_counts (item : String) :
    Ensures (removeItem backend config playlist item) rows fun removed after =>
      removed + after.size = rows.size := by
  rw [removeItem]
  simp only [begin_rows, commit_rows, pure_bind, lock_rows]
  refine .after_reading (.discard (P := fun after => after = rows) (.attempt fun _ _ => rfl))
    fun _ => ?_
  refine .bind (removeSubtree_counts backend.dialect playlist.text item rows) ?_
  intro removed kept hkept
  refine .ite (fun _ => .throw _) fun _ => .ite (fun _ => ?_) fun _ => .pure hkept
  refine .bind (renumber_counts backend playlist kept) fun _ after hafter => .pure ?_
  rw [hafter, hkept]

end Operation

/-! ## Requests and runs -/

/-- How many items a request asks to add. -/
def Request.itemCount : Request → Nat
  | addItems _ items .. => items.length
  | appendItem .. => 1
  | _ => 0

/-- A request leaves no more rows than it found, or no more than it asks for and the limit has room
for. -/
theorem Request.work_counts (backend : Backend) (config : Config) (playlist : Label) (rows : Rows)
    (r : Request) :
    Ensures (r.work backend config playlist) rows fun _ after =>
      after.size ≤ rows.size ∨
        after.size ≤ rows.size + r.itemCount ∧ config.Allows (rows.size + r.itemCount) := by
  cases r with
  | addItems _ items explicit rebalance =>
    refine .bind (Operation.addItems_counts backend config playlist rows items explicit rebalance)
      fun _ after hafter => .pure (.inr ⟨?_, hafter.2⟩)
    exact Nat.le.intro hafter.1
  | appendItem _ parent kind item =>
    refine .bind (Operation.appendItem_counts backend config playlist rows parent kind item)
      fun _ after hafter => .pure (.inr ⟨?_, hafter.2⟩)
    exact hafter.1.le
  | setOrder _ items =>
    exact .bind (Operation.setOrder_counts backend config playlist rows items)
      fun _ after hafter => .pure (.inl hafter.le)
  | removeItem _ item =>
    refine .bind (Operation.removeItem_counts backend config playlist rows item)
      fun removed after hafter => .pure (.inl ?_)
    exact Nat.le.intro ((Nat.add_comm _ _).trans hafter)
  | listItems _ =>
    refine .after_reading ?_ fun _ => .pure (.inl (Nat.le_refl _))
    refine .after_reading (.pure rfl) fun _ => .after_reading (.pure rfl) fun found => ?_
    exact .after_attempt fun _ _ => .pure rfl
  | playbackOrder _ =>
    refine .after_reading ?_ fun _ => .pure (.inl (Nat.le_refl _))
    exact .after_reading (.pure rfl) fun _ => Operation.ensures_after_fetchTree fun _ => .pure rfl
  | clearPlaylist _ =>
    intro response after h
    rw [Request.work, Run.bind_of_ok (Operation.clearPlaylist_eq_ok config playlist rows)] at h
    cases h
    exact .inl (Nat.zero_le _)

namespace Service

variable {backend : Backend} {s : Store}

/-- What a request does to the number of rows of a playlist. -/
theorem handle_counts (backend : Backend) (config : Config) (r : Request) (s : Store)
    (playlist : String) :
    ((handle backend config r s).2.rows playlist).size ≤ (s.rows playlist).size ∨
      ((handle backend config r s).2.rows playlist).size ≤ (s.rows playlist).size + r.itemCount ∧
        config.Allows ((s.rows playlist).size + r.itemCount) := by
  rcases handle_cases backend config r s with
    ⟨failure, hrun⟩ | ⟨label, response, rows, -, hwork, hrun⟩
  · rw [hrun]
    exact .inl (Nat.le_refl _)
  · rw [hrun]
    refine Store.forall_rows_withRows
      (P := fun other after => after.size ≤ (s.rows other).size ∨
        after.size ≤ (s.rows other).size + r.itemCount ∧
          config.Allows ((s.rows other).size + r.itemCount))
      (fun other => .inl (Nat.le_refl _)) ?_ playlist
    exact Request.work_counts ⟨backend.dialect, .never⟩ config label _ r response rows hwork

theorem handle_within {config : Config} {limit : UInt64}
    (hlimit : config.maxPlaylistItems = some limit) (r : Request) (playlist : String) :
    ((handle backend config r s).2.rows playlist).size
      ≤ max limit.toNat (s.rows playlist).size := by
  rcases handle_counts backend config r s playlist with hless | ⟨hmore, hroom⟩
  · exact hless.trans (Nat.le_max_right _ _)
  · exact (hmore.trans (hroom limit hlimit)).trans (Nat.le_max_left _ _)

theorem run_within {requests : List (Config × Request)} {limit : UInt64}
    (h : ∀ request ∈ requests, request.1.maxPlaylistItems = some limit) (playlist : String) :
    ((run backend requests s).2.rows playlist).size
      ≤ max limit.toNat (s.rows playlist).size := by
  induction requests generalizing s with
  | nil => exact Nat.le_max_right _ _
  | cons request rest ih =>
    obtain ⟨hfirst, hrest⟩ := List.forall_mem_cons.1 h
    have hstep : ((handle backend request.1 request.2 s).2.rows playlist).size
        ≤ max limit.toNat (s.rows playlist).size := handle_within hfirst request.2 playlist
    calc ((run backend (request :: rest) s).2.rows playlist).size
        ≤ max limit.toNat ((handle backend request.1 request.2 s).2.rows playlist).size := ih hrest
      _ ≤ max limit.toNat (max limit.toNat (s.rows playlist).size) := max_le_max_left _ hstep
      _ = max limit.toNat (s.rows playlist).size := max_eq_right (Nat.le_max_left _ _)

/-- **The limit is never overrun.** Under settings with one limit, and after every request of any
run, a playlist has no more rows than the limit, or than it had at the start if those were more:
whatever the rows were, whatever is asked for and wherever the medium fails. -/
theorem run_within_limit (backend : Backend) (s : Store) {requests : List (Config × Request)}
    {limit : UInt64} (h : ∀ request ∈ requests, request.1.maxPlaylistItems = some limit)
    (playlist : String) (k : Nat) :
    ((run backend (requests.take k) s).2.rows playlist).size
      ≤ max limit.toNat (s.rows playlist).size :=
  run_within (fun request hrequest => h request (List.mem_of_mem_take hrequest)) playlist

/-- A playlist that has reached a limit of three, with a row that nothing leads to, and one that is
beyond it. -/
def crowdedStore : Store :=
  (Store.seed .empty "P" ["P.playlist.Q.4", "P.track.A.4", "O.track.B.1"]).seed "R"
    ["R.track.A.1", "R.track.B.2", "R.track.C.3", "R.track.D.4", "R.playlist.S.9"]

/-- Requests that add, write over, number afresh, remove and add again. -/
def pressingRequests : List (Config × Request) :=
  let config : Config := { maxPlaylistItems := some 3 }
  [(config, .appendItem "P" none .track "C"), (config, .removeItem "P" "B"),
    (config, .addItems "P" [⟨.track, "A", none⟩] (some 4) true),
    (config, .addItems "P" [⟨.track, "D", some "Q"⟩, ⟨.track, "D", none⟩] none false),
    (config, .appendItem "P" (some "Q") .track "E"), (config, .setOrder "R" ["D", "S"]),
    (config, .appendItem "R" (some "S") .track "E"), (config, .removeItem "R" "S"),
    (config, .addItems "R" [⟨.track, "E", none⟩] none true)]

theorem run_within_limit_pressing :
    (∀ request ∈ pressingRequests, request.1.maxPlaylistItems = some 3) ∧
      ((run ⟨.memory, .poisoned "E"⟩ (pressingRequests.take 5) crowdedStore).2.rows "P").size
        ≤ max (UInt64.toNat 3) (crowdedStore.rows "P").size :=
  have h : ∀ request ∈ pressingRequests, request.1.maxPlaylistItems = some 3 := by decide
  ⟨h, run_within_limit ⟨.memory, .poisoned "E"⟩ crowdedStore h "P" 5⟩

/-! ## Runs in which rows can be counted -/

/-- A run adds no more rows than its requests ask for. -/
theorem size_run_le (backend : Backend) (requests : List (Config × Request)) (s : Store)
    (playlist : String) :
    ((run backend requests s).2.rows playlist).size
      ≤ (s.rows playlist).size + (requests.map fun request => request.2.itemCount).sum := by
  induction requests generalizing s with
  | nil => exact Nat.le_refl _
  | cons request rest ih =>
    have hfirst := handle_counts backend request.1 request.2 s playlist
    have hrest := ih (handle backend request.1 request.2 s).2
    rw [List.map_cons, List.sum_cons]
    show ((run backend rest (handle backend request.1 request.2 s).2).2.rows playlist).size ≤ _
    omega

/-- In the course of some requests no playlist ever gets more rows than a machine word counts. -/
def StaysCountable (backend : Backend) (requests : List (Config × Request)) (s : Store) : Prop :=
  ∀ front, front <+: requests → ∀ playlist,
    ((run backend front s).2.rows playlist).size < UInt64.size

namespace StaysCountable

variable {request : Config × Request} {requests : List (Config × Request)}

theorem first (h : StaysCountable backend (request :: requests) s) (playlist : String) :
    ((handle backend request.1 request.2 s).2.rows playlist).size < UInt64.size :=
  h [request] ((List.prefix_cons_inj request).2 List.nil_prefix) playlist

theorem rest (h : StaysCountable backend (request :: requests) s) :
    StaysCountable backend requests (handle backend request.1 request.2 s).2 :=
  fun front hfront => h (request :: front) ((List.prefix_cons_inj request).2 hfront)

theorem of_prefix {front : List (Config × Request)} (h : StaysCountable backend requests s)
    (hfront : front <+: requests) : StaysCountable backend front s :=
  fun earlier hearlier => h earlier (hearlier.trans hfront)

/-- Rows can be counted for as long as there are limits. -/
theorem of_limits (hs : ∀ playlist, (s.rows playlist).size < UInt64.size) {limit : UInt64}
    (h : ∀ request ∈ requests, request.1.maxPlaylistItems = some limit) :
    StaysCountable backend requests s := by
  intro front hfront playlist
  have hle : ((run backend front s).2.rows playlist).size
      ≤ max limit.toNat (s.rows playlist).size :=
    run_within (fun request hrequest => h request (hfront.subset hrequest)) playlist
  exact Nat.lt_of_le_of_lt hle (max_lt limit.toNat_lt (hs playlist))

/-- Rows can be counted if fewer items are asked for than a machine word counts. -/
theorem of_total {n : Nat} (hs : ∀ playlist, (s.rows playlist).size ≤ n)
    (htotal : n + (requests.map fun request => request.2.itemCount).sum < UInt64.size) :
    StaysCountable backend requests s := by
  rintro front ⟨rest, rfl⟩ playlist
  have hle := size_run_le backend front s playlist
  have hstart := hs playlist
  rw [List.map_append, List.sum_append] at htotal
  omega

end StaysCountable

end Service

end Playlists
