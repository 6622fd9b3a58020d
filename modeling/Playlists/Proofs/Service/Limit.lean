import Playlists.Proofs.Service.Capacity

/-!
# `Proofs/Service/Limit.lean` — what the limit refuses

Whether a batch fits is asked before any of its items has a place, so every item counts as a row
more. A batch that is added does leave a row more for each item, with one exception: a single item
that is given the place of an entry of the same item writes over it, and leaves as many rows as
there were (`Operation.addItems_counts`).

The limit decides nothing else: where a batch could be added without it, it is added alike if it is
counted to fit, and refused otherwise (`Operation.addItems_limited`). So the exception is the one
case in which a batch is refused that would not have gone past the limit.
-/

set_option autoImplicit false

namespace Playlists

open Run (Ensures)

open Staging (begin_rows commit_rows)

variable {backend : Backend} {config : Config} {items : List NewItem} {explicit : Option UInt64}
  {rebalance : Bool}

/-! ## The row that is written over -/

theorem Path.overwrittenBy_eq_true_iff {playlist : String} {p : Path} :
    p.overwrittenBy playlist items explicit = true ↔ ∃ item position,
      items = [item] ∧ explicit = some position ∧ p.Carries playlist item ∧
        p.position = position.toNat := by
  unfold overwrittenBy
  split
  · next item position =>
    rw [Bool.and_eq_true, decide_eq_true_iff, beq_iff_eq]
    constructor
    · intro h
      exact ⟨item, position, rfl, rfl, h⟩
    · rintro ⟨_, _, hitem, hposition, h⟩
      cases hitem
      cases hposition
      exact h
  · next hother =>
    refine iff_of_false Bool.false_ne_true ?_
    rintro ⟨item, position, rfl, rfl, -⟩
    exact hother item position rfl rfl

/-- What is written over makes room for the one item that there is. -/
theorem Rows.length_overwritten {rows : Rows} {playlist : String} {p : Path}
    (hp : p ∈ rows.overwritten playlist items explicit) :
    items.length = 1 ∧ (rows.overwritten playlist items explicit).length = 1 := by
  have hover := (List.mem_filter.1 hp).2
  obtain ⟨item, position, rfl, rfl, hcarries, hposition⟩ := Path.overwrittenBy_eq_true_iff.1 hover
  have hnodup : (rows.overwritten playlist [item] (some position)).Nodup := by
    rw [overwritten, ← rows.paths_tree]
    exact rows.tree.nodup_paths.filter _
  refine ⟨rfl, ((List.perm_ext_iff_of_nodup hnodup (List.nodup_singleton p)).2 ?_).length_eq⟩
  intro q
  rw [List.mem_singleton]
  constructor
  · intro hq
    obtain ⟨_, _, hitem, hplace, hqcarries, hqposition⟩ :=
      Path.overwrittenBy_eq_true_iff.1 (List.mem_filter.1 hq).2
    cases hitem
    cases hplace
    exact hqcarries.eq hcarries (hqposition.trans hposition.symm)
  · rintro rfl
    exact hp

namespace Operation

/-- The limit decides whether a batch is added, and nothing else. -/
theorem addItems_limited (limited : Config) (playlist : Label) (rows : Rows) :
    Ensures (addItems backend config playlist items explicit rebalance) rows fun paths after =>
      addItems backend limited playlist items explicit rebalance rows
        = match limited.checkRoom playlist.text rows.size items.length with
          | .ok _ => .ok paths after
          | .error failure => .error failure rows := by
  rw [addItems, addItems]
  simp only [begin_rows, commit_rows, pure_bind, load_rows]
  refine .ite (fun _ => .throw _) fun hsome => ensures_after_fetchTree fun hread => ?_
  refine .after_attempt fun _ _ => ?_
  -- Only the check reads the limit, so past it both runs are the same.
  intro paths after hrest
  rw [if_neg hsome, Run.bind_of_ok (fetchTree_eq_ok hread), hread.size_tree]
  cases limited.checkRoom playlist.text rows.size items.length with
  | error failure => rfl
  | ok _ => exact hrest

end Operation

namespace Service

variable {s s' : Store} {response : Response} {playlist : String}

theorem handle_addItems_eq (playlist : Label) (s : Store) :
    handle backend config (.addItems playlist.text items explicit rebalance) s
      = match Operation.addItems backend config playlist items explicit rebalance
          (s.rows playlist.text) with
        | .ok paths after => (.ok (.paths paths), s.withRows playlist.text after)
        | .error failure _ => (.error failure, s) := by
  have hlabel : Label.read (Request.addItems playlist.text items explicit rebalance).playlist
      = .ok playlist := playlist.read_text
  rw [handle_eq_keep backend config hlabel, Request.work]
  cases hwork : Operation.addItems backend config playlist items explicit rebalance
      (s.rows playlist.text) with
  | error failure rows => rw [Run.bind_of_error hwork, Store.keep]
  | ok paths after =>
    rw [Run.bind_of_ok hwork]
    rfl

/-- A batch that is added was asked for under a name, and its work was done on the rows there. -/
theorem of_handle_addItems_eq_ok
    (hok : handle backend config (.addItems playlist items explicit rebalance) s
      = (.ok response, s')) :
    ∃ (label : Label) (paths : List Path) (after : Rows), label.text = playlist ∧
      Operation.addItems backend config label items explicit rebalance (s.rows playlist)
        = .ok paths after ∧
      response = .paths paths ∧ s' = s.withRows playlist after := by
  cases hlabel : Label.read playlist with
  | error failure =>
    rw [handle, Request.playlist, hlabel] at hok
    cases hok
  | ok label =>
    obtain rfl := Label.text_of_read hlabel
    rw [handle_addItems_eq] at hok
    cases hwork : Operation.addItems backend config label items explicit rebalance
        (s.rows label.text) with
    | error failure rows =>
      rw [hwork] at hok
      cases hok
    | ok paths after =>
      rw [hwork] at hok
      cases hok
      exact ⟨label, paths, after, rfl, hwork, rfl, rfl⟩

/-- **The limit refuses what is counted to go past it.** Let a batch be added where no limit is set.
There is a row more for each item then, but none for an item that takes the place of an entry. Under
a limit the same batch is added alike if a row for each item still fits, and refused otherwise. So
what would fit is refused in one case: in a full playlist an item is not let to the place of an
entry. -/
theorem addItems_limit_exact (config : Config) (limit : UInt64)
    (hok : handle backend { config with maxPlaylistItems := none }
      (.addItems playlist items explicit rebalance) s = (.ok response, s')) :
    (s'.rows playlist).size + ((s.rows playlist).overwritten playlist items explicit).length
        = (s.rows playlist).size + items.length ∧
      handle backend { config with maxPlaylistItems := some limit }
          (.addItems playlist items explicit rebalance) s
        = (if (s.rows playlist).size + items.length ≤ limit.toNat then (.ok response, s')
          else (.error (.tooManyItems playlist limit.toNat), s)) ∧
      ((limit.toNat < (s.rows playlist).size + items.length ∧
          (s'.rows playlist).size ≤ limit.toNat) ↔
        (s.rows playlist).size = limit.toNat ∧
          ∃ p ∈ (s.rows playlist).paths, p.overwrittenBy playlist items explicit = true) := by
  obtain ⟨label, paths, after, rfl, hwork, rfl, rfl⟩ := of_handle_addItems_eq_ok hok
  have hcount := (Operation.addItems_counts backend _ label _ items explicit rebalance _ _ hwork).1
  have hlimited := Operation.addItems_limited
    { config with maxPlaylistItems := some limit } label _ _ _ hwork
  rw [Config.checkRoom] at hlimited
  dsimp only at hlimited
  rw [Store.rows_withRows_self]
  refine ⟨hcount, ?_, ?_⟩
  · rw [handle_addItems_eq, hlimited]
    by_cases hfits : (s.rows label.text).size + items.length ≤ limit.toNat
    · rw [if_pos hfits, if_neg (Nat.not_lt.2 hfits)]
    · rw [if_neg hfits, if_pos (Nat.not_le.1 hfits)]
  · constructor
    · rintro ⟨hover, hfits⟩
      -- Counted past the limit but not over it in rows: some row has been written over.
      have hsome : (s.rows label.text).overwritten label.text items explicit ≠ [] := by
        intro hnone
        rw [hnone, List.length_nil] at hcount
        omega
      obtain ⟨p, hp⟩ := List.exists_mem_of_ne_nil _ hsome
      obtain ⟨hitems, hlength⟩ := Rows.length_overwritten hp
      exact ⟨by omega, p, List.mem_filter.1 hp⟩
    · rintro ⟨hfull, p, hp⟩
      obtain ⟨hitems, hlength⟩ := Rows.length_overwritten (List.mem_filter.2 hp)
      omega

/-- A playlist of two rows. -/
def pairStore : Store :=
  .seed .empty "P" ["P.track.A.1", "P.track.B.2"]

/-- An item for the place that it has already. -/
def samePlace : Request :=
  .addItems "P" [⟨.track, "A", none⟩] (some 1) false

/-- Where two rows are the limit it is refused, although two rows would be left. -/
theorem addItems_refuses_same_place :
    (pairStore.rows "P").size = 2 ∧
      handle ⟨.memory, .never⟩ {} samePlace pairStore
        = (.ok (.paths ((pairStore.rows "P").paths.take 1)), pairStore) ∧
      handle ⟨.memory, .never⟩ { maxPlaylistItems := some 2 } samePlace pairStore
        = (.error (.tooManyItems "P" 2), pairStore) := by
  decide +kernel

theorem addItems_limit_exact_same_place :
    handle ⟨.memory, .never⟩ {} samePlace pairStore
        = (.ok (.paths ((pairStore.rows "P").paths.take 1)), pairStore) ∧
      (pairStore.rows "P").size = 2 ∧
      ∃ p ∈ (pairStore.rows "P").paths,
        p.overwrittenBy "P" [⟨.track, "A", none⟩] (some 1) = true := by
  have hok : handle ⟨.memory, .never⟩ {} samePlace pairStore
      = (.ok (.paths ((pairStore.rows "P").paths.take 1)), pairStore) := by decide +kernel
  have hexact := addItems_limit_exact {} 2 hok
  have hcounted : UInt64.toNat 2 < (pairStore.rows "P").size + [NewItem.mk .track "A" none].length ∧
      (pairStore.rows "P").size ≤ UInt64.toNat 2 := by decide +kernel
  exact ⟨hok, hexact.2.2.1 hcounted⟩

end Service

end Playlists
