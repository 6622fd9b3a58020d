import Playlists.Proofs.Service.WriteBack
import Playlists.Proofs.Tree.Batch

/-!
# `Proofs/Service/Adding.lean` — what a request to add items reports

A batch is reported by the paths of its items. They are found before siblings are numbered afresh,
so what is reported is where the moves take them, and the rows that are written are found by going
back along the same moves. `addItems_reports` says that the two meet: the paths are committed rows,
one for each item, and all other rows are the rows there were before.

On the way there the tree only grows (`Tree.Grown.siblings_eq`) and is then rearranged. The moves
take siblings to siblings, one by one and in order (`Tree.map_destination_siblings`), so what is
known of the grown tree is carried over to the rows (`Tree.Grown.adds`).
-/

set_option autoImplicit false

namespace Playlists

/-- How the paths `after` come from the paths `before` when a batch of items is added to a playlist:
the items are at the paths `created`, all others are at the paths they had or are numbered
afresh. -/
structure Adds (playlist : String) (items : List NewItem) (explicit : Option UInt64)
    (rebalance : Bool) (before created after : List Path) : Prop where
  carries : List.Forall₂ (fun item p => Path.Carries playlist item p) items created
  nodup : created.Nodup
  committed : ∀ p ∈ created, p ∈ after
  /-- The other children of a label are those that were not written over, in the order they had. -/
  others : ∀ label, List.Forall₂ (fun p q => p.sameEntry q = true)
    ((Path.siblings before label).filter fun p => !p.overwrittenBy playlist items explicit)
    ((Path.siblings after label).filter (· ∉ created))
  untouched : rebalance = false → ∀ p, p ∈ after ∧ p ∉ created ↔
    p ∈ before ∧ p.overwrittenBy playlist items explicit = false
  /-- Items without a position come behind all other children of their label, in their order. -/
  behind : (items.length = 1 → explicit = none) → ∀ label, Path.siblings after label
    = (Path.siblings after label).filter (· ∉ created) ++ created.filter (·.root == label)
  balanced : rebalance = true → ∀ label, (Path.siblings after label).map Path.position
    = List.range' 1 (Path.siblings after label).length

/-- What a batch that was added to a tree comes to, numbered afresh or not. -/
theorem Tree.Grown.adds {t grown : Tree} {playlist : String} {explicit : Option UInt64}
    {items : List NewItem} {created : List Path}
    (h : Grown playlist (if items.length = 1 then explicit else none) t items created grown)
    (ha : t.Agreeing) (rebalance : Bool) :
    Adds playlist items explicit rebalance t.paths
      (created.map (grown.balanced rebalance).2.destination)
      (grown.balanced rebalance).1.paths := by
  have hag := h.agreeing ha
  have hcreated : ∀ p ∈ created, p ∈ grown.paths := fun p hp => h.mem_paths.2 (.inl hp)
  have hsiblings : ∀ label, ∀ p ∈ Path.siblings grown.paths label, p ∈ grown.paths :=
    fun label p hp => (Path.mem_siblings.1 hp).1
  obtain ⟨steps, hsteps, hmoves⟩ := grown.exists_rearranges_balanced rebalance
  have hafter := grown.map_destination_siblings hag rebalance
  rw [hmoves] at hafter
  refine { carries := ?carries, nodup := ?nodup, committed := fun q hq => ?committed,
           others := fun label => ?others, untouched := fun hkeep p => ?untouched,
           behind := fun hlast label => ?behind,
           balanced := fun hbalance => map_position_balanced hag hbalance }
  case carries =>
    refine List.forall₂_map_right_iff.2 (List.forall₂_iff_zip.2 ⟨h.carries.length_eq, ?_⟩)
    intro item p hmem
    have hp := hcreated p (List.of_mem_zip hmem).2
    exact (List.forall₂_zip h.carries hmem).congr (sameEntry_destination rebalance hp)
  case nodup =>
    rw [hmoves]
    exact hsteps.nodup_map_destination hcreated (h.nodup_created ha)
  case committed =>
    obtain ⟨p, hp, rfl⟩ := List.mem_map.1 hq
    rw [hmoves]
    exact hsteps.destination_mem (hcreated p hp)
  -- Numbering afresh takes the children one by one to where they go, and the new ones with them.
  case others =>
    rw [hmoves, ← hafter, hsteps.filter_not_mem_map_destination (hsiblings label) hcreated,
      h.filter_siblings_eq ha]
    exact hsteps.forall₂_map_destination fun p hp => hsiblings label p (List.mem_filter.1 hp).1
  case untouched =>
    subst hkeep
    have hstay : created.map (grown.balanced false).2.destination = created := List.map_id _
    rw [hstay]
    exact h.mem_paths_and_not_mem_iff ha
  case behind =>
    rw [ite_eq_right_iff.2 hlast] at h
    rw [hmoves, ← hafter, hsteps.filter_not_mem_map_destination (hsiblings label) hcreated,
      hsteps.filter_root_map_destination hcreated, ← List.map_append]
    exact congrArg _ (h.siblings_eq_filter_append ha label)

namespace Service

variable {s : Store}

/-- **A request to add items reports what it wrote.** If it is not refused, there is one path for
each item, in their order, and the paths are rows now and differ from one another. All other rows
are those that were not written over, as they were or numbered afresh, and in the order they were
in. Items without a position are behind them. -/
theorem addItems_reports (d : Dialect) (config : Config) (playlist : Label)
    (h : (s.rows playlist.text).Readable) {rebalance : Bool}
    (hr : rebalance = true → Rooted playlist.text (s.rows playlist.text).paths)
    {items : List NewItem}
    (hcount : rebalance = true → (s.rows playlist.text).size + items.length < UInt64.size)
    (explicit : Option UInt64) {response : Response} {s' : Store}
    (hok : handle ⟨d, .never⟩ config (.addItems playlist.text items explicit rebalance) s
      = (.ok response, s')) :
    ∃ created after, response = .paths created ∧ s' = s.withRows playlist.text after ∧
      after.Readable ∧
      Adds playlist.text items explicit rebalance (s.rows playlist.text).paths created
        after.paths := by
  obtain ⟨-, -, created, grown, hgrown, rfl, rfl⟩ := (handle_addItems_iff d h hr).1 hok
  have hword := hgrown.storable (Rows.storable_tree _)
  -- Kept positions are machine words already; those given afresh only count children.
  have hs : (grown.balanced rebalance).1.Storable := by
    cases rebalance with
    | false => exact hword
    | true =>
      have hsize := hgrown.size_le
      rw [h.size_tree] at hsize
      have hnum := Tree.numerable_of_size_lt (Nat.lt_of_le_of_lt hsize (hcount rfl))
      exact Tree.storable_balanced hword hnum true
  refine ⟨_, _, rfl, rfl, Tree.readable_toRows hs, ?_⟩
  rw [Tree.paths_toRows hs, ← Rows.paths_tree]
  exact hgrown.adds (Rows.agreeing_tree _) rebalance

/-- A batch that nests a playlist and adds to it, and to the playlist in between. -/
def nestingBatch : List NewItem :=
  [⟨.playlist, "R", none⟩, ⟨.track, "A", some "R"⟩, ⟨.track, "A", none⟩, ⟨.track, "B", some "R"⟩]

theorem addItems_reports_nesting :
    (gappedStore.rows gappedName.text).Readable ∧
      Rooted gappedName.text (gappedStore.rows gappedName.text).paths ∧
      (gappedStore.rows gappedName.text).size + nestingBatch.length < UInt64.size ∧
      ∃ created after,
        handle ⟨.memory, .never⟩ {} (.addItems gappedName.text nestingBatch none true) gappedStore
          = (.ok (.paths created), gappedStore.withRows gappedName.text after) ∧
        after.Readable ∧
        Adds gappedName.text nestingBatch none true (gappedStore.rows gappedName.text).paths created
          after.paths := by
  have h : (gappedStore.rows gappedName.text).Readable := by decide +kernel
  have hr : Rooted gappedName.text (gappedStore.rows gappedName.text).paths := by decide +kernel
  have hcount : (gappedStore.rows gappedName.text).size + nestingBatch.length < UInt64.size := by
    decide +kernel
  have hroom : Config.Allows {} ((gappedStore.rows gappedName.text).size + nestingBatch.length) :=
    fun _ hlimit => nomatch hlimit
  have hadd : (Run.outcome (Tree.add gappedName.text nestingBatch none
      (gappedStore.rows gappedName.text).tree)).isOk = true := by decide +kernel
  cases hresult : Run.outcome (Tree.add gappedName.text nestingBatch none
      (gappedStore.rows gappedName.text).tree) with
  | error failure =>
    rw [hresult] at hadd
    cases hadd
  | ok result =>
    have hgrown := Tree.grown_of_mapM (Run.outcome_eq_ok hresult)
    have hmoves : true = true → Rooted gappedName.text (gappedStore.rows gappedName.text).paths :=
      fun _ => hr
    have hne : nestingBatch ≠ [] := List.cons_ne_nil _ _
    have hok := (handle_addItems_iff .memory h hmoves).2 ⟨hne, hroom, _, _, hgrown, rfl, rfl⟩
    obtain ⟨created, after, hcreated, hafter, hread, hadds⟩ :=
      addItems_reports .memory {} gappedName h hmoves (fun _ => hcount) none hok
    rw [hcreated, hafter] at hok
    exact ⟨h, hr, hcount, created, after, hok, hread, hadds⟩

end Service

end Playlists
