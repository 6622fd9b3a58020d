import Playlists.Proofs.Tree.Playback
import Playlists.Proofs.Tree.Reordering

/-!
# `Proofs/Tree/Relocation.lean` — the moves that numbering reports are exact

Numbering siblings afresh gives entries new paths, and a new path is often the old one of another
entry: siblings change places, or each goes to where the next one was. The moves are listed by their
new paths, so if two entries came to one path, one of the two moves would be lost without notice.

That cannot happen, because entries are taken one by one to entries of the new tree. `Moves.Exact`
says of moves between two trees what has to be true of them for rows to be changed accordingly, and
`Rearranges.exact` that the moves along such steps have it. Both ways of numbering are such steps,
so both report exact moves (`moves_exact`).
-/

set_option autoImplicit false

namespace Playlists

/-- Moves say exactly which entries of one tree have another path in a second one. -/
structure Moves.Exact (moves : Moves) (t t' : Tree) : Prop where
  ne : ∀ m ∈ moves.toList, m.old ≠ m.new
  same : ∀ m ∈ moves.toList, m.old.sameEntry m.new = true
  nodup_old : (moves.toList.map Move.old).Nodup
  old_mem : ∀ m ∈ moves.toList, m.old ∈ t.paths
  new_mem : ∀ m ∈ moves.toList, m.new ∈ t'.paths
  /-- The paths afterwards are those that nothing left and those that something came to, and none of
  them is both. -/
  paths_perm : t'.paths.Perm
    (t.paths.filter (· ∉ moves.toList.map Move.old) ++ moves.toList.map Move.new)
  size_eq : t'.size = t.size
  /-- An entry has kept its path and is in no move, or it has another path and its move is listed. -/
  entries : ∀ e ∈ t.toList, ∃ f ∈ t'.toList, f.node.unplaced = e.node.unplaced ∧
    ((f.path = e.path ∧ ∀ m ∈ moves.toList, m.old ≠ e.path) ∨
      (f.path ≠ e.path ∧ ⟨e.path, f.path⟩ ∈ moves.toList))

namespace Tree

variable {t t' : Tree} {steps : List (Entry × Entry)}

namespace Rearranges

/-- A path that was left is that of a step that moves. -/
theorem mem_old_iff (h : t.Rearranges t' steps) {s : Entry × Entry} (hs : s ∈ steps) :
    s.1.path ∈ (movesAmong steps).toList.map Move.old ↔ s.2.path ≠ s.1.path := by
  rw [List.mem_map]
  constructor
  · intro hex
    obtain ⟨m, hm, hold⟩ := hex
    obtain ⟨r, hr, hne, rfl⟩ := h.mem_movesAmong.1 hm
    rw [← h.eq_of_fst hr hs hold]
    exact hne
  · intro hne
    exact ⟨_, h.mem_movesAmong.2 ⟨s, hs, hne, rfl⟩, rfl⟩

/-- A path that something came to is that of a step that moves. -/
theorem mem_new_iff (h : t.Rearranges t' steps) {s : Entry × Entry} (hs : s ∈ steps) :
    s.2.path ∈ (movesAmong steps).toList.map Move.new ↔ s.2.path ≠ s.1.path := by
  rw [List.mem_map]
  constructor
  · intro hex
    obtain ⟨m, hm, hnew⟩ := hex
    obtain ⟨r, hr, hne, rfl⟩ := h.mem_movesAmong.1 hm
    rw [← h.eq_of_snd hr hs hnew]
    exact hne
  · intro hne
    exact ⟨_, h.mem_movesAmong.2 ⟨s, hs, hne, rfl⟩, rfl⟩

theorem nodup_old (h : t.Rearranges t' steps) :
    ((movesAmong steps).toList.map Move.old).Nodup := by
  refine (movesAmong steps).nodup.map_on fun m hm n hn hold => ?_
  obtain ⟨r, hr, -, rfl⟩ := h.mem_movesAmong.1 hm
  obtain ⟨s, hs, -, rfl⟩ := h.mem_movesAmong.1 hn
  rw [h.eq_of_fst hr hs hold]

theorem paths_perm (h : t.Rearranges t' steps) : t'.paths.Perm
    (t.paths.filter (· ∉ (movesAmong steps).toList.map Move.old)
      ++ (movesAmong steps).toList.map Move.new) := by
  have hnew : ((movesAmong steps).toList.map Move.new).Nodup :=
    List.Nodup.of_map Path.text (by rw [List.map_map]; exact (movesAmong steps).nodup_keys)
  refine (List.perm_ext_iff_of_nodup t'.nodup_paths ?_).2 fun p => ?_
  · refine List.nodup_append'.2 ⟨t.nodup_paths.filter _, hnew, fun p hp hpnew => ?_⟩
    obtain ⟨hpt, hstays⟩ := List.mem_filter.1 hp
    obtain ⟨s, hs, rfl⟩ := h.exists_fst_path hpt
    -- Nothing comes to a path that nothing has left: the entry under it is still there.
    have hkept : s.2.path = s.1.path :=
      not_not.1 fun hne => of_decide_eq_true hstays ((h.mem_old_iff hs).2 hne)
    rw [← hkept] at hpnew
    exact (h.mem_new_iff hs).1 hpnew hkept
  · rw [List.mem_append, List.mem_filter, decide_eq_true_iff]
    constructor
    · intro hp
      obtain ⟨s, hs, rfl⟩ := h.exists_snd_path hp
      by_cases hkept : s.2.path = s.1.path
      · rw [hkept]
        exact .inl ⟨mem_paths_of_mem (h.fst_mem hs), fun hold => (h.mem_old_iff hs).1 hold hkept⟩
      · exact .inr ((h.mem_new_iff hs).2 hkept)
    · rintro (⟨hpt, hstays⟩ | hpnew)
      · obtain ⟨s, hs, rfl⟩ := h.exists_fst_path hpt
        have hkept : s.2.path = s.1.path :=
          not_not.1 fun hne => hstays ((h.mem_old_iff hs).2 hne)
        rw [← hkept]
        exact mem_paths_of_mem (h.snd_mem hs)
      · obtain ⟨m, hm, rfl⟩ := List.mem_map.1 hpnew
        obtain ⟨s, hs, -, rfl⟩ := h.mem_movesAmong.1 hm
        exact mem_paths_of_mem (h.snd_mem hs)

/-- Moves along steps from entry to entry are exact. -/
theorem exact (h : t.Rearranges t' steps)
    (hnode : ∀ s ∈ steps, s.2.node.unplaced = s.1.node.unplaced) :
    (movesAmong steps).Exact t t' where
  ne m hm := by
    obtain ⟨s, -, hne, rfl⟩ := h.mem_movesAmong.1 hm
    exact hne.symm
  same m hm := by
    obtain ⟨s, hs, -, rfl⟩ := h.mem_movesAmong.1 hm
    exact h.same s hs
  nodup_old := h.nodup_old
  old_mem m hm := by
    obtain ⟨s, hs, -, rfl⟩ := h.mem_movesAmong.1 hm
    exact mem_paths_of_mem (h.fst_mem hs)
  new_mem m hm := by
    obtain ⟨s, hs, -, rfl⟩ := h.mem_movesAmong.1 hm
    exact mem_paths_of_mem (h.snd_mem hs)
  paths_perm := h.paths_perm
  size_eq := h.size_eq.symm
  entries e he := by
    obtain ⟨s, hs, rfl⟩ := List.mem_map.1 (h.before.mem_iff.2 he)
    refine ⟨s.2, h.snd_mem hs, hnode s hs, ?_⟩
    by_cases hkept : s.2.path = s.1.path
    · refine .inl ⟨hkept, fun m hm hold => ?_⟩
      exact (h.mem_old_iff hs).1 (List.mem_map.2 ⟨m, hm, hold⟩) hkept
    · exact .inr ⟨hkept, h.mem_movesAmong.2 ⟨s, hs, hkept, rfl⟩⟩

end Rearranges

/-! ## Two ways of numbering -/

theorem unplaced_of_mem_numbered {l : List Entry} {s : Entry × Entry} (hs : s ∈ numbered l) :
    s.2.node.unplaced = s.1.node.unplaced := by
  obtain ⟨-, n, -, -, heq⟩ := of_mem_numbered hs
  rw [heq]
  rfl

theorem exact_rebalance (t : Tree) : t.rebalance.2.Exact t t.rebalance.1 :=
  t.rearranges_rebalance.exact fun _ hs =>
    unplaced_of_mem_numbered (mem_numbered_of_mem_renumbering hs)

section Reorder

variable {parent : String} {entries : List Entry}

/-- Entries that were taken from under one label and numbered are steps from entry to entry, also if
there are none of them. -/
theorem rearranges_of_perm (hperm : entries.Perm (t.siblings parent))
    (hroot : ∀ e ∈ entries, e.path.root.text = parent) :
    t.Rearranges (t.reordered entries) (t.reordering entries) := by
  cases entries with
  | nil =>
    rw [reordered, reordering, List.map_nil, leaving_nil]
    exact .refl t
  | cons e rest =>
    have hdot := hroot e List.mem_cons_self ▸ e.path.root.dot_not_mem
    exact rearranges_reordered hdot hperm

theorem exact_reordered (hperm : entries.Perm (t.siblings parent))
    (hroot : ∀ e ∈ entries, e.path.root.text = parent) :
    (movesAmong (numbered entries)).Exact t (t.reordered entries) := by
  rw [← movesAmong_reordering t]
  -- Entries under other labels are steps that stay, and stay what they are.
  refine (rearranges_of_perm hperm hroot).exact fun s hs => ?_
  rcases List.mem_append.1 hs with hs | hs
  · exact unplaced_of_mem_numbered hs
  · obtain ⟨e, -, rfl⟩ := List.mem_map.1 hs
    rfl

/-- Children go where the moves say, in the order that was asked for. -/
theorem map_destination_reordered (hperm : entries.Perm (t.siblings parent))
    (hroot : ∀ e ∈ entries, e.path.root.text = parent) :
    (entries.map Entry.path).map (movesAmong (numbered entries)).destination
      = ((t.reordered entries).siblings parent).map Entry.path := by
  have hsteps := rearranges_of_perm hperm hroot
  rw [← movesAmong_reordering t]
  cases entries with
  | nil =>
    have hnone : (t.reordered []).siblings parent = [] := by
      rw [reordered, List.map_nil, leaving_nil]
      exact List.nil_perm.1 hperm
    rw [hnone]
    rfl
  | cons e rest =>
    have hdot := hroot e List.mem_cons_self ▸ e.path.root.dot_not_mem
    have hfst := congrArg (List.map Entry.path) (map_fst_numbered (e :: rest))
    rw [siblings_reordered_self hdot hperm, ← hfst, List.map_map, List.map_map, List.map_map]
    exact List.map_congr_left fun s hs => hsteps.destination_eq (List.mem_append_left _ hs)

end Reorder

/-- **The moves that numbering reports are exact.** Each of them takes one entry from a path that
was there to one that is there now and changes nothing but its position; no two of them leave or
reach one path, and no other entry has another path. That is so for all siblings at once, which keep
their order, and for the children of one label, which get the order that was asked for. -/
theorem moves_exact (t : Tree) :
    (t.rebalance.2.Exact t t.rebalance.1 ∧ ∀ label : Label,
      (t.siblings label.text).map (fun e => t.rebalance.2.destination e.path)
        = (t.rebalance.1.siblings label.text).map Entry.path) ∧
    ∀ parent ordered moves t', reorder parent ordered t = .ok moves t' →
      moves.Exact t t' ∧ ordered.map moves.destination = (t'.siblings parent).map Entry.path := by
  refine ⟨⟨t.exact_rebalance, t.map_destination_rebalance⟩, fun parent ordered moves t' hok => ?_⟩
  obtain ⟨entries, rfl, hperm, hroot, rfl, rfl⟩ := of_reorder_eq_ok hok
  exact ⟨exact_reordered hperm hroot, map_destination_reordered hperm hroot⟩

/-- Four children under one label, two of them of one item. -/
def rotatingRows : Rows :=
  .ofList ["P.track.A.1", "P.track.A.2", "P.track.B.3", "P.playlist.Q.4", "Q.track.A.1"]

/-- An order in which every child gets another position, and one of them the path that another had. -/
def rotatedPaths : List Path :=
  ["P.track.A.2", "P.playlist.Q.4", "P.track.A.1", "P.track.B.3"].filterMap Path.decode?

/-- `P.track.A.2` goes to `P.track.A.1`, and the entry that was there to `P.track.A.3`. -/
theorem moves_exact_rotating :
    ∃ moves t', reorder "P" rotatedPaths rotatingRows.tree = .ok moves t' ∧
      moves.Exact rotatingRows.tree t' ∧
      rotatedPaths.map moves.destination = (t'.siblings "P").map Entry.path := by
  have hok : ∃ moves t', reorder "P" rotatedPaths rotatingRows.tree = .ok moves t' :=
    Run.exists_of_isOk_outcome (by decide +kernel)
  obtain ⟨moves, t', hreorder⟩ := hok
  exact ⟨moves, t', hreorder, (moves_exact rotatingRows.tree).2 _ _ _ _ hreorder⟩

end Tree

end Playlists
