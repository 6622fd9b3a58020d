import Playlists.Tree.Basic

/-!
# `Tree/Playback.lean` — the tracks in the order they are heard

A playlist is heard child after child, and where a child is a playlist, its children are heard in
its place. Nothing is heard twice on account of a playlist that comes up again: a playlist is opened
the first time it is met and skipped from then on. That also ends the walk on playlists that contain
themselves.

The walk keeps the entries that are still to be heard, first one first, and the labels that may
still be opened. Opening one puts its children in front. Every label is opened once at most and
brings no more entries than the tree has, so the walk ends.
-/

set_option autoImplicit false

namespace Playlists.Tree

theorem length_childrenOf_le (t : Tree) (label : String) : (t.childrenOf label).length ≤ t.size :=
  Nat.le_trans (List.takeWhile_sublist _).length_le (List.dropWhile_sublist _).length_le

theorem length_siblings_le (t : Tree) (label : String) : (t.siblings label).length ≤ t.size := by
  rw [siblings, List.length_mergeSort]
  exact t.length_childrenOf_le label

def without (labels : List String) (label : String) : List String :=
  labels.filter (· != label)

theorem length_without_lt {labels : List String} {label : String} (h : label ∈ labels) :
    (without labels label).length < labels.length :=
  List.length_filter_lt_length_iff_exists.2 ⟨_, h, by simp⟩

/-- The tracks among `pending` and in the playlists that are opened on the way. -/
def play (t : Tree) (unopened : List String) (pending : List Entry) : List Node :=
  match pending with
  | [] => []
  | e :: rest =>
    match e.node.kind with
    | .track => e.node :: t.play unopened rest
    | .playlist =>
      if h : e.node.id ∈ unopened then
        have := length_without_lt h
        t.play (without unopened e.node.id) (t.siblings e.node.id ++ rest)
      -- Opened before, or without an entry of its own: nothing of it is heard here.
      else t.play unopened rest
termination_by unopened.length * (t.size + 1) + pending.length
decreasing_by
  · simp
  · have hle := t.length_siblings_le e.node.id
    have hmul := Nat.mul_le_mul_right (t.size + 1) (Nat.succ_le_of_lt this)
    rw [Nat.succ_mul] at hmul
    simp only [List.length_append, List.length_cons]
    omega
  · simp

/-- The labels of the playlists that a tree points at. -/
def nestedLabels (t : Tree) : List String :=
  t.toList.map (·.node.id)

/-- The tracks of the playlist `root` in the order they are heard. -/
def playbackOrder (t : Tree) (root : String) : List Node :=
  t.play (without t.nestedLabels root) (t.siblings root)

end Playlists.Tree
