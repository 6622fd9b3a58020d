import Playlists.Tree.Basic

/-!
# `Tree/References.lean` — which playlists contain which

A playlist entry is a reference from the playlist it stands under to the playlist it points at.
Following references backwards from a label gives its ancestors: every playlist whose contents
include it in the end. An entry that would put a playlist under one of its own descendants is
refused, so the references that are added through this check never close a cycle.

The search for ancestors keeps a list of labels it has seen. Rows may hold cycles that were written
by somebody else; the search ends on them too, because each label is followed once and the entries
of unseen labels become fewer with every label.
-/

set_option autoImplicit false

namespace Playlists.Tree

/-- The labels of the playlists that hold an entry for the playlist `label`. -/
def holders (t : Tree) (label : String) : List String :=
  ((t.pathsOf label).filter (·.kind == .playlist)).map (·.root.text)

def countUnseen (t : Tree) (seen : List String) : Nat :=
  t.paths.countP fun p => !seen.contains p.item.text

/-- Seeing one more label takes away at least as many entries as the label has holders. -/
theorem length_holders_add_countUnseen_le (t : Tree) {seen : List String} {label : String}
    (h : label ∉ seen) :
    (t.holders label).length + t.countUnseen (label :: seen) ≤ t.countUnseen seen := by
  simp only [holders, pathsOf, countUnseen, List.length_map]
  induction t.paths with
  | nil => simp
  | cons p rest ih =>
    by_cases hp : p.item.text = label
    · cases hk : p.kind == .playlist
      · simp_all
        omega
      · simp_all
        omega
    · cases hs : seen.contains p.item.text
      · simp_all
        omega
      · simp_all

/-- Follows the labels in `pending` back to everything that holds them. Labels in `seen` are not
followed. -/
def searchHolders (t : Tree) (seen pending : List String) : List String :=
  match pending with
  | [] => seen
  | label :: rest =>
    if h : label ∈ seen then t.searchHolders seen rest
    else
      -- Seeing `label` takes its entries out of the count, and each of them has one holder.
      have := t.length_holders_add_countUnseen_le h
      t.searchHolders (label :: seen) (t.holders label ++ rest)
termination_by t.countUnseen seen + pending.length
decreasing_by
  · simp
  · simp only [List.length_append, List.length_cons]
    omega

/-- The labels whose contents include the contents of `parent` in the end: `playlist`, `parent`,
every playlist that holds it, and so on. What holds `playlist` itself is not asked. -/
def ancestors (t : Tree) (playlist parent : String) : Texts :=
  .ofList (t.searchHolders [playlist] [parent])

/-- Refuses to nest a playlist in itself, directly or through its descendants. -/
def checkAcyclic (t : Tree) (playlist parent : String) (kind : Kind) (item : String) :
    Except Failure Unit :=
  if kind = .playlist ∧ (t.ancestors playlist parent).contains item then
    .error (.cyclicNesting item parent playlist)
  else .ok ()

end Playlists.Tree
