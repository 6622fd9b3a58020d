import Playlists.Backend
import Playlists.Proofs.Tree.Siblings

/-!
# `Proofs/Tree/Children.lean` — three ways to find the children of a playlist

The children of a playlist are looked for in three ways. `Tree.childrenOf` scans the entries of a
tree from where the first child would stand, `Path.isUnder` compares a label, and `lastPosition` is
given rows in whatever order and keeps those that begin with the label and a dot, which a medium may
have done before. All three find the same entries, whatever other labels there are
(`childrenOf_eq_filter`, `Path.hasPrefix_childPrefix_eq`).

So they agree on the last position. It is the maximum of one list of positions, that of the paths
under the label: `Agreeing.map_position_childrenOf` for the children in a tree, where each node has
to be at the position of its path, and `lastPosition_map_text` for rows. A maximum does not depend
on the order of the list (`max?_eq_of_perm`).
-/

set_option autoImplicit false

namespace Playlists

/-! ## Positions under a label -/

/-- The largest of some numbers does not depend on their order. -/
theorem max?_eq_of_perm {l l' : List Nat} (h : l.Perm l') : l.max? = l'.max? := by
  refine Option.ext fun n => ?_
  rw [List.max?_eq_some_iff, List.max?_eq_some_iff, h.mem_iff]
  simp only [h.mem_iff]

/-- The last position among the rows of some paths is the largest of the paths under the label. -/
theorem lastPosition_map_text {paths : List Path} {label : String} (h : '.' ∉ label.toList)
    (hword : ∀ p ∈ paths, p.position < UInt64.size) :
    lastPosition (paths.map Path.text) label
      = .ok ((paths.filter (·.isUnder label)).map Path.position).max? := by
  have hkept : (paths.map Path.text).filter (Text.hasPrefix (Path.childPrefix label))
      = (paths.filter (·.isUnder label)).map Path.text := by
    rw [List.filter_map]
    exact congrArg _ (List.filter_congr fun p _ => Path.hasPrefix_childPrefix_eq h p)
  -- Each kept row is read back as the path that it was written from.
  have hread : ((paths.filter (·.isUnder label)).map Path.text).mapM Path.decode
      = .ok (paths.filter (·.isUnder label)) := by
    have hall := Failure.mapM_eq_ok (f := Path.decode ∘ Path.text) (g := id)
      (l := paths.filter (·.isUnder label)) fun p hp =>
        Path.decode_text (hword p (List.mem_filter.1 hp).1)
    rw [List.map_id] at hall
    rw [List.mapM_map]
    exact hall
  rw [lastPosition, hkept, hread]
  rfl

/-- Rows that can be read have one last position in whatever order they are given. -/
theorem lastPosition_eq_of_perm {rows rows' : List String} (h : rows.Perm rows')
    (hread : ∀ row ∈ rows, ∃ p, Path.decode row = .ok p) (label : String) :
    lastPosition rows label = lastPosition rows' label := by
  have hkept := h.filter (Text.hasPrefix (Path.childPrefix label))
  have hkept_read : ∀ row ∈ rows.filter (Text.hasPrefix (Path.childPrefix label)),
      ∃ p, Path.decode row = .ok p := fun row hrow => hread row (List.mem_filter.1 hrow).1
  rw [lastPosition, lastPosition, Rows.mapM_decode hkept_read,
    Rows.mapM_decode fun row hrow => hkept_read row (hkept.mem_iff.2 hrow)]
  exact congrArg Except.ok (max?_eq_of_perm ((hkept.filterMap _).map _))

namespace Tree

variable {t : Tree} {parent : String}

/-- The positions of the children are those of the paths under the label. -/
theorem Agreeing.map_position_childrenOf (ha : t.Agreeing) (h : '.' ∉ parent.toList) :
    (t.childrenOf parent).map (fun e => e.node.position)
      = (t.paths.filter (·.isUnder parent)).map Path.position := by
  rw [t.childrenOf_eq_filter h, paths, List.filter_map, List.map_map]
  refine List.map_congr_left fun e he => ?_
  exact congrArg (·.node.position) (ha e (List.mem_filter.1 he).1)

theorem Agreeing.maxChildPosition_eq (ha : t.Agreeing) (h : '.' ∉ parent.toList) :
    t.maxChildPosition parent = ((t.paths.filter (·.isUnder parent)).map Path.position).max? := by
  rw [maxChildPosition, ha.map_position_childrenOf h]

/-- The last position is that of a path under the label behind which there is no other. -/
theorem Agreeing.maxChildPosition_eq_some_iff (ha : t.Agreeing) (h : '.' ∉ parent.toList) {n : Nat} :
    t.maxChildPosition parent = some n ↔
      (∃ p ∈ t.paths, p.isUnder parent = true ∧ p.position = n) ∧
      ∀ p ∈ t.paths, p.isUnder parent = true → p.position ≤ n := by
  rw [ha.maxChildPosition_eq h, List.max?_eq_some_iff, List.mem_map, List.forall_mem_map]
  simp only [List.mem_filter, and_assoc, and_imp]

/-- The last position among the rows of a tree, in whatever order they are given, is that among the
children. -/
theorem Agreeing.lastPosition_eq (ha : t.Agreeing) (hword : t.Storable) (h : '.' ∉ parent.toList)
    {given : List String} (hperm : given.Perm t.rows) :
    lastPosition given parent = .ok (t.maxChildPosition parent) := by
  have hrows : t.rows = t.paths.map Path.text := by
    rw [paths, List.map_map]
    rfl
  have hread : ∀ row ∈ given, ∃ p, Path.decode row = .ok p := fun row hrow =>
    readable_toRows hword row (hperm.mem_iff.1 hrow)
  rw [lastPosition_eq_of_perm hperm hread, hrows, lastPosition_map_text h hword,
    ha.maxChildPosition_eq h]

/-- **The children of a playlist are found exactly, in whichever way they are looked for.** The scan
of a tree for a label without a dot gives the entries under that label, all of them and no others,
in the order of their rows. In a tree that passes its validation the last position among them is the
largest that is under the label; and it is the last position among the rows of the tree, its
positions being machine words, in whatever order these are given, whether a medium has been asked
for the rows that begin with the label before or not. -/
theorem childrenOf_exact {parent : String} (hdot : '.' ∉ parent.toList) (t : Tree) :
    (t.childrenOf parent = t.toList.filter (fun e => e.path.isUnder parent) ∧
      (t.childrenOf parent).Pairwise fun a b => a.path.text < b.path.text) ∧
    (t.validate = .ok () →
      (∀ n, t.maxChildPosition parent = some n ↔
        (∃ p ∈ t.paths, p.isUnder parent = true ∧ p.position = n) ∧
        ∀ p ∈ t.paths, p.isUnder parent = true → p.position ≤ n) ∧
      (t.Storable → ∀ given : List String, given.Perm t.rows →
        lastPosition given parent = .ok (t.maxChildPosition parent) ∧
        ∀ d : Dialect, lastPosition (given.filter (d.isUnder (Path.childPrefix parent))) parent
          = .ok (t.maxChildPosition parent))) := by
  have hchildren := t.childrenOf_eq_filter hdot
  refine ⟨⟨hchildren, ?_⟩, fun hvalid => ?_⟩
  · rw [hchildren]
    exact t.ascending.filter _
  have ha : t.Agreeing := validate_eq_ok_iff.1 hvalid
  refine ⟨fun n => ha.maxChildPosition_eq_some_iff hdot, fun hword given hperm => ?_⟩
  have hlast := ha.lastPosition_eq hword hdot hperm
  refine ⟨hlast, fun d => ?_⟩
  -- On rows that are paths every medium means the same by the beginning of a row.
  have hlead : given.filter (d.isUnder (Path.childPrefix parent))
      = given.filter (Text.hasPrefix (Path.childPrefix parent)) := by
    refine List.filter_congr fun row hrow => ?_
    obtain ⟨p, -, rfl⟩ := mem_toRows.1 (hperm.mem_iff.1 hrow)
    exact d.isUnder_text _ p
  rw [hlead, lastPosition_filter fun _ _ hunder => hunder, hlast]

/-- Labels that extend another one, by characters that come before a dot and after it. -/
def neighbourTree : Tree :=
  Rows.tree (.ofList ["Q.track.X.1", "Q.track.Z.10", "Q.track.Y.9", "Q-.track.A.70",
    "Q-Q.track.B.71", "Q2.track.C.72", "QA.track.D.73", "Q_.playlist.Q.74", "P.playlist.Q.75"])

theorem childrenOf_exact_neighbouring :
    '.' ∉ "Q".toList ∧ neighbourTree.validate = .ok () ∧ neighbourTree.Storable ∧
    (neighbourTree.childrenOf "Q").map Entry.key
      = ["Q.track.X.1", "Q.track.Y.9", "Q.track.Z.10"] ∧
    neighbourTree.maxChildPosition "Q" = some 10 ∧
    lastPosition neighbourTree.rows.reverse "Q" = .ok (some 10) ∧
    lastPosition (neighbourTree.rows.filter (Dialect.relational.isUnder (Path.childPrefix "Q"))) "Q"
      = .ok (some 10) := by
  have hdot : '.' ∉ "Q".toList := by decide
  have hvalid : neighbourTree.validate = .ok () := validate_eq_ok_iff.2 (Rows.agreeing_tree _)
  have hword : neighbourTree.Storable := Rows.storable_tree _
  obtain ⟨⟨hchildren, -⟩, hrest⟩ := childrenOf_exact hdot neighbourTree
  obtain ⟨hmax, hrows⟩ := hrest hvalid
  have hten : neighbourTree.maxChildPosition "Q" = some 10 :=
    (hmax 10).2 (by decide +kernel)
  refine ⟨hdot, hvalid, hword, ?_, hten, ?_, ?_⟩
  · rw [hchildren]
    decide +kernel
  · rw [(hrows hword _ (List.reverse_perm _)).1, hten]
  · rw [(hrows hword _ (.refl _)).2, hten]

end Tree

end Playlists
