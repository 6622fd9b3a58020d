import Mathlib.Order.WellFoundedSet
import Playlists.Proofs.Rows.Paths

/-!
# `Proofs/Nesting/Relation.lean` — which playlists nest which

A path of kind `playlist` points from the playlist it stands under to the one it names. Over all
paths of a playlist these are the edges of a graph on labels, `Nests`, and the shape of that graph
is what keeps a playlist playable and removable:

* nothing nests the playlist itself, and no playlist is nested in itself in the end (`Acyclic`);
* every path stands under the playlist or under a label that some path points at (`Rooted`).

`Rooted` looks one step back only. Where nestings do not go round in circles that is enough to get
back to the playlist itself: `Acyclic.reachable`.
-/

set_option autoImplicit false

namespace Playlists

open Relation

/-- The path is an entry for the nested playlist `label`. -/
def Path.PointsAt (p : Path) (label : String) : Prop :=
  p.kind = .playlist ∧ p.item.text = label

/-- Some path under `outer` points at `inner`. -/
def Nests (paths : List Path) (outer inner : String) : Prop :=
  ∃ p ∈ paths, p.root.text = outer ∧ p.PointsAt inner

/-- No label is nested in itself, however deep. -/
def Acyclic (paths : List Path) : Prop :=
  ∀ label, ¬ TransGen (Nests paths) label label

/-- Every path stands under `playlist` or under a label that some path points at. -/
def Rooted (playlist : String) (paths : List Path) : Prop :=
  ∀ p ∈ paths, p.root.text = playlist ∨ ∃ q ∈ paths, q.PointsAt p.root.text

instance (p : Path) (label : String) : Decidable (p.PointsAt label) :=
  inferInstanceAs (Decidable (p.kind = .playlist ∧ p.item.text = label))

instance (playlist : String) (paths : List Path) : Decidable (Rooted playlist paths) :=
  inferInstanceAs (Decidable (∀ p ∈ paths, p.root.text = playlist ∨
    ∃ q ∈ paths, q.PointsAt p.root.text))

theorem Nests.mono {paths paths' : List Path} (h : ∀ p ∈ paths, p ∈ paths') {a b : String}
    (hab : Nests paths a b) : Nests paths' a b := by
  obtain ⟨p, hp, hroot, hpoint⟩ := hab
  exact ⟨p, h p hp, hroot, hpoint⟩

theorem Acyclic.anti {paths paths' : List Path} (ha : Acyclic paths)
    (h : ∀ a b, Nests paths' a b → Nests paths a b) : Acyclic paths' :=
  fun label hcycle => ha label (TransGen.mono h _ _ hcycle)

/-- Where every path points at a label of a higher rank no nesting comes back to its start. -/
theorem Acyclic.of_rank {paths : List Path} (rank : String → Nat)
    (h : ∀ p ∈ paths, p.kind = .playlist → rank p.root.text < rank p.item.text) :
    Acyclic paths := by
  have hclimb : ∀ a b, TransGen (Nests paths) a b → rank a < rank b := by
    intro a b hab
    induction hab with
    | single hstep =>
      obtain ⟨p, hp, rfl, hkind, rfl⟩ := hstep
      exact h p hp hkind
    | tail _ hstep ih =>
      obtain ⟨p, hp, rfl, hkind, rfl⟩ := hstep
      exact Nat.lt_trans ih (h p hp hkind)
  intro label hcycle
  exact Nat.lt_irrefl _ (hclimb label label hcycle)

/-! ## One more edge -/

/-- A way along the old edges and one new edge either needs the new one or does not. -/
theorem transGen_or_through {α : Type} {r r' : α → α → Prop} {a b : α}
    (h : ∀ x y, r' x y → r x y ∨ x = a ∧ y = b) {x y : α} (hxy : TransGen r' x y) :
    TransGen r x y ∨ ReflTransGen r x a ∧ ReflTransGen r b y := by
  induction hxy with
  | single hstep =>
    rcases h _ _ hstep with hold | ⟨rfl, rfl⟩
    · exact .inl (.single hold)
    · exact .inr ⟨.refl, .refl⟩
  | tail _ hstep ih =>
    rcases h _ _ hstep with hold | ⟨rfl, rfl⟩
    · rcases ih with hpath | ⟨hxa, hby⟩
      · exact .inl (hpath.tail hold)
      · exact .inr ⟨hxa, hby.tail hold⟩
    -- What lies between the first and the last use of the new edge can be cut out.
    · rcases ih with hpath | ⟨hxa, -⟩
      · exact .inr ⟨hpath.to_reflTransGen, .refl⟩
      · exact .inr ⟨hxa, .refl⟩

/-- A new edge closes no circle if there is no way back from its end to its start. -/
theorem Acyclic.add_edge {paths paths' : List Path} {a b : String} (ha : Acyclic paths)
    (h : ∀ x y, Nests paths' x y → Nests paths x y ∨ x = a ∧ y = b)
    (hback : ¬ ReflTransGen (Nests paths) b a) : Acyclic paths' := by
  intro label hcycle
  rcases transGen_or_through h hcycle with hold | ⟨hla, hbl⟩
  · exact ha label hold
  · exact hback (hbl.trans hla)

/-! ## Back to the playlist -/

/-- The labels that paths stand under are finitely many, so one can go back only so far. -/
theorem Acyclic.wellFoundedOn_roots {paths : List Path} (ha : Acyclic paths) :
    {label | ∃ p ∈ paths, p.root.text = label}.WellFoundedOn (TransGen (Nests paths)) := by
  have hirrefl : IsStrictOrder String (TransGen (Nests paths)) :=
    { irrefl := ha, trans := fun _ _ _ => TransGen.trans }
  have hfinite : {label | ∃ p ∈ paths, p.root.text = label}.Finite :=
    (paths.map fun p => p.root.text).finite_toSet.subset fun label ⟨p, hp, hlabel⟩ =>
      List.mem_map.2 ⟨p, hp, hlabel⟩
  exact hfinite.wellFoundedOn

/-- Going back step by step along the paths that point at a label ends at the playlist. -/
theorem Acyclic.reachable {playlist : String} {paths : List Path} (ha : Acyclic paths)
    (hr : Rooted playlist paths) {p : Path} (hp : p ∈ paths) :
    ReflTransGen (Nests paths) playlist p.root.text := by
  have hlabel : p.root.text ∈ {label | ∃ p ∈ paths, p.root.text = label} := ⟨p, hp, rfl⟩
  -- By induction on what nests the label. Going back ends, and it can only end at `playlist`.
  refine ha.wellFoundedOn_roots.induction hlabel ?_
  rintro _ ⟨q, hq, rfl⟩ ih
  rcases hr q hq with hroot | ⟨q', hq', hpoint⟩
  · rw [hroot]
  · have hstep : Nests paths q'.root.text q.root.text := ⟨q', hq', rfl, hpoint⟩
    exact (ih _ ⟨q', hq', rfl⟩ (.single hstep)).tail hstep

end Playlists
