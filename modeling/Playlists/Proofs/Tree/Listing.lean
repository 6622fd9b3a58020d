import Playlists.Proofs.Tree.Reordering

/-!
# `Proofs/Tree/Listing.lean` — the orders that are accepted

A new order of the children of a playlist has to list each of them once and nothing else. Nothing
checks that as such. The length is compared, and then the listed paths are taken out of the tree one
by one; a path that stands elsewhere, that is not there or that was taken out before ends it.

That is enough. Paths that can be taken out are children and differ from one another (`Picks`), and
as many of them as there are children are all of the children (`Picks.lists`). So an order is
accepted exactly if it is one of the children (`reorder_accepts`). Otherwise, and if at least the
length is right, there is a first path that cannot be taken out (`exists_first_unpicked`), and that
path decides the failure.
-/

set_option autoImplicit false

namespace Playlists.Tree

variable {t : Tree} {parent : Label} {ordered : List Path}

/-- The paths are children of `parent`, and none of them occurs twice. -/
def Picks (t : Tree) (parent : Label) (paths : List Path) : Prop :=
  paths.Nodup ∧ ∀ p ∈ paths, p ∈ t.paths ∧ p.root = parent

/-- The paths are all children of `parent`, each once, and nothing else. -/
def Lists (t : Tree) (parent : Label) (paths : List Path) : Prop :=
  paths.Nodup ∧ ∀ p, p ∈ paths ↔ p ∈ t.paths ∧ p.root = parent

/-- Why a path cannot be taken out as a child of `parent`: it stands under another label, or there
is no such entry, or none any more. -/
def takeFailure (parent : Label) (p : Path) : Failure :=
  if p.root = parent then .unknownPath p.text else .notAChild p.text parent.text

/-- `t'` is `t` with the children of `parent` at the positions one to n, in the order `ordered`. -/
structure Orders (t : Tree) (parent : Label) (ordered : List Path) (t' : Tree) : Prop where
  /-- Listed entries keep everything but the position, and they are played as they are listed. -/
  children : (t'.siblings parent.text).map Entry.path = Path.numbered ordered
  others : ∀ e, e.path.root ≠ parent → (e ∈ t'.toList ↔ e ∈ t.toList)
  size_eq : t'.size = t.size
  valid : t'.validate = .ok ()

/-! ## Lists of children -/

theorem lists_iff_perm :
    t.Lists parent ordered ↔ ordered.Perm (Path.siblings t.paths parent) := by
  constructor
  · intro h
    apply (List.perm_ext_iff_of_nodup h.1 (Path.nodup_siblings t.nodup_paths)).2
    intro p
    rw [h.2, Path.mem_siblings]
  · intro h
    constructor
    · exact h.nodup_iff.2 (Path.nodup_siblings t.nodup_paths)
    · intro p
      rw [h.mem_iff, Path.mem_siblings]

/-- The entries that a list of all children stands for. -/
theorem Lists.perm_siblings (ha : t.Agreeing) (h : t.Lists parent ordered) :
    (ordered.map Entry.ofPath).Perm (t.siblings parent.text) := by
  rw [siblings_eq_map ha]
  exact (lists_iff_perm.1 h).map Entry.ofPath

theorem Picks.mem_entries (ha : t.Agreeing) (h : t.Picks parent ordered) :
    ∀ e ∈ ordered.map Entry.ofPath, e ∈ t.toList ∧ e.path.root.text = parent.text := by
  intro e he
  obtain ⟨p, hp, rfl⟩ := List.mem_map.1 he
  obtain ⟨hpt, hroot⟩ := h.2 p hp
  exact ⟨ha.mem_iff.2 ⟨p, hpt, rfl⟩, congrArg Label.text hroot⟩

/-- As many children as there are, none of them twice, are all of them. -/
theorem Picks.lists (ha : t.Agreeing) (h : t.Picks parent ordered)
    (hlength : ordered.length = (t.childrenOf parent.text).length) : t.Lists parent ordered := by
  have hperm := perm_siblings_of_length (h.mem_entries ha)
    (by rw [map_path_ofPath]; exact h.1) (by rw [List.length_map]; exact hlength)
  have hpaths := hperm.map Entry.path
  rw [map_path_ofPath, map_path_siblings ha] at hpaths
  exact lists_iff_perm.2 hpaths

/-- Of paths that cannot all be taken out there is a first one. -/
theorem exists_first_unpicked (h : ¬ t.Picks parent ordered) :
    ∃ front p rest, ordered = front ++ p :: rest ∧ t.Picks parent front ∧
      (p.root ≠ parent ∨ p ∉ t.paths ∨ p ∈ front) := by
  -- By induction from the end: the first bad path of a list is that of its front, if the front has
  -- one.
  induction ordered using List.reverseRecOn with
  | nil => exact absurd ⟨List.nodup_nil, List.forall_mem_nil _⟩ h
  | append_singleton front p ih =>
    by_cases hfront : t.Picks parent front
    · refine ⟨front, p, [], rfl, hfront, ?_⟩
      by_contra hgood
      simp only [not_or, not_not] at hgood
      obtain ⟨hroot, hp, hnew⟩ := hgood
      apply h
      constructor
      · exact List.nodup_append.2 ⟨hfront.1, List.nodup_singleton p, by
          intro q hq r hr heq
          rw [List.mem_singleton.1 hr] at heq
          exact hnew (heq ▸ hq)⟩
      · intro q hq
        rcases List.mem_append.1 hq with hq | hq
        · exact hfront.2 q hq
        · rw [List.mem_singleton.1 hq]
          exact ⟨hp, hroot⟩
    · obtain ⟨first, q, rest, hsplit, hfirst, hbad⟩ := ih hfront
      refine ⟨first, q, rest ++ [p], ?_, hfirst, hbad⟩
      rw [hsplit, List.append_assoc, List.cons_append]

/-! ## Taking children out -/

theorem takeChild_eq_error {p : Path} (h : p.root ≠ parent ∨ p ∉ t.paths) :
    takeChild parent.text p t = .error (takeFailure parent p) t := by
  by_cases hroot : p.root = parent
  · have hunder : p.isUnder parent.text = true := beq_iff_eq.2 (congrArg Label.text hroot)
    have hmissing : t.find? p.text = none := by
      apply KeyedList.find?_eq_none_iff.2
      intro e he hkey
      apply h.resolve_left (not_not.2 hroot)
      rw [← Path.text_injective hkey]
      exact mem_paths_of_mem he
    rw [takeChild, takeFailure, if_pos hunder, if_pos hroot]
    dsimp only
    rw [Run.bind_of_ok (Run.get_eq t), hmissing]
    rfl
  · have hunder : ¬ p.isUnder parent.text = true :=
      fun htext => hroot (Label.ext_text (beq_iff_eq.1 htext))
    rw [takeChild, takeFailure, if_neg hunder, if_neg hroot]
    rfl

/-- The first path that cannot be taken out ends it. Those before it are taken out by then. -/
theorem mapM_takeChild_eq_error (ha : t.Agreeing) {front rest : List Path} {p : Path}
    (hfront : t.Picks parent front) (hp : p.root ≠ parent ∨ p ∉ t.paths ∨ p ∈ front) :
    (front ++ p :: rest).mapM (takeChild parent.text) t
      = .error (takeFailure parent p) (t.leaving front) := by
  have htaken := mapM_takeChild_eq_ok (hfront.mem_entries ha)
    (by rw [map_path_ofPath]; exact hfront.1)
  rw [map_path_ofPath] at htaken
  -- A repeated path was a child, but by now it has been taken out.
  have hmissing : p.root ≠ parent ∨ p ∉ (t.leaving front).paths := by
    rcases hp with hroot | habsent | htwice
    · exact .inl hroot
    · right
      intro hmem
      obtain ⟨e, he, rfl⟩ := List.mem_map.1 hmem
      exact habsent (mem_paths_of_mem (mem_leaving.1 he).1)
    · right
      intro hmem
      obtain ⟨e, he, rfl⟩ := List.mem_map.1 hmem
      exact (mem_leaving.1 he).2 htwice
  rw [List.mapM_append, Run.bind_of_ok htaken, List.mapM_cons]
  apply Run.bind_of_error
  exact Run.bind_of_error (takeChild_eq_error hmissing)

/-! ## Accepted and refused orders -/

/-- All children in any order can be given that order. -/
theorem Lists.orders (ha : t.Agreeing) (h : t.Lists parent ordered) :
    ∃ moves t', reorder parent.text ordered t = .ok moves t' ∧ t.Orders parent ordered t' := by
  have hdot := parent.dot_not_mem
  have hperm := h.perm_siblings ha
  have hsteps := rearranges_reordered hdot hperm
  have hok := reorder_eq_ok hdot hperm
  rw [map_path_ofPath] at hok
  refine ⟨_, _, hok, ?_, ?_, hsteps.size_eq.symm, validate_eq_ok_iff.2 (hsteps.agreeing ha)⟩
  · rw [siblings_reordered_self hdot hperm, List.map_map]
    exact map_path_numbered ordered
  · intro e hother
    have htext : e.path.root.text ≠ parent.text := fun heq => hother (Label.ext_text heq)
    rw [mem_reordered hdot hperm]
    constructor
    · rintro (⟨s, hs, rfl⟩ | ⟨he, -⟩)
      · exact absurd (root_of_mem_numbered hdot hperm hs) htext
      · exact he
    · intro he
      exact .inr ⟨he, htext⟩

theorem lists_of_reorder_eq_ok (ha : t.Agreeing) {moves : Moves} {t' : Tree}
    (h : reorder parent.text ordered t = .ok moves t') : t.Lists parent ordered := by
  obtain ⟨entries, rfl, hperm, -, -, -⟩ := of_reorder_eq_ok h
  apply lists_iff_perm.2
  rw [← map_path_siblings ha]
  exact hperm.map Entry.path

theorem reorder_eq_error_of_length
    (h : ordered.length ≠ (t.childrenOf parent.text).length) :
    reorder parent.text ordered t
      = .error (.orderLength parent.text ordered.length (t.childrenOf parent.text).length) t := by
  rw [reorder, Run.bind_of_ok (Run.get_eq t)]
  dsimp only
  rw [if_neg h]
  rfl

theorem reorder_eq_error_of_taking {failure : Failure} {t' : Tree}
    (hlength : ordered.length = (t.childrenOf parent.text).length)
    (h : ordered.mapM (takeChild parent.text) t = .error failure t') :
    reorder parent.text ordered t = .error failure t' := by
  rw [reorder, Run.bind_of_ok (Run.get_eq t)]
  dsimp only
  rw [if_pos hlength]
  exact Run.bind_of_error h

/-- **Exactly the lists of all children are accepted as an order.** The children get the positions
one to n as they are listed, and nothing else changes. A list of another length is refused for its
length; any other that is refused, is refused for the first path that is foreign, absent or
repeated. -/
theorem reorder_accepts (hvalid : t.validate = .ok ()) (parent : Label) (ordered : List Path) :
    ((∃ moves t', reorder parent.text ordered t = .ok moves t') ↔ t.Lists parent ordered) ∧
    (∀ moves t', reorder parent.text ordered t = .ok moves t' → t.Orders parent ordered t') ∧
    (ordered.length ≠ (t.childrenOf parent.text).length →
      ∃ failure, reorder parent.text ordered t = .error failure t ∧
        failure = .orderLength parent.text ordered.length (t.childrenOf parent.text).length ∧
        failure.category = .invalidOperation) ∧
    (ordered.length = (t.childrenOf parent.text).length → ¬ t.Lists parent ordered →
      ∃ front p rest failure, ordered = front ++ p :: rest ∧ t.Picks parent front ∧
        reorder parent.text ordered t = .error failure (t.leaving front) ∧
        (p.root ≠ parent ∧ failure = .notAChild p.text parent.text ∧
            failure.category = .unexpectedKeyType ∨
          p.root = parent ∧ (p ∉ t.paths ∨ p ∈ front) ∧ failure = .unknownPath p.text ∧
            failure.category = .unknownItem)) := by
  have ha := validate_eq_ok_iff.1 hvalid
  refine ⟨⟨?_, ?_⟩, ?_, ?_, ?_⟩
  · rintro ⟨moves, t', hok⟩
    exact lists_of_reorder_eq_ok ha hok
  · intro hlists
    obtain ⟨moves, t', hok, -⟩ := hlists.orders ha
    exact ⟨moves, t', hok⟩
  · intro moves t' hok
    obtain ⟨moves', t'', hok', horders⟩ := (lists_of_reorder_eq_ok ha hok).orders ha
    rw [hok] at hok'
    cases hok'
    exact horders
  · intro hlength
    exact ⟨_, reorder_eq_error_of_length hlength, rfl, rfl⟩
  · intro hlength hnot
    -- The length being right, the only way not to list the children is to fail at some path.
    have hunpicked : ¬ t.Picks parent ordered := fun hpicks => hnot (hpicks.lists ha hlength)
    obtain ⟨front, p, rest, rfl, hfront, hbad⟩ := exists_first_unpicked hunpicked
    have herror := reorder_eq_error_of_taking hlength (mapM_takeChild_eq_error ha hfront hbad)
    refine ⟨front, p, rest, _, rfl, hfront, herror, ?_⟩
    by_cases hroot : p.root = parent
    · rw [takeFailure, if_pos hroot]
      exact .inr ⟨hroot, hbad.resolve_left (not_not.2 hroot), rfl, rfl⟩
    · rw [takeFailure, if_neg hroot]
      exact .inl ⟨hroot, rfl, rfl⟩

/-- A playlist whose positions repeat and have gaps, that lists one item twice and nests a playlist
with the same items. -/
def looseRows : Rows :=
  .ofList ["Mix.track.A.1", "Mix.track.A.7", "Mix.track.B.7", "Mix.playlist.Q.10",
    "Q.track.A.1", "Q.track.B.7"]

/-- The name of that playlist. -/
def looseName : Label :=
  ⟨"Mix", by decide, List.all_eq_true.1 rfl⟩

/-- All of its children, from last to first. -/
def backwards : List Path :=
  ["Mix.playlist.Q.10", "Mix.track.B.7", "Mix.track.A.7", "Mix.track.A.1"].filterMap Path.decode?

/-- As many paths, but one of them twice. -/
def stuttering : List Path :=
  ["Mix.playlist.Q.10", "Mix.track.A.7", "Mix.track.A.7", "Mix.track.A.1"].filterMap Path.decode?

theorem reorder_accepts_backwards :
    looseRows.tree.validate = .ok () ∧ looseRows.tree.Lists looseName backwards ∧
      (∃ moves t', reorder looseName.text backwards looseRows.tree = .ok moves t' ∧
        looseRows.tree.Orders looseName backwards t') ∧
      stuttering.length = (looseRows.tree.childrenOf looseName.text).length ∧
      ¬ looseRows.tree.Lists looseName stuttering ∧
      ∃ failure left, reorder looseName.text stuttering looseRows.tree = .error failure left ∧
        failure.category = .unknownItem := by
  have hvalid : looseRows.tree.validate = .ok () := validate_eq_ok_iff.2 looseRows.agreeing_tree
  have hlists : looseRows.tree.Lists looseName backwards := by
    apply lists_iff_perm.2
    refine List.Perm.trans ?_ (Path.siblings_perm _ _).symm
    decide +kernel
  have hlength : stuttering.length = (looseRows.tree.childrenOf looseName.text).length := by
    decide +kernel
  have htwice : ¬ looseRows.tree.Lists looseName stuttering := by
    intro h
    have hnodup : ¬ stuttering.Nodup := by decide +kernel
    exact hnodup h.1
  obtain ⟨haccepts, horders, -, -⟩ := reorder_accepts hvalid looseName backwards
  obtain ⟨moves, t', hok⟩ := haccepts.2 hlists
  obtain ⟨front, p, rest, failure, hsplit, -, herror, hwhy⟩ :=
    (reorder_accepts hvalid looseName stuttering).2.2.2 hlength htwice
  refine ⟨hvalid, hlists, ⟨moves, t', hok, horders moves t' hok⟩, hlength, htwice, failure, _,
    herror, ?_⟩
  rcases hwhy with ⟨hroot, -⟩ | ⟨-, -, -, hcategory⟩
  · have hall : ∀ q ∈ stuttering, q.root = looseName := by decide +kernel
    exact absurd (hall p (hsplit ▸ List.mem_append_right front List.mem_cons_self)) hroot
  · exact hcategory

end Playlists.Tree
