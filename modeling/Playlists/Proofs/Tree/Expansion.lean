import Playlists.Proofs.Tree.Walk

/-!
# `Proofs/Tree/Expansion.lean` — what a playlist sounds like next to what it nests

If nested playlists were heard in place, a playlist would sound like its children one after another,
each nested one as it is heard on its own (`expanded`). That is not so. A walk opens a playlist once
in all, and not only once on the way down to it. A playlist that is mentioned twice is therefore
missing at the second mention (`playbackOrder_ne_expanded_of_twice`), and so is what both of two
playlists nest from the second of them.

Where nestings do not go round in circles this is all that is missing. What a walk hears inside a
playlist that it opens is what is heard of the playlist on its own less the tracks under labels that
were open before (`Walks.inside_eq`); so the walk as a whole hears the first mention of each track
and no other (`Walks.map_node_eq`).
-/

set_option autoImplicit false

namespace Playlists.Tree

open Relation

/-- The children of a playlist, with all that is heard of a nested one in its place. -/
def expanded (t : Tree) (root : String) : List Node :=
  (t.siblings root).flatMap fun e =>
    match e.node.kind with
    | .track => [e.node]
    | .playlist => t.playbackOrder e.node.id

/-- What an entry brings to a walk: of a playlist, the tracks under labels that are not open. -/
def brings (t : Tree) (opened : List String) (e : Entry) : List Node :=
  match e.node.kind with
  | .track => [e.node]
  | .playlist => (t.playbackOrder e.node.id).filter fun n => n.parentId ∉ opened

/-- What the open labels nest is open, as far as the pending entries lead there. -/
def Closed (t : Tree) (opened : List String) (pending : List Entry) : Prop :=
  ∀ l ∈ opened, t.Leads pending l → ∀ m, Nests t.paths l m → m ∈ opened

variable {t : Tree} {opened opened' middle : List String} {pending rest heard inside : List Entry}
  {e : Entry}

theorem brings_of_track (hkind : e.node.kind = .track) : t.brings opened e = [e.node] := by
  rw [brings, hkind]

theorem brings_of_playlist (hkind : e.node.kind = .playlist) : t.brings opened e
    = (t.playbackOrder e.node.id).filter fun n => n.parentId ∉ opened := by
  rw [brings, hkind]

/-! ## Open labels -/

theorem Closed.ready (h : t.Closed opened pending) : t.Ready opened pending :=
  fun l hl hleads m hnest => .inl (h l hl hleads m hnest)

theorem Closed.anti {pending' : List Entry} (hleads : ∀ l, t.Leads pending' l → t.Leads pending l)
    (h : t.Closed opened pending) : t.Closed opened pending' :=
  fun l hl hleads' => h l hl (hleads l hleads')

theorem Closed.tail (h : t.Closed opened (e :: rest)) : t.Closed opened rest :=
  h.anti fun _ => .mono (List.subset_cons_self e rest)

theorem Closed.union {hidden more : List String} (h : t.Closed opened pending)
    (h' : t.Closed hidden pending) (hmore : ∀ l, l ∈ more ↔ l ∈ opened ∨ l ∈ hidden) :
    t.Closed more pending := by
  intro l hl hleads m hnest
  rw [hmore] at hl ⊢
  exact hl.imp (h l · hleads m hnest) (h' l · hleads m hnest)

/-- Below an open label everything is open. -/
theorem Closed.mem_of_way (h : t.Closed opened pending) (he : e ∈ pending)
    (hkind : e.node.kind = .playlist) (hopen : e.node.id ∈ opened) {l : String}
    (hway : ReflTransGen (Nests t.paths) e.node.id l) : l ∈ opened := by
  induction hway with
  | refl => exact hopen
  | tail hfront hnest ih => exact h _ ih ⟨e, he, hkind, hfront⟩ _ hnest

theorem closed_self (ha : t.Agreeing) (hacyclic : Acyclic t.paths) {root : String}
    (hroot : '.' ∉ root.toList) : t.Closed [root] (t.siblings root) := by
  intro l hl hleads
  obtain ⟨e, he, hkind, hway⟩ := hleads
  obtain ⟨he, hunder⟩ := (mem_siblings hroot).1 he
  rw [List.mem_singleton.1 hl] at hway
  exact absurd (TransGen.head' (hunder ▸ ha.nests he hkind) hway) (hacyclic root)

/-- A playlist that is opened among others. -/
structure Opens (t : Tree) (opened : List String) (e : Entry) (rest : List Entry) : Prop where
  mem : e ∈ t.toList
  playlist : e.node.kind = .playlist
  new : e.node.id ∉ opened
  closed : t.Closed opened (e :: rest)

theorem Opens.leads (ha : t.Agreeing) (h : t.Opens opened e rest) {l : String}
    (hleads : t.Leads (t.siblings e.node.id) l) : t.Leads (e :: rest) l :=
  (hleads.of_siblings ha h.mem h.playlist List.mem_cons_self).2

theorem Opens.closed_inside (ha : t.Agreeing) (hacyclic : Acyclic t.paths)
    (h : t.Opens opened e rest) : t.Closed (e.node.id :: opened) (t.siblings e.node.id) := by
  apply (closed_self ha hacyclic (ha.dot_not_mem_id h.mem)).union
    (h.closed.anti fun l => h.leads ha)
  intro l
  rw [List.mem_cons, List.mem_singleton]

/-- Opening a playlist opens all that it nests, and nothing else. -/
theorem Opens.mem_middle_iff (ha : t.Agreeing) (hacyclic : Acyclic t.paths)
    (h : t.Opens opened e rest)
    (hinside : t.Walks (e.node.id :: opened) (t.siblings e.node.id) inside middle) {l : String} :
    l ∈ middle ↔ l ∈ opened ∨ ReflTransGen (Nests t.paths) e.node.id l := by
  rw [hinside.mem_opened_iff ha (t.siblings_subset _) (h.closed_inside ha hacyclic).ready,
    ← mem_or_leads_iff ha (ha.dot_not_mem_id h.mem), List.mem_cons, List.mem_singleton,
    or_assoc, or_left_comm]

theorem Opens.closed_outside (ha : t.Agreeing) (hacyclic : Acyclic t.paths)
    (h : t.Opens opened e rest)
    (hinside : t.Walks (e.node.id :: opened) (t.siblings e.node.id) inside middle) :
    t.Closed middle rest := by
  intro l hl hleads m hnest
  rw [h.mem_middle_iff ha hacyclic hinside] at hl ⊢
  rcases hl with hopen | hway
  · exact .inl (h.closed.tail l hopen hleads m hnest)
  · exact .inr (hway.tail hnest)

theorem Opens.way_of_mem (ha : t.Agreeing) (hacyclic : Acyclic t.paths)
    (h : t.Opens opened e rest)
    (hinside : t.Walks (e.node.id :: opened) (t.siblings e.node.id) inside middle) {f : Entry}
    (hf : f ∈ inside) : ReflTransGen (Nests t.paths) e.node.id f.path.root.text := by
  obtain ⟨hroot, hnotBefore⟩ := hinside.opened_inside ha h.mem h.new hf
  rw [h.mem_middle_iff ha hacyclic hinside] at hroot
  exact hroot.resolve_left hnotBefore

/-! ## What is heard where more is open -/

/-- With more labels open the same is heard, less the tracks under those labels. The induction is on
the walk where fewer are open, and the other one is followed alongside. -/
theorem Walks.filter_eq (ha : t.Agreeing) (hacyclic : Acyclic t.paths) {hidden : List String}
    (h : t.Walks opened pending heard opened') (hsub : pending ⊆ t.toList)
    (hclosed : t.Closed opened pending) (hhidden : t.Closed hidden pending)
    (hroots : ∀ e ∈ pending, e.path.root.text ∉ hidden) {more more' : List String}
    {heard' : List Entry} (hmore : ∀ l, l ∈ more ↔ l ∈ opened ∨ l ∈ hidden)
    (h' : t.Walks more pending heard' more') :
    heard' = heard.filter fun e => e.path.root.text ∉ hidden := by
  induction h generalizing more more' heard' with
  | done =>
    cases h'
    rfl
  | @track opened opened' e rest heard hkind hrest ih =>
    obtain ⟨-, hsub⟩ := List.cons_subset.1 hsub
    obtain ⟨hroot, hroots⟩ := List.forall_mem_cons.1 hroots
    cases h' with
    | track _ htail =>
      rw [List.filter_cons, if_pos (decide_eq_true hroot),
        ih hsub hclosed.tail hhidden.tail hroots hmore htail]
    | skip hkind' => cases hkind.symm.trans hkind'
    | enter hkind' => cases hkind.symm.trans hkind'
  | @skip opened opened' e rest heard hkind hopen hrest ih =>
    obtain ⟨-, hsub⟩ := List.cons_subset.1 hsub
    obtain ⟨-, hroots⟩ := List.forall_mem_cons.1 hroots
    cases h' with
    | track hkind' => cases hkind.symm.trans hkind'
    | skip _ _ htail => exact ih hsub hclosed.tail hhidden.tail hroots hmore htail
    | enter _ hnew => exact absurd ((hmore _).2 (.inl hopen)) hnew
  | @enter opened middle opened' e rest inside heard hkind hnew hinside hrest ihinside ihrest =>
    obtain ⟨he, hsub⟩ := List.cons_subset.1 hsub
    obtain ⟨-, hroots⟩ := List.forall_mem_cons.1 hroots
    have hopens : t.Opens opened e rest := ⟨he, hkind, hnew, hclosed⟩
    have hmiddle := fun l => hopens.mem_middle_iff ha hacyclic hinside (l := l)
    have houtside := hopens.closed_outside ha hacyclic hinside
    rw [List.filter_append]
    cases h' with
    | track hkind' => cases hkind.symm.trans hkind'
    | skip _ hopen htail =>
      -- The playlist is open because it is hidden, and so is all that it nests.
      have hbelow := fun l => hhidden.mem_of_way List.mem_cons_self hkind
        (((hmore _).1 hopen).resolve_left hnew) (l := l)
      have hnone : inside.filter (fun f => f.path.root.text ∉ hidden) = [] := by
        apply List.filter_eq_nil_iff.2
        intro f hf hshown
        exact of_decide_eq_true hshown (hbelow _ (hopens.way_of_mem ha hacyclic hinside hf))
      rw [hnone, List.nil_append]
      refine ihrest hsub houtside hhidden.tail hroots (fun l => ?_) htail
      rw [hmore, hmiddle, or_assoc]
      exact or_congr_right (or_iff_right_of_imp (hbelow l)).symm
    | enter _ hnew' hinside' htail =>
      have hopens' : t.Opens _ e rest := ⟨he, hkind, hnew', hclosed.union hhidden hmore⟩
      refine congrArg₂ _ ?_ ?_
      · refine ihinside (t.siblings_subset _) (hopens.closed_inside ha hacyclic)
          (hhidden.anti fun l => hopens.leads ha) ?_ (fun l => ?_) hinside'
        · intro f hf
          rw [((mem_siblings (ha.dot_not_mem_id he)).1 hf).2]
          exact fun hopen => hnew' ((hmore _).2 (.inr hopen))
        · rw [List.mem_cons, List.mem_cons, hmore, or_assoc]
      · refine ihrest hsub houtside hhidden.tail hroots (fun l => ?_) htail
        rw [hopens'.mem_middle_iff ha hacyclic hinside', hmore, hmiddle, or_right_comm]

/-! ## What is heard of a nested playlist -/

theorem Agreeing.parentId (ha : t.Agreeing) (he : e ∈ t.toList) :
    e.node.parentId = e.path.root.text :=
  congrArg (·.node.parentId) (ha e he)

/-- A node is heard from every playlist that leads to its parent. -/
theorem mem_playbackOrder_iff (ha : t.Agreeing) {root : String} (hroot : '.' ∉ root.toList)
    {n : Node} : n ∈ t.playbackOrder root ↔
      (∃ e ∈ t.toList, e.node = n ∧ e.path.kind = .track) ∧
        ReflTransGen (Nests t.paths) root n.parentId := by
  obtain ⟨heard, opened, hwalk, heq⟩ := t.exists_walks_playbackOrder root
  rw [heq, List.mem_map]
  constructor
  · rintro ⟨e, he, rfl⟩
    obtain ⟨he, hkind, hway⟩ := (hwalk.mem_heard_root_iff ha hroot).1 he
    rw [ha.parentId he]
    exact ⟨⟨e, he, rfl, hkind⟩, hway⟩
  · rintro ⟨⟨e, he, rfl, hkind⟩, hway⟩
    rw [ha.parentId he] at hway
    exact ⟨e, (hwalk.mem_heard_root_iff ha hroot).2 ⟨he, hkind, hway⟩, rfl⟩

/-- Inside a playlist that a walk opens, what it brings to the walk is heard. -/
theorem Opens.map_node_inside (ha : t.Agreeing) (hacyclic : Acyclic t.paths)
    (h : t.Opens opened e rest)
    (hinside : t.Walks (e.node.id :: opened) (t.siblings e.node.id) inside middle) :
    inside.map Entry.node = t.brings opened e := by
  have hdot := ha.dot_not_mem_id h.mem
  obtain ⟨own, last, hown, heq⟩ := t.exists_walks_playbackOrder e.node.id
  have hroots : ∀ f ∈ t.siblings e.node.id, f.path.root.text ∉ opened := by
    intro f hf
    rw [((mem_siblings hdot).1 hf).2]
    exact h.new
  have hinside' := hown.filter_eq ha hacyclic (t.siblings_subset _)
    (closed_self ha hacyclic hdot) (h.closed.anti fun l => h.leads ha) hroots
    (fun l => by rw [List.mem_cons, List.mem_singleton]) hinside
  rw [brings_of_playlist h.playlist, heq, List.filter_map, hinside']
  refine congrArg _ (List.filter_congr fun f hf => ?_)
  rw [Function.comp_apply, ha.parentId ((hown.mem_heard_root_iff ha hdot).1 hf).1]

theorem nodup_brings (ha : t.Agreeing) (he : e ∈ t.toList) (opened : List String) :
    (t.brings opened e).Nodup := by
  cases hkind : e.node.kind with
  | track =>
    rw [brings_of_track hkind]
    exact List.nodup_singleton _
  | playlist =>
    rw [brings_of_playlist hkind]
    exact (nodup_playbackOrder ha (ha.dot_not_mem_id he)).filter _

theorem mem_brings_of_playlist (hkind : e.node.kind = .playlist) {n : Node} :
    n ∈ t.brings opened e ↔ n ∈ t.playbackOrder e.node.id ∧ n.parentId ∉ opened := by
  rw [brings_of_playlist hkind, List.mem_filter, decide_eq_true_iff]

/-! ## First mentions -/

theorem eraseDups_of_nodup {l : List Node} (h : l.Nodup) : l.eraseDups = l := by
  induction l with
  | nil => exact List.eraseDups_nil
  | cons n rest ih =>
    obtain ⟨hnew, hrest⟩ := List.nodup_cons.1 h
    have hothers : rest.filter (fun m => !m == n) = rest := by
      apply List.filter_eq_self.2
      intro m hm
      rw [Bool.not_eq_true', beq_eq_false_iff_ne]
      exact fun heq => hnew (heq ▸ hm)
    rw [List.eraseDups_cons, hothers, ih hrest]

/-- What an open playlist has brought is what entries no longer bring once it is open. -/
theorem Opens.brings_eq (ha : t.Agreeing) (hacyclic : Acyclic t.paths) (h : t.Opens opened e rest)
    (hinside : t.Walks (e.node.id :: opened) (t.siblings e.node.id) inside middle) {f : Entry}
    (hf : f ∈ t.toList) (hroot : f.path.root.text ∈ opened) :
    (t.brings opened f).filter (fun n => !(t.brings opened e).elem n) = t.brings middle f := by
  have hbrought : ∀ n, n ∈ t.brings opened e ↔
      n ∈ t.playbackOrder e.node.id ∧ n.parentId ∉ opened :=
    fun n => mem_brings_of_playlist h.playlist
  -- A track of an open label is not below the opened playlist; a playlist loses what is.
  cases hkind : f.node.kind with
  | track =>
    have hnew : f.node ∉ t.brings opened e := by
      intro hmem
      exact ((hbrought _).1 hmem).2 (ha.parentId hf ▸ hroot)
    rw [brings_of_track hkind, brings_of_track hkind]
    apply List.filter_eq_self.2
    intro n hn
    rw [List.mem_singleton.1 hn, Bool.not_eq_true', ← Bool.not_eq_true, List.elem_iff]
    exact hnew
  | playlist =>
    rw [brings_of_playlist hkind, brings_of_playlist hkind, List.filter_filter]
    refine List.filter_congr fun n hn => ?_
    obtain ⟨htrack, -⟩ := (mem_playbackOrder_iff ha (ha.dot_not_mem_id hf)).1 hn
    have hway := mem_playbackOrder_iff ha (ha.dot_not_mem_id h.mem) (n := n)
    rw [and_iff_right htrack] at hway
    have hopen := h.mem_middle_iff ha hacyclic hinside (l := n.parentId)
    rw [Bool.eq_iff_iff, Bool.and_eq_true, Bool.not_eq_true', ← Bool.not_eq_true, List.elem_iff,
      decide_eq_true_iff, decide_eq_true_iff, hbrought, hway, hopen]
    tauto

/-- **A walk hears the first mention of each track and no other.** -/
theorem Walks.map_node_eq (ha : t.Agreeing) (hacyclic : Acyclic t.paths)
    (h : t.Walks opened pending heard opened') (hsub : pending ⊆ t.toList)
    (hclosed : t.Closed opened pending) (hroots : ∀ e ∈ pending, e.path.root.text ∈ opened)
    (hnodup : pending.Nodup) :
    heard.map Entry.node = (pending.flatMap (t.brings opened)).eraseDups := by
  induction h with
  | done => exact List.eraseDups_nil.symm
  | @track opened opened' e rest heard hkind hrest ih =>
    obtain ⟨hfirst, hnodup⟩ := List.nodup_cons.1 hnodup
    obtain ⟨he, hsub⟩ := List.cons_subset.1 hsub
    obtain ⟨hroot, hroots⟩ := List.forall_mem_cons.1 hroots
    -- No later entry brings this track: not a track of its own, nor a playlist that is not open.
    have hothers : (rest.flatMap (t.brings opened)).filter (fun n => !n == e.node)
        = rest.flatMap (t.brings opened) := by
      apply List.filter_eq_self.2
      intro n hn
      rw [Bool.not_eq_true', beq_eq_false_iff_ne]
      rintro rfl
      obtain ⟨f, hf, hn⟩ := List.mem_flatMap.1 hn
      cases hfkind : f.node.kind with
      | track =>
        rw [brings_of_track hfkind, List.mem_singleton] at hn
        exact hfirst (ha.eq_of_node_eq he (hsub hf) hn ▸ hf)
      | playlist =>
        rw [mem_brings_of_playlist hfkind, ha.parentId he] at hn
        exact hn.2 hroot
    rw [List.map_cons, ih hsub hclosed.tail hroots hnodup,
      List.flatMap_cons, brings_of_track hkind, List.singleton_append, List.eraseDups_cons, hothers]
  | @skip opened opened' e rest heard hkind hopen hrest ih =>
    obtain ⟨he, hsub⟩ := List.cons_subset.1 hsub
    -- Everything an open playlist could bring is open already.
    have hnothing : t.brings opened e = [] := by
      apply List.eq_nil_iff_forall_not_mem.2
      intro n hn
      obtain ⟨hn, hnew⟩ := (mem_brings_of_playlist hkind).1 hn
      exact hnew (hclosed.mem_of_way List.mem_cons_self hkind hopen
        ((mem_playbackOrder_iff ha (ha.dot_not_mem_id he)).1 hn).2)
    rw [ih hsub hclosed.tail (List.forall_mem_cons.1 hroots).2 (List.nodup_cons.1 hnodup).2,
      List.flatMap_cons, hnothing, List.nil_append]
  | @enter opened middle opened' e rest inside heard hkind hnew hinside hrest ihinside ihrest =>
    obtain ⟨he, hsub⟩ := List.cons_subset.1 hsub
    obtain ⟨-, hroots⟩ := List.forall_mem_cons.1 hroots
    have hopens : t.Opens opened e rest := ⟨he, hkind, hnew, hclosed⟩
    have hopened : opened ⊆ middle := fun l hl => hinside.opened_subset (.tail _ hl)
    rw [List.map_append, hopens.map_node_inside ha hacyclic hinside,
      ihrest hsub (hopens.closed_outside ha hacyclic hinside)
        (fun f hf => hopened (hroots f hf)) (List.nodup_cons.1 hnodup).2,
      List.flatMap_cons, List.eraseDups_append, eraseDups_of_nodup (nodup_brings ha he opened),
      List.removeAll, List.filter_flatMap]
    refine congrArg (fun l => t.brings opened e ++ List.eraseDups l) (List.flatMap_congr ?_)
    intro f hf
    exact (hopens.brings_eq ha hacyclic hinside (hsub hf) (hroots f hf)).symm

/-- From its start on a walk leaves nothing of a nested playlist out. -/
theorem brings_of_mem_siblings (ha : t.Agreeing) (hacyclic : Acyclic t.paths) {root : String}
    (hroot : '.' ∉ root.toList) (he : e ∈ t.siblings root) (hkind : e.node.kind = .playlist) :
    t.brings [root] e = t.playbackOrder e.node.id := by
  obtain ⟨he, hunder⟩ := (mem_siblings hroot).1 he
  rw [brings_of_playlist hkind]
  apply List.filter_eq_self.2
  intro n hn
  have hway := ((mem_playbackOrder_iff ha (ha.dot_not_mem_id he)).1 hn).2
  rw [decide_eq_true_iff, List.mem_singleton]
  intro heq
  rw [heq] at hway
  exact hacyclic root (TransGen.head' (hunder ▸ ha.nests he hkind) hway)

theorem expanded_eq (ha : t.Agreeing) (hacyclic : Acyclic t.paths) {root : String}
    (hroot : '.' ∉ root.toList) :
    t.expanded root = (t.siblings root).flatMap (t.brings [root]) := by
  apply List.flatMap_congr
  intro e he
  cases hkind : e.node.kind with
  | track => exact (brings_of_track hkind).symm
  | playlist => exact (brings_of_mem_siblings ha hacyclic hroot he hkind).symm

theorem playbackOrder_eq_eraseDups (ha : t.Agreeing) (hacyclic : Acyclic t.paths) {root : String}
    (hroot : '.' ∉ root.toList) : t.playbackOrder root = (t.expanded root).eraseDups := by
  obtain ⟨heard, opened, hwalk, heq⟩ := t.exists_walks_playbackOrder root
  rw [heq, expanded_eq ha hacyclic hroot]
  apply hwalk.map_node_eq ha hacyclic (t.siblings_subset root) (closed_self ha hacyclic hroot) _
    (t.siblings_nodup hroot)
  intro e he
  rw [((mem_siblings hroot).1 he).2]
  exact List.mem_cons_self

/-- A track stands under the root, and no playlist below brings anything from there. -/
theorem disjoint_brings_of_track (ha : t.Agreeing) {root : String} (hroot : '.' ∉ root.toList)
    {f : Entry} (he : e ∈ t.siblings root) (hf : f ∈ t.siblings root)
    (hkind : e.node.kind = .track) (hne : e ≠ f) :
    List.Disjoint (t.brings [root] e) (t.brings [root] f) := by
  obtain ⟨he, hunder⟩ := (mem_siblings hroot).1 he
  rw [brings_of_track hkind, List.singleton_disjoint]
  cases hfkind : f.node.kind with
  | track =>
    rw [brings_of_track hfkind, List.mem_singleton]
    exact fun heq => hne (ha.eq_of_node_eq he (t.siblings_subset root hf) heq)
  | playlist =>
    rw [mem_brings_of_playlist hfkind, ha.parentId he, hunder]
    exact fun hbrought => hbrought.2 List.mem_cons_self

/-- The children bring different tracks if no two of the nested playlists have one in common. -/
theorem nodup_expanded_iff (ha : t.Agreeing) (hacyclic : Acyclic t.paths) {root : String}
    (hroot : '.' ∉ root.toList) : (t.expanded root).Nodup ↔
      (t.siblings root).Pairwise fun e f => e.node.kind = .playlist → f.node.kind = .playlist →
        List.Disjoint (t.playbackOrder e.node.id) (t.playbackOrder f.node.id) := by
  have hbrings := fun {e} => brings_of_mem_siblings (e := e) ha hacyclic hroot
  rw [expanded_eq ha hacyclic hroot, List.nodup_flatMap]
  constructor
  · rintro ⟨-, hdisjoint⟩
    refine hdisjoint.imp_of_mem fun he hf hdisjoint hekind hfkind => ?_
    rw [← hbrings he hekind, ← hbrings hf hfkind]
    exact hdisjoint
  · intro hplaylists
    refine ⟨fun e he => nodup_brings ha (t.siblings_subset root he) _, ?_⟩
    refine ((t.siblings_nodup hroot).and hplaylists).imp_of_mem ?_
    intro e f he hf hdiffer
    obtain ⟨hne, hdisjoint⟩ := hdiffer
    cases hekind : e.node.kind with
    | track => exact disjoint_brings_of_track ha hroot he hf hekind hne
    | playlist =>
      cases hfkind : f.node.kind with
      | track => exact (disjoint_brings_of_track ha hroot hf he hfkind hne.symm).symm
      | playlist =>
        rw [Function.onFun, hbrings he hekind, hbrings hf hfkind]
        exact hdisjoint hekind hfkind

/-- A playlist that is mentioned twice and not silent is not heard in place at both mentions. -/
theorem playbackOrder_ne_expanded_of_twice (ha : t.Agreeing) (hacyclic : Acyclic t.paths)
    {root : String} (hroot : '.' ∉ root.toList) {f : Entry} (he : e ∈ t.siblings root)
    (hf : f ∈ t.siblings root) (hne : e ≠ f) (hekind : e.node.kind = .playlist)
    (hfkind : f.node.kind = .playlist) (hid : e.node.id = f.node.id) {n : Node}
    (hn : n ∈ t.playbackOrder e.node.id) : t.playbackOrder root ≠ t.expanded root := by
  intro hsame
  have hnodup := nodup_playbackOrder ha hroot
  rw [hsame, expanded_eq ha hacyclic hroot, List.nodup_flatMap] at hnodup
  have hsymm : Std.Symm (Function.onFun List.Disjoint (t.brings [root])) :=
    ⟨fun _ _ hdisjoint => hdisjoint.symm⟩
  have hdisjoint := hnodup.2.forall he hf hne
  rw [Function.onFun, brings_of_mem_siblings ha hacyclic hroot he hekind,
    brings_of_mem_siblings ha hacyclic hroot hf hfkind, ← hid] at hdisjoint
  exact hdisjoint hn hn

/-- **Nested playlists are heard in their place, but nothing is heard a second time.** Where
nestings do not go round in circles, a playlist sounds like its children one after another, less
everything but the first mention of each track. So the nested playlists sound as they do on their
own exactly if no two of them have a track in common; a playlist that is nested twice has all of
them in common with itself. -/
theorem playbackOrder_first_mentions (hvalid : t.validate = .ok ()) (hacyclic : Acyclic t.paths)
    (root : Label) :
    t.playbackOrder root.text = (t.expanded root.text).eraseDups ∧
      (t.playbackOrder root.text = t.expanded root.text ↔
        (t.siblings root.text).Pairwise fun e f =>
          e.node.kind = .playlist → f.node.kind = .playlist →
            List.Disjoint (t.playbackOrder e.node.id) (t.playbackOrder f.node.id)) := by
  have ha := validate_eq_ok_iff.1 hvalid
  have heq := playbackOrder_eq_eraseDups ha hacyclic root.dot_not_mem
  refine ⟨heq, ?_⟩
  rw [← nodup_expanded_iff ha hacyclic root.dot_not_mem]
  constructor
  · intro hsame
    rw [← hsame]
    exact nodup_playbackOrder ha root.dot_not_mem
  · intro hnodup
    rw [heq, eraseDups_of_nodup hnodup]

/-- A song with a refrain. -/
def refrainRows : Rows :=
  .ofList ["P.playlist.Q.1", "P.track.A.2", "P.playlist.Q.3", "Q.track.X.1"]

theorem acyclic_refrainRows : Acyclic refrainRows.tree.paths := by
  rw [refrainRows.paths_tree]
  exact .of_rank (fun label => ["P", "Q"].idxOf label) (by decide +kernel)

/-- The refrain is not heard a second time. -/
theorem playbackOrder_ne_expanded_refrain :
    refrainRows.tree.validate = .ok () ∧ Acyclic refrainRows.tree.paths ∧
      refrainRows.tree.playbackOrder "P" ≠ refrainRows.tree.expanded "P" := by
  have ha := refrainRows.agreeing_tree
  have hP : '.' ∉ "P".toList := by decide
  have hentry : ∀ p ∈ refrainRows.paths, Entry.ofPath p ∈ refrainRows.tree.toList := by
    intro p hp
    exact ha.mem_iff.2 ⟨p, refrainRows.paths_tree ▸ hp, rfl⟩
  obtain ⟨p, hp, q, hq, hne, hpP, hqP, hpkind, hqkind, hsame⟩ :
      ∃ p ∈ refrainRows.paths, ∃ q ∈ refrainRows.paths, p ≠ q ∧ p.root.text = "P" ∧
        q.root.text = "P" ∧ p.kind = .playlist ∧ q.kind = .playlist ∧ p.item = q.item ∧
        ∃ x ∈ refrainRows.paths, x.root = p.item ∧ x.kind = .track := by decide +kernel
  obtain ⟨hitem, x, hx, hxroot, hxkind⟩ := hsame
  have hheard : Node.ofPath x ∈ refrainRows.tree.playbackOrder p.item.text := by
    rw [mem_playbackOrder_iff ha p.item.dot_not_mem, ← hxroot]
    exact ⟨⟨Entry.ofPath x, hentry x hx, rfl, hxkind⟩, .refl⟩
  refine ⟨validate_eq_ok_iff.2 ha, acyclic_refrainRows, ?_⟩
  exact playbackOrder_ne_expanded_of_twice ha acyclic_refrainRows hP
    ((mem_siblings hP).2 ⟨hentry p hp, hpP⟩) ((mem_siblings hP).2 ⟨hentry q hq, hqP⟩)
    (fun heq => hne (congrArg Entry.path heq)) hpkind hqkind (congrArg Label.text hitem) hheard

theorem playbackOrder_first_mentions_refrain :
    refrainRows.tree.validate = .ok () ∧ Acyclic refrainRows.tree.paths ∧
      refrainRows.tree.playbackOrder "P" = (refrainRows.tree.expanded "P").eraseDups ∧
      refrainRows.tree.playbackOrder "Q" = refrainRows.tree.expanded "Q" := by
  have hvalid : refrainRows.tree.validate = .ok () := validate_eq_ok_iff.2 refrainRows.agreeing_tree
  obtain ⟨p, -, hp⟩ : ∃ p ∈ refrainRows.paths, p.root.text = "P" := by decide +kernel
  obtain ⟨q, -, hq⟩ : ∃ q ∈ refrainRows.paths, q.root.text = "Q" := by decide +kernel
  have hsong := playbackOrder_first_mentions hvalid acyclic_refrainRows p.root
  have hrefrain := playbackOrder_first_mentions hvalid acyclic_refrainRows q.root
  rw [hp] at hsong
  rw [hq] at hrefrain
  refine ⟨hvalid, acyclic_refrainRows, hsong.1, hrefrain.2.2 ?_⟩
  apply List.pairwise_of_forall_mem_list
  intro e he f _ hkind
  obtain ⟨he, hunder⟩ := (mem_siblings (hq ▸ q.root.dot_not_mem)).1 he
  have htracks : ∀ p ∈ refrainRows.paths, p.root.text = "Q" → p.kind ≠ .playlist := by
    decide +kernel
  rw [refrainRows.agreeing_tree.kind_node he] at hkind
  exact absurd hkind (htracks _ (refrainRows.paths_tree ▸ mem_paths_of_mem he) hunder)

end Playlists.Tree
