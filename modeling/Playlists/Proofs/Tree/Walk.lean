import Playlists.Proofs.Nesting.Relation
import Playlists.Proofs.Tree.Playback

/-!
# `Proofs/Tree/Walk.lean` — a playlist is heard completely and in order

Nestings may be shared, go round in circles or lead back to the playlist that is heard. `Walks`
follows them as one would by hand: entry by entry, and down into a playlist the first time it is
met. The labels that are open at the start of a walk and those that are open at its end decide what
is heard on it: the pending tracks and all tracks under the labels that were opened on the way
(`Walks.mem_heard_iff`).

What is left is to say which labels these are. A walk opens nothing that its entries do not lead to
(`Walks.opens_only`), and it opens all of that if the labels open at the start hide nothing from it
(`Walks.mem_opened_iff`), as at the start of a playlist, where all its children are still to come.
-/

set_option autoImplicit false

namespace Playlists.Tree

open Relation

/-- Hearing the entries `pending` one by one, where the labels `opened` have been opened before:
which tracks are heard and which labels are open in the end. -/
inductive Walks (t : Tree) : List String → List Entry → List Entry → List String → Prop
  | done {opened : List String} : Walks t opened [] [] opened
  | track {opened opened' : List String} {e : Entry} {rest heard : List Entry}
      (hkind : e.node.kind = .track) (hrest : Walks t opened rest heard opened') :
      Walks t opened (e :: rest) (e :: heard) opened'
  | skip {opened opened' : List String} {e : Entry} {rest heard : List Entry}
      (hkind : e.node.kind = .playlist) (hopen : e.node.id ∈ opened)
      (hrest : Walks t opened rest heard opened') : Walks t opened (e :: rest) heard opened'
  | enter {opened middle opened' : List String} {e : Entry} {rest inside heard : List Entry}
      (hkind : e.node.kind = .playlist) (hnew : e.node.id ∉ opened)
      (hinside : Walks t (e.node.id :: opened) (t.siblings e.node.id) inside middle)
      (hrest : Walks t middle rest heard opened') :
      Walks t opened (e :: rest) (inside ++ heard) opened'

/-- The entries nest the playlist `label`, however deep. -/
def Leads (t : Tree) (pending : List Entry) (label : String) : Prop :=
  ∃ e ∈ pending, e.node.kind = .playlist ∧ ReflTransGen (Nests t.paths) e.node.id label

/-- The entry was pending at the start, or it stands under a label that was opened on the way. -/
def Passed (t : Tree) (opened : List String) (pending : List Entry) (opened' : List String)
    (e : Entry) : Prop :=
  e ∈ pending ∨ e ∈ t.toList ∧ e.path.root.text ∈ opened' ∧ e.path.root.text ∉ opened

/-- The entry is done with: a track was heard, and a playlist was opened. -/
def Settled (heard : List Entry) (opened : List String) (e : Entry) : Prop :=
  (e.node.kind = .track → e ∈ heard) ∧ (e.node.kind = .playlist → e.node.id ∈ opened)

/-- What the open labels nest is open too or pending, as far as the pending entries lead there. -/
def Ready (t : Tree) (opened : List String) (pending : List Entry) : Prop :=
  ∀ l ∈ opened, t.Leads pending l → ∀ m, Nests t.paths l m →
    m ∈ opened ∨ ∃ e ∈ pending, e.node.kind = .playlist ∧ e.node.id = m

/-- Different entries in an order that children of one playlist may be heard in. -/
def Precedes (e f : Entry) : Prop :=
  e ≠ f ∧ (e.path.root = f.path.root → e.notAfter f = true)

variable {t : Tree} {opened opened' : List String} {pending heard : List Entry} {e f : Entry}

/-! ## Entries of an agreeing tree -/

theorem siblings_subset (t : Tree) (label : String) : t.siblings label ⊆ t.toList := by
  intro e he
  exact mem_of_mem_childrenOf ((t.siblings_perm label).mem_iff.1 he)

theorem Agreeing.dot_not_mem_id (ha : t.Agreeing) (he : e ∈ t.toList) :
    '.' ∉ e.node.id.toList := by
  have hid : e.node.id = e.path.item.text := congrArg (·.node.id) (ha e he)
  rw [hid]
  exact e.path.item.dot_not_mem

theorem Agreeing.nests (ha : t.Agreeing) (he : e ∈ t.toList) (hkind : e.node.kind = .playlist) :
    Nests t.paths e.path.root.text e.node.id := by
  have heq := ha e he
  have hpath : e.path.kind = .playlist := (congrArg (·.node.kind) heq).symm.trans hkind
  exact ⟨e.path, mem_paths_of_mem he, rfl, hpath, (congrArg (·.node.id) heq).symm⟩

theorem Leads.of_siblings (ha : t.Agreeing) (he : e ∈ t.toList) (hkind : e.node.kind = .playlist)
    (hmem : e ∈ pending) {l : String} (h : t.Leads (t.siblings e.node.id) l) :
    TransGen (Nests t.paths) e.node.id l ∧ t.Leads pending l := by
  obtain ⟨f, hf, hfkind, hway⟩ := h
  obtain ⟨hf, hroot⟩ := (mem_siblings (ha.dot_not_mem_id he)).1 hf
  have hstep := ha.nests hf hfkind
  rw [hroot] at hstep
  have hdown := TransGen.head' hstep hway
  exact ⟨hdown, e, hmem, hkind, hdown.to_reflTransGen⟩

theorem Leads.mono {pending' : List Entry} (hsub : pending ⊆ pending') {l : String}
    (h : t.Leads pending l) : t.Leads pending' l := by
  obtain ⟨e, he, hkind, hway⟩ := h
  exact ⟨e, hsub he, hkind, hway⟩

/-! ## There is a walk -/

theorem Walks.split {l l' : List Entry} (h : t.Walks opened (l ++ l') heard opened') :
    ∃ front middle back, t.Walks opened l front middle ∧ t.Walks middle l' back opened' ∧
      heard = front ++ back := by
  induction l generalizing opened heard with
  | nil => exact ⟨[], opened, heard, .done, h, rfl⟩
  | cons e rest ih =>
    cases h with
    | track hkind hrest =>
      obtain ⟨front, middle, back, hfront, hback, rfl⟩ := ih hrest
      exact ⟨e :: front, middle, back, .track hkind hfront, hback, rfl⟩
    | skip hkind hopen hrest =>
      obtain ⟨front, middle, back, hfront, hback, rfl⟩ := ih hrest
      exact ⟨front, middle, back, .skip hkind hopen hfront, hback, rfl⟩
    | enter hkind hnew hinside hrest =>
      obtain ⟨front, middle, back, hfront, hback, rfl⟩ := ih hrest
      exact ⟨_, middle, back, .enter hkind hnew hinside hfront, hback,
        (List.append_assoc _ _ _).symm⟩

/-- Playing the pending entries is a walk over them. -/
theorem exists_walks_play {unopened : List String}
    (hopen : ∀ e ∈ t.toList, e.node.id ∈ unopened ↔ e.node.id ∉ opened)
    (hsub : pending ⊆ t.toList) :
    ∃ heard opened', t.Walks opened pending heard opened' ∧
      t.play unopened pending = heard.map Entry.node := by
  fun_induction Tree.play t unopened pending generalizing opened with
  | case1 unopened => exact ⟨[], opened, .done, rfl⟩
  | case2 unopened e rest hkind ih =>
    obtain ⟨heard, opened', hwalk, heq⟩ := ih hopen (List.cons_subset.1 hsub).2
    exact ⟨e :: heard, opened', .track hkind hwalk, congrArg (e.node :: ·) heq⟩
  | case3 unopened e rest hkind hmem _ ih =>
    obtain ⟨he, hrest⟩ := List.cons_subset.1 hsub
    have hopen' : ∀ f ∈ t.toList,
        f.node.id ∈ without unopened e.node.id ↔ f.node.id ∉ e.node.id :: opened := by
      intro f hf
      rw [mem_without, hopen f hf, List.mem_cons, not_or, and_comm]
    have hsub' : t.siblings e.node.id ++ rest ⊆ t.toList :=
      List.append_subset.2 ⟨t.siblings_subset _, hrest⟩
    obtain ⟨heard, opened', hwalk, heq⟩ := ih hopen' hsub'
    -- The function puts the children in front of the rest; the walk goes over them apart.
    obtain ⟨inside, middle, back, hinside, hback, rfl⟩ := hwalk.split
    exact ⟨_, opened', .enter hkind ((hopen e he).1 hmem) hinside hback, heq⟩
  | case4 unopened e rest hkind hmem ih =>
    obtain ⟨he, hrest⟩ := List.cons_subset.1 hsub
    have hopened : e.node.id ∈ opened := by
      by_contra hnew
      exact hmem ((hopen e he).2 hnew)
    obtain ⟨heard, opened', hwalk, heq⟩ := ih hopen hrest
    exact ⟨heard, opened', .skip hkind hopened hwalk, heq⟩

theorem exists_walks_playbackOrder (t : Tree) (root : String) :
    ∃ heard opened, t.Walks [root] (t.siblings root) heard opened ∧
      t.playbackOrder root = heard.map Entry.node := by
  apply exists_walks_play _ (t.siblings_subset root)
  intro e he
  rw [mem_without, List.mem_singleton, nestedLabels]
  exact and_iff_right (List.mem_map_of_mem he)

/-! ## What is opened and what is heard -/

theorem Walks.opened_subset (h : t.Walks opened pending heard opened') : opened ⊆ opened' := by
  induction h with
  | done => exact List.Subset.refl _
  | track _ _ ih => exact ih
  | skip _ _ _ ih => exact ih
  | enter _ _ _ _ ihinside ihrest =>
    exact fun l hl => ihrest (ihinside (.tail _ hl))

theorem Settled.mono {heard' : List Entry} (h : Settled heard opened e) (hheard : heard ⊆ heard')
    (hopened : opened ⊆ opened') : Settled heard' opened' e :=
  ⟨fun hkind => hheard (h.1 hkind), fun hkind => hopened (h.2 hkind)⟩

/-- Opening a playlist in front of other entries passes its own ones and then the others. -/
theorem passed_enter_iff (ha : t.Agreeing) {middle : List String} {rest : List Entry}
    (he : e ∈ t.toList) (hnew : e.node.id ∉ opened) (hmiddle : e.node.id :: opened ⊆ middle)
    (hopened' : middle ⊆ opened') :
    t.Passed opened (e :: rest) opened' f ↔
      f = e ∨ t.Passed (e.node.id :: opened) (t.siblings e.node.id) middle f ∨
        t.Passed middle rest opened' f := by
  have hopened : opened ⊆ middle := fun l hl => hmiddle (.tail _ hl)
  simp only [Passed, mem_siblings (ha.dot_not_mem_id he), List.mem_cons, not_or]
  constructor
  · rintro ((rfl | hf) | ⟨hf, hroot, hclosed⟩)
    · exact .inl rfl
    · exact .inr (.inr (.inl hf))
    -- What was opened is opened inside the playlist or after it, and inside it may be the playlist.
    · by_cases hinside : f.path.root.text ∈ middle
      · by_cases hself : f.path.root.text = e.node.id
        · exact .inr (.inl (.inl ⟨hf, hself⟩))
        · exact .inr (.inl (.inr ⟨hf, hinside, hself, hclosed⟩))
      · exact .inr (.inr (.inr ⟨hf, hroot, hinside⟩))
  · rintro (rfl | (⟨hf, hself⟩ | ⟨hf, hinside, -, hclosed⟩) | hf | ⟨hf, hroot, hinside⟩)
    · exact .inl (.inl rfl)
    · rw [hself]
      exact .inr ⟨hf, hopened' (hmiddle List.mem_cons_self), hnew⟩
    · exact .inr ⟨hf, hopened' hinside, hclosed⟩
    · exact .inl (.inr hf)
    · exact .inr ⟨hf, hroot, fun hmem => hinside (hopened hmem)⟩

theorem Walks.passed_of_mem (ha : t.Agreeing) (hsub : pending ⊆ t.toList)
    (h : t.Walks opened pending heard opened') (hf : f ∈ heard) :
    f.node.kind = .track ∧ t.Passed opened pending opened' f := by
  induction h with
  | done => cases hf
  | @track opened opened' e rest heard hkind hrest ih =>
    obtain ⟨-, hsub⟩ := List.cons_subset.1 hsub
    rcases List.mem_cons.1 hf with rfl | hf
    · exact ⟨hkind, .inl List.mem_cons_self⟩
    · obtain ⟨hfkind, hpassed⟩ := ih hsub hf
      exact ⟨hfkind, hpassed.imp_left (.tail e)⟩
  | @skip opened opened' e rest heard hkind hopen hrest ih =>
    obtain ⟨-, hsub⟩ := List.cons_subset.1 hsub
    obtain ⟨hfkind, hpassed⟩ := ih hsub hf
    exact ⟨hfkind, hpassed.imp_left (.tail e)⟩
  | @enter opened middle opened' e rest inside heard hkind hnew hinside hrest ihinside ihrest =>
    obtain ⟨he, hsub⟩ := List.cons_subset.1 hsub
    rw [passed_enter_iff ha he hnew hinside.opened_subset hrest.opened_subset]
    rcases List.mem_append.1 hf with hf | hf
    · obtain ⟨hfkind, hpassed⟩ := ihinside (t.siblings_subset _) hf
      exact ⟨hfkind, .inr (.inl hpassed)⟩
    · obtain ⟨hfkind, hpassed⟩ := ihrest hsub hf
      exact ⟨hfkind, .inr (.inr hpassed)⟩

theorem Walks.settled_of_passed (ha : t.Agreeing) (hsub : pending ⊆ t.toList)
    (h : t.Walks opened pending heard opened') (hf : t.Passed opened pending opened' f) :
    Settled heard opened' f := by
  induction h with
  | done =>
    rcases hf with hf | ⟨-, hroot, hclosed⟩
    · cases hf
    · exact absurd hroot hclosed
  | @track opened opened' e rest heard hkind hrest ih =>
    obtain ⟨-, hsub⟩ := List.cons_subset.1 hsub
    rw [Passed, List.mem_cons, or_assoc] at hf
    rcases hf with rfl | hf
    · exact ⟨fun _ => List.mem_cons_self, fun hplaylist => nomatch hkind.symm.trans hplaylist⟩
    · exact (ih hsub hf).mono (List.subset_cons_self e heard) (List.Subset.refl _)
  | @skip opened opened' e rest heard hkind hopen hrest ih =>
    obtain ⟨-, hsub⟩ := List.cons_subset.1 hsub
    rw [Passed, List.mem_cons, or_assoc] at hf
    rcases hf with rfl | hf
    · exact ⟨fun htrack => (nomatch hkind.symm.trans htrack),
        fun _ => hrest.opened_subset hopen⟩
    · exact ih hsub hf
  | @enter opened middle opened' e rest inside heard hkind hnew hinside hrest ihinside ihrest =>
    obtain ⟨he, hsub⟩ := List.cons_subset.1 hsub
    rw [passed_enter_iff ha he hnew hinside.opened_subset hrest.opened_subset] at hf
    rcases hf with rfl | hf | hf
    · exact ⟨fun htrack => (nomatch hkind.symm.trans htrack),
        fun _ => hrest.opened_subset (hinside.opened_subset List.mem_cons_self)⟩
    · exact (ihinside (t.siblings_subset _) hf).mono (List.subset_append_left _ _)
        hrest.opened_subset
    · exact (ihrest hsub hf).mono (List.subset_append_right _ _) (List.Subset.refl _)

/-- Exactly the tracks that are passed are heard. -/
theorem Walks.mem_heard_iff (ha : t.Agreeing) (hsub : pending ⊆ t.toList)
    (h : t.Walks opened pending heard opened') :
    f ∈ heard ↔ f.node.kind = .track ∧ t.Passed opened pending opened' f := by
  constructor
  · exact h.passed_of_mem ha hsub
  · intro hf
    exact (h.settled_of_passed ha hsub hf.2).1 hf.1

theorem Walks.opens_only (ha : t.Agreeing) (hsub : pending ⊆ t.toList)
    (h : t.Walks opened pending heard opened') {l : String} (hl : l ∈ opened') :
    l ∈ opened ∨ t.Leads pending l := by
  induction h with
  | done => exact .inl hl
  | @track opened opened' e rest heard hkind hrest ih =>
    obtain ⟨-, hsub⟩ := List.cons_subset.1 hsub
    exact (ih hsub hl).imp_right (.mono (List.subset_cons_self e rest))
  | @skip opened opened' e rest heard hkind hopen hrest ih =>
    obtain ⟨-, hsub⟩ := List.cons_subset.1 hsub
    exact (ih hsub hl).imp_right (.mono (List.subset_cons_self e rest))
  | @enter opened middle opened' e rest inside heard hkind hnew hinside hrest ihinside ihrest =>
    obtain ⟨he, hsub⟩ := List.cons_subset.1 hsub
    rcases ihrest hsub hl with hmiddle | hleads
    · rcases ihinside (t.siblings_subset _) hmiddle with hopen | hleads
      · rcases List.mem_cons.1 hopen with rfl | hopen
        · exact .inr ⟨e, List.mem_cons_self, hkind, .refl⟩
        · exact .inl hopen
      · exact .inr (hleads.of_siblings ha he hkind List.mem_cons_self).2
    · exact .inr (hleads.mono (List.subset_cons_self e rest))

/-- Where the open labels hide nothing, everything is opened that the entries lead to. -/
theorem Walks.mem_opened_iff (ha : t.Agreeing) (hsub : pending ⊆ t.toList)
    (hready : t.Ready opened pending) (h : t.Walks opened pending heard opened') {l : String} :
    l ∈ opened' ↔ l ∈ opened ∨ t.Leads pending l := by
  constructor
  · exact h.opens_only ha hsub
  · rintro (hopen | ⟨e, he, hkind, hway⟩)
    · exact h.opened_subset hopen
    · have hpending : ∀ f ∈ pending, f.node.kind = .playlist → f.node.id ∈ opened' :=
        fun f hf => (h.settled_of_passed ha hsub (.inl hf)).2
      -- By induction along the way there; each label on it is open already or opened by the walk.
      induction hway with
      | refl => exact hpending e he hkind
      | @tail l m hfront hstep ih =>
        by_cases hopen : l ∈ opened
        · rcases hready l hopen ⟨e, he, hkind, hfront⟩ m hstep with hm | ⟨f, hf, hfkind, rfl⟩
          · exact h.opened_subset hm
          · exact hpending f hf hfkind
        · obtain ⟨p, hp, rfl, hpoint⟩ := hstep
          have hentry := ha.mem_iff.2 ⟨p, hp, rfl⟩
          rw [← hpoint.2]
          exact (h.settled_of_passed ha hsub (.inr ⟨hentry, ih, hopen⟩)).2 hpoint.1

/-! ## The order -/

theorem siblings_precede (t : Tree) {label : String} (h : '.' ∉ label.toList) :
    (t.siblings label).Pairwise Precedes := by
  refine ((t.siblings_nodup h).and (t.siblings_pairwise label)).imp ?_
  intro a b hab
  exact ⟨hab.1, fun _ => hab.2⟩

theorem precedes_of_root_ne (h : e.path.root.text ≠ f.path.root.text) : Precedes e f := by
  constructor
  · intro heq
    exact h (heq ▸ rfl)
  · intro hroot
    exact absurd (congrArg Label.text hroot) h

/-- What is heard inside a playlist stands under labels that are opened there. -/
theorem Walks.opened_inside (ha : t.Agreeing) {middle : List String} {inside : List Entry}
    (he : e ∈ t.toList) (hnew : e.node.id ∉ opened)
    (hinside : t.Walks (e.node.id :: opened) (t.siblings e.node.id) inside middle)
    (hf : f ∈ inside) : f.path.root.text ∈ middle ∧ f.path.root.text ∉ opened := by
  rcases (hinside.passed_of_mem ha (t.siblings_subset _) hf).2 with hf | ⟨-, hroot, hclosed⟩
  · rw [((mem_siblings (ha.dot_not_mem_id he)).1 hf).2]
    exact ⟨hinside.opened_subset List.mem_cons_self, hnew⟩
  · exact ⟨hroot, fun hopen => hclosed (.tail _ hopen)⟩

/-- A walk over entries that are in order hears them, and all others, in order. -/
theorem Walks.pairwise_precedes (ha : t.Agreeing) (hsub : pending ⊆ t.toList)
    (hroots : ∀ e ∈ pending, e.path.root.text ∈ opened) (hpending : pending.Pairwise Precedes)
    (h : t.Walks opened pending heard opened') : heard.Pairwise Precedes := by
  induction h with
  | done => exact .nil
  | @track opened opened' e rest heard hkind hrest ih =>
    obtain ⟨-, hsub⟩ := List.cons_subset.1 hsub
    obtain ⟨hroot, hroots⟩ := List.forall_mem_cons.1 hroots
    obtain ⟨hfirst, htail⟩ := List.pairwise_cons.1 hpending
    refine List.pairwise_cons.2 ⟨?_, ih hsub hroots htail⟩
    intro f hf
    rcases (hrest.passed_of_mem ha hsub hf).2 with hf | ⟨-, -, hclosed⟩
    · exact hfirst f hf
    · exact precedes_of_root_ne fun heq => hclosed (heq ▸ hroot)
  | @skip opened opened' e rest heard hkind hopen hrest ih =>
    exact ih (List.cons_subset.1 hsub).2 (List.forall_mem_cons.1 hroots).2
      (List.pairwise_cons.1 hpending).2
  | @enter opened middle opened' e rest inside heard hkind hnew hinside hrest ihinside ihrest =>
    obtain ⟨he, hsub⟩ := List.cons_subset.1 hsub
    obtain ⟨-, hroots⟩ := List.forall_mem_cons.1 hroots
    have hdot := ha.dot_not_mem_id he
    have hopened : opened ⊆ middle := fun l hl => hinside.opened_subset (.tail _ hl)
    refine List.pairwise_append.2 ⟨ihinside (t.siblings_subset _) ?_ (t.siblings_precede hdot),
      ihrest hsub (fun f hf => hopened (hroots f hf)) (List.pairwise_cons.1 hpending).2, ?_⟩
    · intro f hf
      rw [((mem_siblings hdot).1 hf).2]
      exact List.mem_cons_self
    · -- What is heard after the playlist stands under labels that were open before or are not yet.
      intro a hin b hout
      obtain ⟨hroot, hnotBefore⟩ := hinside.opened_inside ha he hnew hin
      apply precedes_of_root_ne
      intro heq
      rcases (hrest.passed_of_mem ha hsub hout).2 with hf | ⟨-, -, hclosed⟩
      · exact hnotBefore (heq ▸ hroots b hf)
      · exact hclosed (heq ▸ hroot)

/-! ## From the start of a playlist -/

theorem ready_siblings (ha : t.Agreeing) {root : String} (hroot : '.' ∉ root.toList) :
    t.Ready [root] (t.siblings root) := by
  intro l hl _ m hnest
  rw [List.mem_singleton.1 hl] at hnest
  obtain ⟨p, hp, hpr, hpoint⟩ := hnest
  exact .inr ⟨Entry.ofPath p, (mem_siblings hroot).2 ⟨ha.mem_iff.2 ⟨p, hp, rfl⟩, hpr⟩, hpoint⟩

theorem mem_or_leads_iff (ha : t.Agreeing) {root : String} (hroot : '.' ∉ root.toList)
    {l : String} : l ∈ [root] ∨ t.Leads (t.siblings root) l ↔
      ReflTransGen (Nests t.paths) root l := by
  rw [List.mem_singleton, ReflTransGen.cases_head_iff, eq_comm]
  refine or_congr_right ⟨?_, ?_⟩
  · intro hleads
    obtain ⟨e, he, hkind, hway⟩ := hleads
    obtain ⟨he, hunder⟩ := (mem_siblings hroot).1 he
    exact ⟨e.node.id, hunder ▸ ha.nests he hkind, hway⟩
  · intro hway
    obtain ⟨m, ⟨p, hp, hunder, hkind, rfl⟩, hway⟩ := hway
    have he := (mem_siblings hroot).2 ⟨ha.mem_iff.2 ⟨p, hp, rfl⟩, hunder⟩
    exact ⟨Entry.ofPath p, he, hkind, hway⟩

/-- From its start on, a playlist passes the entries under all labels that it nests. -/
theorem Walks.passed_root_iff (ha : t.Agreeing) {root : String} (hroot : '.' ∉ root.toList)
    (h : t.Walks [root] (t.siblings root) heard opened) :
    t.Passed [root] (t.siblings root) opened e ↔
      e ∈ t.toList ∧ ReflTransGen (Nests t.paths) root e.path.root.text := by
  have hopened := fun l => (h.mem_opened_iff ha (t.siblings_subset root)
    (ready_siblings ha hroot) (l := l)).trans (mem_or_leads_iff ha hroot)
  rw [Passed, mem_siblings hroot, ← and_or_left, hopened, List.mem_singleton]
  refine and_congr_right fun _ => ⟨?_, ?_⟩
  · rintro (hself | ⟨hway, -⟩)
    · rw [hself]
    · exact hway
  · intro hway
    by_cases hself : e.path.root.text = root
    · exact .inl hself
    · exact .inr ⟨hway, hself⟩

theorem Agreeing.kind_node (ha : t.Agreeing) (he : e ∈ t.toList) : e.node.kind = e.path.kind :=
  congrArg (·.node.kind) (ha e he)

/-- What is heard of a playlist: its tracks and those of everything nested in it, in order. -/
theorem Walks.mem_heard_root_iff (ha : t.Agreeing) {root : String} (hroot : '.' ∉ root.toList)
    (h : t.Walks [root] (t.siblings root) heard opened) :
    e ∈ heard ↔ e ∈ t.toList ∧ e.path.kind = .track ∧
      ReflTransGen (Nests t.paths) root e.path.root.text := by
  rw [h.mem_heard_iff ha (t.siblings_subset root), h.passed_root_iff ha hroot, and_left_comm]
  refine and_congr_right fun he => ?_
  rw [ha.kind_node he]

theorem Walks.pairwise_root (ha : t.Agreeing) {root : String} (hroot : '.' ∉ root.toList)
    (h : t.Walks [root] (t.siblings root) heard opened) : heard.Pairwise Precedes := by
  apply h.pairwise_precedes ha (t.siblings_subset root) _ (t.siblings_precede hroot)
  intro e he
  rw [((mem_siblings hroot).1 he).2]
  exact List.mem_cons_self

/-! ## Nodes -/

theorem Agreeing.eq_of_node_eq (ha : t.Agreeing) (he : e ∈ t.toList) (hf : f ∈ t.toList)
    (h : e.node = f.node) : e = f := by
  have hnode : Node.ofPath e.path = Node.ofPath f.path :=
    (congrArg Entry.node (ha e he)).symm.trans (h.trans (congrArg Entry.node (ha f hf)))
  simp only [Node.ofPath, Node.mk.injEq] at hnode
  obtain ⟨hitem, hroot, hkind, hposition⟩ := hnode
  have hpath : e.path = f.path := by
    apply Path.text_injective
    rw [Path.text, Path.text, Path.fields, Path.fields, hitem, hroot, hkind, hposition]
  rw [ha e he, ha f hf, hpath]

theorem nodup_playbackOrder (ha : t.Agreeing) {root : String} (hroot : '.' ∉ root.toList) :
    (t.playbackOrder root).Nodup := by
  obtain ⟨heard, opened, hwalk, heq⟩ := t.exists_walks_playbackOrder root
  have hmem := fun e => hwalk.mem_heard_root_iff ha hroot (e := e)
  rw [heq]
  refine List.Nodup.map_on ?_ ((hwalk.pairwise_root ha hroot).imp And.left)
  intro e he f hf
  exact ha.eq_of_node_eq ((hmem e).1 he).1 ((hmem f).1 hf).1

/-- **A playlist is heard completely, in order and without repetition.** The walk over its children
comes to an end, whatever nests what. It hears the tracks of the playlist and of all that is nested
in it, and no others; children of one playlist are heard by position, and by path where positions
are equal. -/
theorem playbackOrder_hears (hvalid : t.validate = .ok ()) (root : Label) :
    ∃ heard opened, t.Walks [root.text] (t.siblings root.text) heard opened ∧
      t.playbackOrder root.text = heard.map Entry.node ∧
      (∀ e, e ∈ heard ↔ e ∈ t.toList ∧ e.path.kind = .track ∧
        ReflTransGen (Nests t.paths) root.text e.path.root.text) ∧
      (heard.Pairwise fun e f => e ≠ f ∧ (e.path.root = f.path.root → e.notAfter f = true)) ∧
      (t.playbackOrder root.text).Nodup := by
  have ha := validate_eq_ok_iff.1 hvalid
  obtain ⟨heard, opened, hwalk, heq⟩ := t.exists_walks_playbackOrder root.text
  refine ⟨heard, opened, hwalk, heq, ?_, ?_, ?_⟩
  · exact fun e => hwalk.mem_heard_root_iff ha root.dot_not_mem
  · exact hwalk.pairwise_root ha root.dot_not_mem
  · exact nodup_playbackOrder ha root.dot_not_mem

/-- Rows with a playlist that is nested twice, nestings that go round and back to the start, and a
row that nothing leads to. -/
def roundaboutRows : Rows :=
  .ofList ["P.playlist.Q.1", "P.playlist.Q.2", "P.track.B.2", "P.playlist.P.3", "P.track.A.10",
    "Q.playlist.R.1", "Q.track.X.2", "R.playlist.Q.1", "R.playlist.P.2", "R.track.Y.3",
    "O.track.Z.1"]

theorem playbackOrder_hears_roundabout :
    roundaboutRows.tree.validate = .ok () ∧
      ∃ heard opened,
        roundaboutRows.tree.Walks ["P"] (roundaboutRows.tree.siblings "P") heard opened ∧
        roundaboutRows.tree.playbackOrder "P" = heard.map Entry.node ∧
        (∀ p ∈ roundaboutRows.paths,
          Entry.ofPath p ∈ heard ↔ p.kind = .track ∧ p.root.text ∈ ["P", "Q", "R"]) ∧
        (roundaboutRows.tree.playbackOrder "P").Nodup := by
  have hvalid : roundaboutRows.tree.validate = .ok () :=
    validate_eq_ok_iff.2 roundaboutRows.agreeing_tree
  have hpaths : roundaboutRows.tree.paths = roundaboutRows.paths := roundaboutRows.paths_tree
  have hstep : ∀ a b, (∃ p ∈ roundaboutRows.paths, p.root.text = a ∧ p.PointsAt b) →
      Nests roundaboutRows.tree.paths a b := fun a b hex => hpaths ▸ hex
  have hway : ∀ l, ReflTransGen (Nests roundaboutRows.tree.paths) "P" l ↔ l ∈ ["P", "Q", "R"] := by
    have hPQ := hstep "P" "Q" (by decide +kernel)
    have hQR := hstep "Q" "R" (by decide +kernel)
    intro l
    constructor
    · intro hl
      induction hl with
      | refl => exact List.mem_cons_self
      | tail _ hnest ih =>
        obtain ⟨p, hp, rfl, hkind, rfl⟩ := hnest
        have hclosed : ∀ p ∈ roundaboutRows.paths, p.kind = .playlist →
            p.root.text ∈ ["P", "Q", "R"] → p.item.text ∈ ["P", "Q", "R"] := by decide +kernel
        exact hclosed p (hpaths ▸ hp) hkind ih
    · intro hl
      simp only [List.mem_cons, List.not_mem_nil, or_false] at hl
      rcases hl with rfl | rfl | rfl
      · exact .refl
      · exact .single hPQ
      · exact .tail (.single hPQ) hQR
  obtain ⟨first, -, hfirst⟩ : ∃ p ∈ roundaboutRows.paths, p.root.text = "P" := by decide +kernel
  have hhears := playbackOrder_hears hvalid first.root
  rw [hfirst] at hhears
  obtain ⟨heard, opened, hwalk, heq, hmem, -, hnodup⟩ := hhears
  refine ⟨hvalid, heard, opened, hwalk, heq, fun p hp => ?_, hnodup⟩
  have he : Entry.ofPath p ∈ roundaboutRows.tree.toList :=
    roundaboutRows.agreeing_tree.mem_iff.2 ⟨p, hpaths ▸ hp, rfl⟩
  rw [hmem, and_iff_right he]
  exact and_congr_right fun _ => hway p.root.text

end Playlists.Tree
