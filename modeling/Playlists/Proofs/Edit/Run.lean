import Playlists.Edit.Basic

/-!
# `Proofs/Edit/Run.lean` — how work on a state runs

Edits and the changes of a tree are written as steps one after another, each of which may fail.
`bind_of_ok` and `bind_of_error` run one step, and `bind_eq_ok_iff` takes a run that succeeded apart
at its first step. The lemmas on `attempt`, `rows` and the like say what the smallest steps do.
-/

set_option autoImplicit false

namespace Playlists

/-! ## Outcomes without a state -/

namespace Failure

variable {α β : Type} {l : List α}

/-- A check of all values passes exactly when each of them does. -/
theorem forM_eq_ok_iff {f : α → Except Failure Unit} :
    l.forM f = .ok () ↔ ∀ a ∈ l, f a = .ok () := by
  induction l with
  | nil => exact iff_of_true rfl (List.forall_mem_nil _)
  | cons a rest ih =>
    rw [List.forall_mem_cons, ← ih]
    exact bind_eq_ok_iff.trans ⟨fun ⟨_, hfirst, hrest⟩ => ⟨hfirst, hrest⟩,
      fun ⟨hfirst, hrest⟩ => ⟨(), hfirst, hrest⟩⟩

theorem mapM_eq_ok {f : α → Except Failure β} {g : α → β} (h : ∀ a ∈ l, f a = .ok (g a)) :
    l.mapM f = .ok (l.map g) := by
  induction l with
  | nil => rfl
  | cons a rest ih =>
    rw [List.forall_mem_cons] at h
    rw [List.mapM_cons, h.1, ih h.2]
    rfl

theorem exists_of_mem_mapM {f : α → Except Failure β} {results : List β}
    (h : l.mapM f = .ok results) {b : β} (hb : b ∈ results) : ∃ a ∈ l, f a = .ok b := by
  induction l generalizing results with
  | nil =>
    rw [List.mapM_nil] at h
    cases h
    cases hb
  | cons a rest ih =>
    rw [List.mapM_cons] at h
    obtain ⟨first, hfirst, h⟩ := bind_eq_ok_iff.1 h
    obtain ⟨others, hothers, h⟩ := bind_eq_ok_iff.1 h
    cases h
    rcases List.mem_cons.1 hb with rfl | hb
    · exact ⟨a, List.mem_cons_self, hfirst⟩
    · obtain ⟨a', ha', hok⟩ := ih hothers hb
      exact ⟨a', List.mem_cons_of_mem _ ha', hok⟩

theorem exists_eq_ok_of_mapM {f : α → Except Failure β} {results : List β}
    (h : l.mapM f = .ok results) {a : α} (ha : a ∈ l) : ∃ b, f a = .ok b := by
  induction l generalizing results with
  | nil => cases ha
  | cons a' rest ih =>
    rw [List.mapM_cons] at h
    obtain ⟨first, hfirst, h⟩ := bind_eq_ok_iff.1 h
    obtain ⟨others, hothers, -⟩ := bind_eq_ok_iff.1 h
    rcases List.mem_cons.1 ha with rfl | ha
    · exact ⟨first, hfirst⟩
    · exact ih hothers ha

theorem mapM_cons_eq_error_iff {f : α → Except Failure β} {a : α} {failure : Failure} :
    (a :: l).mapM f = .error failure ↔
      f a = .error failure ∨ (∃ b, f a = .ok b) ∧ l.mapM f = .error failure := by
  rw [List.mapM_cons]
  cases f a with
  | error other =>
    constructor
    · intro h
      cases h
      exact .inl rfl
    · rintro (h | ⟨⟨b, hb⟩, -⟩)
      · cases h
        rfl
      · cases hb
  | ok b =>
    constructor
    · intro h
      cases hrest : l.mapM f with
      | error other =>
        rw [hrest] at h
        exact .inr ⟨⟨b, rfl⟩, h⟩
      | ok bs =>
        rw [hrest] at h
        cases h
    · rintro (h | ⟨-, h⟩)
      · cases h
      · rw [h]
        rfl

/-- Values are refused for the first of them that is. -/
theorem mapM_eq_error_iff {f : α → Except Failure β} {failure : Failure} :
    l.mapM f = .error failure ↔ ∃ front a rest, l = front ++ a :: rest ∧
      (∀ b ∈ front, ∃ c, f b = .ok c) ∧ f a = .error failure := by
  induction l with
  | nil =>
    constructor
    · intro h
      cases h
    · rintro ⟨front, a, rest, heq, -⟩
      exact absurd heq.symm (List.append_ne_nil_of_right_ne_nil _ (List.cons_ne_nil _ _))
  | cons a rest ih =>
    rw [mapM_cons_eq_error_iff, ih]
    constructor
    · rintro (hfirst | ⟨hfirst, front, b, others, rfl, hfront, hb⟩)
      · exact ⟨[], a, rest, rfl, List.forall_mem_nil _, hfirst⟩
      · exact ⟨a :: front, b, others, rfl, List.forall_mem_cons.2 ⟨hfirst, hfront⟩, hb⟩
    · rintro ⟨front, b, others, heq, hfront, hb⟩
      rcases List.cons_eq_append_iff.1 heq with ⟨rfl, hhead⟩ | ⟨front', rfl, htail⟩
      · obtain ⟨rfl, -⟩ := List.cons.inj hhead
        exact .inl hb
      · rw [List.forall_mem_cons] at hfront
        exact .inr ⟨hfront.1, front', b, others, htail, hfront.2, hb⟩

theorem map_eq_ok_iff {x : Except Failure α} {f : α → β} {b : β} :
    x.map f = .ok b ↔ ∃ a, x = .ok a ∧ f a = b := by
  cases x with
  | error failure => exact ⟨fun h => (nomatch h), fun ⟨_, h, _⟩ => (nomatch h)⟩
  | ok a => exact ⟨fun h => ⟨a, rfl, Except.ok.inj h⟩, fun ⟨_, rfl, h⟩ => congrArg _ h⟩

theorem map_fst_map {γ : Type} (x : Except Failure (α × β)) (f : α → γ) :
    (x.map (Prod.map f id)).map Prod.fst = (x.map Prod.fst).map f := by
  cases x with
  | error failure => rfl
  | ok result => rfl

/-- An outcome that is refused is refused for a cause of a given sort. -/
def Only (P : Failure → Prop) (x : Except Failure α) : Prop :=
  ∀ failure, x = .error failure → P failure

namespace Only

variable {P Q : Failure → Prop} {x : Except Failure α}

theorem ok (a : α) : Only P (.ok a) :=
  fun _ h => nomatch h

theorem error {failure : Failure} (h : P failure) : Only P (.error failure : Except Failure α) := by
  intro failure' heq
  cases heq
  exact h

theorem mono (h : Only P x) (hpq : ∀ failure, P failure → Q failure) : Only Q x :=
  fun failure hx => hpq failure (h failure hx)

theorem bind {f : α → Except Failure β} (h : Only P x) (hnext : ∀ a, x = .ok a → Only P (f a)) :
    Only P (x >>= f) := by
  cases hx : x with
  | error failure => exact error (h failure hx)
  | ok a => exact hnext a hx

theorem map {f : α → β} (h : Only P x) : Only P (x.map f) := by
  cases hx : x with
  | error failure => exact error (h failure hx)
  | ok a => exact ok (f a)

theorem ite {c : Prop} [Decidable c] {y : Except Failure α} (hx : c → Only P x)
    (hy : ¬ c → Only P y) : Only P (if c then x else y) := by
  split
  · next hc => exact hx hc
  · next hc => exact hy hc

end Only

/-- Two outcomes are both refused for the same cause, or both successful with related results. -/
inductive Both {α β : Type} (R : α → β → Prop) : Except Failure α → Except Failure β → Prop where
  | ok {a : α} {b : β} (h : R a b) : Both R (.ok a) (.ok b)
  | error (failure : Failure) : Both R (.error failure) (.error failure)

namespace Both

variable {γ δ : Type} {R : α → β → Prop} {S : γ → δ → Prop} {x : Except Failure α}
  {y : Except Failure β}

theorem refl (x : Except Failure α) : Both Eq x x := by
  cases x with
  | error failure => exact .error failure
  | ok a => exact .ok rfl

theorem bind {f : α → Except Failure γ} {g : β → Except Failure δ} (h : Both R x y)
    (hnext : ∀ a b, x = .ok a → y = .ok b → R a b → Both S (f a) (g b)) :
    Both S (x >>= f) (y >>= g) := by
  cases h with
  | error failure => exact .error failure
  | ok hab => exact hnext _ _ rfl rfl hab

theorem map {f : α → γ} {g : β → δ} (h : Both R x y)
    (hnext : ∀ a b, x = .ok a → y = .ok b → R a b → S (f a) (g b)) :
    Both S (x.map f) (y.map g) := by
  cases h with
  | error failure => exact .error failure
  | ok hab => exact .ok (hnext _ _ rfl rfl hab)

theorem ite {c c' : Prop} [Decidable c] [Decidable c'] {x' : Except Failure α}
    {y' : Except Failure β} (hc : c ↔ c') (h : Both R x y) (h' : Both R x' y') :
    Both R (if c then x else x') (if c' then y else y') := by
  by_cases h₁ : c
  · rw [if_pos h₁, if_pos (hc.1 h₁)]
    exact h
  · rw [if_neg h₁, if_neg (mt hc.2 h₁)]
    exact h'

end Both

end Failure

/-! ## Steps on a state -/

namespace Run

section AnyFailure

variable {ε σ α β : Type} {x : EStateM ε σ α} {next : α → EStateM ε σ β} {s t : σ}

theorem bind_of_ok {a : α} (h : x s = .ok a t) : (x >>= next) s = next a t := by
  show EStateM.bind x next s = _
  rw [EStateM.bind, h]

theorem bind_of_error {failure : ε} (h : x s = .error failure t) :
    (x >>= next) s = .error failure t := by
  show EStateM.bind x next s = _
  rw [EStateM.bind, h]

theorem discard_of_ok {a : α} (h : x s = .ok a t) : (discard x) s = .ok () t := by
  show EStateM.map (fun _ => ()) x s = _
  rw [EStateM.map, h]

theorem discard_of_error {failure : ε} (h : x s = .error failure t) :
    (discard x) s = .error failure t := by
  show EStateM.map (fun _ => ()) x s = _
  rw [EStateM.map, h]

theorem get_eq (s : σ) : (get : EStateM ε σ σ) s = .ok s s :=
  rfl

end AnyFailure

variable {σ α β : Type} {x : EStateM Failure σ α} {next : α → EStateM Failure σ β} {s t : σ}

/-- Two steps succeed exactly when the first does and the second does on what the first left. -/
theorem bind_eq_ok_iff {b : β} {u : σ} :
    (x >>= next) s = .ok b u ↔ ∃ a t, x s = .ok a t ∧ next a t = .ok b u := by
  constructor
  · intro h
    cases hx : x s with
    | error failure t =>
      rw [bind_of_error hx] at h
      cases h
    | ok a t =>
      rw [bind_of_ok hx] at h
      exact ⟨a, t, rfl, h⟩
  · rintro ⟨a, t, hx, h⟩
    rw [bind_of_ok hx, h]

/-- How a run ends, as an outcome: a failure, or a result with the state after it. -/
def outcome : EStateM.Result Failure σ α → Except Failure (α × σ)
  | .ok a t => .ok (a, t)
  | .error failure _ => .error failure

theorem outcome_eq_ok {result : EStateM.Result Failure σ α} {r : α × σ}
    (h : outcome result = .ok r) : result = .ok r.1 r.2 := by
  cases result with
  | error failure t => cases h
  | ok a t =>
    cases h
    rfl

/-- That a run succeeds can be seen without looking at its result. -/
theorem exists_of_isOk_outcome {result : EStateM.Result Failure σ α}
    (h : (outcome result).isOk = true) : ∃ a t, result = .ok a t := by
  cases result with
  | error failure t => cases h
  | ok a t => exact ⟨a, t, rfl⟩

theorem outcome_bind : outcome ((x >>= next) s)
    = outcome (x s) >>= fun result => outcome (next result.1 result.2) := by
  cases hx : x s with
  | error failure t =>
    rw [bind_of_error hx]
    rfl
  | ok a t =>
    rw [bind_of_ok hx]
    rfl

/-- What succeeds on the one side succeeds on the other with the same result. -/
def Below (x y : EStateM Failure σ α) : Prop :=
  ∀ s a t, x s = .ok a t → y s = .ok a t

theorem Below.refl (x : EStateM Failure σ α) : Below x x :=
  fun _ _ _ h => h

theorem Below.bind {y : EStateM Failure σ α} {next' : α → EStateM Failure σ β} (hxy : Below x y)
    (hnext : ∀ a, Below (next a) (next' a)) : Below (x >>= next) (y >>= next') := by
  intro s b u h
  obtain ⟨a, t, hx, h⟩ := bind_eq_ok_iff.1 h
  exact bind_eq_ok_iff.2 ⟨a, t, hxy s a t hx, hnext a t b u h⟩

theorem Below.ite {c : Prop} [Decidable c] {y x' y' : EStateM Failure σ α} (hx : Below x x')
    (hy : Below y y') : Below (if c then x else y) (if c then x' else y') := by
  split
  · exact hx
  · exact hy

theorem Below.discard {y : EStateM Failure σ α} (h : Below x y) :
    Below (discard x) (discard y) := by
  intro s u t hx
  cases hrun : x s with
  | error failure t' =>
    rw [discard_of_error hrun] at hx
    cases hx
  | ok a t' =>
    rw [discard_of_ok hrun] at hx
    rw [discard_of_ok (h s a t' hrun), hx]

/-- Where work succeeds on a state, the result and the state after it are of a given sort. -/
def Ensures (x : EStateM Failure σ α) (s : σ) (Q : α → σ → Prop) : Prop :=
  ∀ a t, x s = .ok a t → Q a t

namespace Ensures

variable {P : α → σ → Prop} {Q : β → σ → Prop}

theorem pure {a : α} (h : P a s) : Ensures (pure a) s P := by
  intro b t hrun
  cases hrun
  exact h

theorem throw (failure : Failure) : Ensures (throw failure) s P :=
  fun _ _ hrun => nomatch hrun

theorem attempt {y : Except Failure α} (h : ∀ a, y = .ok a → P a s) :
    Ensures (Playlists.attempt y) s P := by
  intro a t hrun
  cases y with
  | error failure => cases hrun
  | ok b =>
    cases hrun
    exact h _ rfl

theorem bind (hx : Ensures x s P) (hnext : ∀ a t, P a t → Ensures (next a) t Q) :
    Ensures (x >>= next) s Q := by
  intro b u hrun
  obtain ⟨a, t, hfirst, hrun⟩ := bind_eq_ok_iff.1 hrun
  exact hnext a t (hx a t hfirst) b u hrun

/-- After a step that only looks, the rest runs on the same state. -/
theorem after_reading (hx : Ensures x s fun _ t => t = s) (hnext : ∀ a, Ensures (next a) s Q) :
    Ensures (x >>= next) s Q := by
  refine hx.bind ?_
  rintro a _ rfl
  exact hnext a

theorem after_attempt {y : Except Failure α} (hnext : ∀ a, y = .ok a → Ensures (next a) s Q) :
    Ensures (Playlists.attempt y >>= next) s Q := by
  refine bind (P := fun a t => y = .ok a ∧ t = s) (attempt fun a ha => ⟨ha, rfl⟩) ?_
  rintro a _ ⟨ha, rfl⟩
  exact hnext a ha

theorem ite {c : Prop} [Decidable c] {y : EStateM Failure σ α} (hx : c → Ensures x s P)
    (hy : ¬ c → Ensures y s P) : Ensures (if c then x else y) s P := by
  split
  · next hc => exact hx hc
  · next hc => exact hy hc

theorem discard {P : σ → Prop} (h : Ensures x s fun _ => P) :
    Ensures (discard x) s fun _ => P := by
  intro u t hrun
  cases hx : x s with
  | error failure t' =>
    rw [discard_of_error hx] at hrun
    cases hrun
  | ok a t' =>
    rw [discard_of_ok hx] at hrun
    cases hrun
    exact h _ _ hx

end Ensures

/-- A loop comes to its end, or stops at one of its values for the reason that this value gives. -/
theorem forM_ok_or_error {l : List α} {f : α → EStateM Failure σ Unit} {why : α → Failure}
    (h : ∀ a s, (∃ t, f a s = .ok () t) ∨ ∃ t, f a s = .error (why a) t) (s : σ) :
    (∃ t, l.forM f s = .ok () t) ∨ ∃ a ∈ l, ∃ t, l.forM f s = .error (why a) t := by
  induction l generalizing s with
  | nil => exact .inl ⟨s, rfl⟩
  | cons a rest ih =>
    rcases h a s with ⟨t, hfirst⟩ | ⟨t, hfirst⟩
    · rcases ih t with ⟨u, hrest⟩ | ⟨b, hb, u, hrest⟩
      · exact .inl ⟨u, (bind_of_ok hfirst).trans hrest⟩
      · exact .inr ⟨b, List.mem_cons_of_mem _ hb, u, (bind_of_ok hfirst).trans hrest⟩
    · exact .inr ⟨a, List.mem_cons_self, t, bind_of_error hfirst⟩

theorem attempt_ok (a : α) : attempt (.ok a) s = .ok a s :=
  rfl

theorem attempt_error (failure : Failure) :
    (attempt (.error failure) : EStateM Failure σ α) s = .error failure s :=
  rfl

theorem attempt_of_ok {y : Except Failure α} {a : α} (h : y = .ok a) : attempt y s = .ok a s := by
  rw [h, attempt_ok]

theorem attempt_of_error {y : Except Failure α} {failure : Failure} (h : y = .error failure) :
    attempt y s = .error failure s := by
  rw [h, attempt_error]

theorem rowsUnder_eq (d : Dialect) (lead : String) (rows : Rows) :
    Edit.rowsUnder d lead rows = .ok (rows.toList.filter (d.isUnder lead)) rows :=
  rfl

theorem removeItem_eq (d : Dialect) (item : String) (rows : Rows) :
    Edit.removeItem d item rows
      = .ok (d.report (rows.filter (d.isOfItem item)).toList)
          (rows.filter fun row => !d.isOfItem item row) :=
  rfl

end Run

end Playlists
