import Playlists.Proofs.Edit.Dialects
import Playlists.Proofs.Session.Frame

/-!
# `Proofs/Transaction.lean` — one medium in the place of another

Rows in memory and rows in a table are interchangeable as long as all of them can be read. Two
stores that hold the same rows (`Store.Matches`), one of each kind, answer any history of
transactions alike (`Store.play_alike`): action by action the outcomes tally and the staged rows are
the same, and transaction by transaction so are the rows that are kept. Actions may fail and be
followed by others, and a transaction may be dropped.

The proof goes along the definitions. `Action.work_twin` compares one action on the rows of one
playlist, `Session.stepsOn_alike` the steps of a transaction, and what a transaction keeps is what
its last step has staged. In a session an action is its work on the rows of its playlist by the frame
lemma (`Session.step_eq`).

A table is free to choose at every action in which order it reports the rows that it removes.
Histories say which order it chooses, and nothing depends on it but those reports.
-/

set_option autoImplicit false

namespace Playlists

/-! ## One action -/

/-- The same rows were removed, in whatever order. -/
inductive Answer.SameRows : Answer → Answer → Prop where
  | intro {gone gone' : List String} (h : gone.Perm gone') : SameRows (.rows gone) (.rows gone')

namespace Action

/-- The paths that an action may bring to the rows as they were given to it. -/
def added : Action → List Path
  | insert paths => paths
  | rekey moves => moves.map Move.new
  | insertTree _ tree => tree.paths
  | updateTree _ tree _ => tree.paths
  | _ => []

/-- Every position that was given to an action fits into a machine word. -/
def Storable (action : Action) : Prop :=
  ∀ p ∈ action.added, p.position < UInt64.size

instance (action : Action) : Decidable action.Storable :=
  inferInstanceAs (Decidable (∀ p ∈ action.added, p.position < UInt64.size))

/-- What the answers of two media to an action have to do with each other. -/
def SameAnswer : Action → Answer → Answer → Prop
  | removeItem _ => Answer.SameRows
  | removeUnder _ => Answer.SameRows
  | _ => Eq

theorem work_twin (d d' : Dialect) {playlist : String} {action : Action} (h : action.Storable) :
    Twin d d' playlist action.SameAnswer (action.work ⟨d, .never⟩ playlist)
      (action.work ⟨d', .never⟩ playlist) := by
  -- The two duplicate texts are the only difference in outcomes, and the report orders in answers.
  cases action with
  | lock => exact .pure rfl
  | rows => exact .answer .rows fun _ _ => congrArg Answer.rows
  | rowsUnder lead => exact .answer (.rowsUnder lead) fun _ _ => congrArg Answer.rows
  | insert paths => exact .answer (.write h) fun _ _ _ => rfl
  | rekey moves => exact .answer (.write h) fun _ _ _ => rfl
  | removeItem item => exact .answer (.removeItem item) fun _ _ => .intro
  | removeUnder lead => exact .answer (.removeUnder lead) fun _ _ => .intro
  | lastPosition parent => exact .answer (.lastPosition parent) fun _ _ => congrArg Answer.position
  | pointsAt kind item => exact .answer (.pointsAt kind item) fun _ _ => congrArg Answer.flag
  | clear => exact .answer .clear fun _ _ => congrArg Answer.count
  | removeSubtree item => exact .answer (.removeSubtree item) fun _ _ => congrArg Answer.count
  | append parent kind item =>
    exact .answer (.append parent kind item) fun _ _ => congrArg Answer.path
  | insertTree full tree =>
    exact .answer (.insertAll (.forTree playlist full) h) fun _ _ => congrArg Answer.count
  | updateTree full tree moves =>
    exact .answer (.updateAll (.forTree playlist full) h moves) fun _ _ => congrArg Answer.count

end Action

/-! ## Stores with the same rows -/

/-- Two stores hold the same rows of every playlist, and all of them can be read. -/
structure Store.Matches (s s' : Store) : Prop where
  rows : ∀ playlist, s.rows playlist = s'.rows playlist
  readable : ∀ playlist, (s.rows playlist).Readable

namespace Store

variable {s s' : Store}

theorem Matches.empty : Matches .empty .empty :=
  ⟨fun _ => rfl, fun _ _ hrow => absurd hrow KeyedList.mem_empty⟩

theorem Matches.withRows (h : s.Matches s') (playlist : String) {rows : Rows}
    (hrows : rows.Readable) :
    (s.withRows playlist rows).Matches (s'.withRows playlist rows) := by
  refine ⟨fun other => ?_, fun other => ?_⟩
  · by_cases hsame : other = playlist
    · rw [hsame, rows_withRows_self, rows_withRows_self]
    · rw [rows_withRows_of_ne s rows hsame, rows_withRows_of_ne s' rows hsame, h.rows]
  · by_cases hsame : other = playlist
    · rw [hsame, rows_withRows_self]
      exact hrows
    · rw [rows_withRows_of_ne s rows hsame]
      exact h.readable other

end Store

/-! ## Transactions in memory and in a table -/

/-- An order in which removed rows may be reported. -/
abbrev ReportOrder :=
  {report : List String → List String // ∀ rows, (report rows).Perm rows}

/-- A dialect that reports removed rows in another order. -/
def Dialect.inOrder (d : Dialect) (order : ReportOrder) : Dialect :=
  { d with report := order.1, report_perm := order.2 }

/-- Actions on playlists, each with the order that a table chooses for its report. -/
abbrev Actions := List (ReportOrder × String × Action)

namespace Actions

/-- Every position that was given to an action fits into a machine word. -/
def Storable (actions : Actions) : Prop :=
  ∀ a ∈ actions, a.2.2.Storable

instance (actions : Actions) : Decidable actions.Storable :=
  inferInstanceAs (Decidable (∀ a ∈ actions, a.2.2.Storable))

/-- Actions with a medium for each, which never fails of its own. -/
def on (medium : ReportOrder → Dialect) (actions : Actions) : List (Backend × String × Action) :=
  actions.map fun (order, action) => (⟨medium order, .never⟩, action)

end Actions

/-- Actions that make up a transaction, and whether all is kept or dropped in the end. -/
structure Script where
  actions : Actions
  commit : Bool

/-- Does transactions one after another. Each is listed with its steps and the store after it. -/
def Store.play (medium : ReportOrder → Dialect) : List Script → Store → List (List Step × Store)
  | [], _ => []
  | script :: rest, s =>
    let (steps, next) := s.transactionOn (script.actions.on medium) script.commit
    (steps, next) :: play medium rest next

/-- One step in memory and in a table. -/
structure Step.Alike (playlist : String) (action : Action) (step step' : Step) : Prop where
  outcome : Tally (.duplicatePath · playlist) (fun _ => .duplicateRow) action.SameAnswer
    step.outcome step'.outcome
  staged : step.staged.Matches step'.staged

/-- The steps of one transaction in memory and in a table. -/
inductive StepsAlike : Actions → List Step → List Step → Prop where
  | nil : StepsAlike [] [] []
  | cons {order : ReportOrder} {playlist : String} {action : Action} {step step' : Step}
    {rest : Actions} {steps steps' : List Step} (first : step.Alike playlist action step')
    (others : StepsAlike rest steps steps') :
    StepsAlike ((order, playlist, action) :: rest) (step :: steps) (step' :: steps')

/-- What comes of a history of transactions in memory and in a table. -/
inductive PlaysAlike :
    List Script → List (List Step × Store) → List (List Step × Store) → Prop where
  | nil : PlaysAlike [] [] []
  | cons {script : Script} {steps steps' : List Step} {next next' : Store} {rest : List Script}
    {plays plays' : List (List Step × Store)} (alike : StepsAlike script.actions steps steps')
    (kept : next.Matches next') (others : PlaysAlike rest plays plays') :
    PlaysAlike (script :: rest) ((steps, next) :: plays) ((steps', next') :: plays')

namespace Session

variable {t t' : Session}

/-- An action ends as its work on the rows of its playlist does, and stages these rows. -/
theorem step_eq {backend : Backend} {playlist : String} {action : Action}
    {outcome : Except Failure Answer} {after : Rows}
    (h : action.work backend playlist (t.staged.rows playlist) = attempt outcome after) :
    t.step backend playlist action = ⟨outcome, t.stage playlist after⟩ := by
  rw [step, Action.work_eq_within]
  cases outcome with
  | ok answer => rw [within_of_ok h]
  | error failure => rw [within_of_error h]

theorem step_alike (h : t.staged.Matches t'.staged) (order : ReportOrder) (playlist : String)
    {action : Action} (hwords : action.Storable) :
    Step.Alike playlist action (t.step ⟨.memory, .never⟩ playlist action)
      (t'.step ⟨Dialect.relational.inOrder order, .never⟩ playlist action) := by
  obtain ⟨outcome, outcome', after, htally, hafter, hwork, hwork'⟩ :=
    Action.work_twin .memory (Dialect.relational.inOrder order) hwords (t.staged.rows playlist)
      (h.readable playlist)
  rw [step_eq hwork, step_eq (h.rows playlist ▸ hwork')]
  exact ⟨htally, h.withRows playlist hafter⟩

theorem stepsOn_alike (h : t.staged.Matches t'.staged) {actions : Actions}
    (hwords : actions.Storable) :
    StepsAlike actions (t.stepsOn (actions.on fun _ => .memory))
      (t'.stepsOn (actions.on Dialect.relational.inOrder)) := by
  induction actions generalizing t t' with
  | nil => exact .nil
  | cons a rest ih =>
    obtain ⟨haction, hrest⟩ := List.forall_mem_cons.1 hwords
    have hfirst := step_alike h a.1 a.2.1 haction
    -- The other actions begin on what the first has staged, whether or not it failed.
    exact .cons hfirst (ih hfirst.staged hrest)

theorem afterSteps_cons (t : Session) (step : Step) (steps : List Step) :
    t.afterSteps (step :: steps) = step.session.afterSteps steps := by
  rw [afterSteps, afterSteps, List.getLast?_cons]
  cases steps.getLast? with
  | none => rfl
  | some last => rfl

theorem staged_afterSteps {actions : Actions} {steps steps' : List Step}
    (h : t.staged.Matches t'.staged) (hsteps : StepsAlike actions steps steps') :
    (t.afterSteps steps).staged.Matches (t'.afterSteps steps').staged := by
  induction hsteps generalizing t t' with
  | nil => exact h
  | cons first others ih =>
    rw [afterSteps_cons, afterSteps_cons]
    exact ih first.staged

/-- No action commits anything. -/
theorem committed_step (backend : Backend) (playlist : String) (action : Action) (t : Session) :
    (t.step backend playlist action).session.committed = t.committed := by
  rw [step, Action.work_eq_within]
  cases hwork : action.work backend playlist (t.staged.rows playlist) with
  | ok answer rows =>
    rw [within_of_ok hwork]
    rfl
  | error failure rows =>
    rw [within_of_error hwork]
    rfl

theorem committed_afterSteps (actions : List (Backend × String × Action)) (t : Session) :
    (t.afterSteps (t.stepsOn actions)).committed = t.committed := by
  induction actions generalizing t with
  | nil => rfl
  | cons a rest ih =>
    rw [stepsOn, afterSteps_cons, ih, committed_step]

end Session

namespace Store

variable {s s' : Store}

open Session (fresh)

theorem stepsOn_fresh_alike (h : s.Matches s') {actions : Actions} (hwords : actions.Storable) :
    StepsAlike actions ((fresh s).stepsOn (actions.on fun _ => .memory))
      ((fresh s').stepsOn (actions.on Dialect.relational.inOrder)) :=
  Session.stepsOn_alike h hwords

theorem transactionOn_matches (h : s.Matches s') {actions : Actions} (hwords : actions.Storable)
    (commit : Bool) :
    (s.transactionOn (actions.on fun _ => .memory) commit).2.Matches
      (s'.transactionOn (actions.on Dialect.relational.inOrder) commit).2 := by
  rw [transactionOn, transactionOn]
  dsimp only
  cases commit with
  | false =>
    -- Of a dropped transaction nothing is kept, however far it came.
    rw [if_neg Bool.false_ne_true, if_neg Bool.false_ne_true, Session.committed_afterSteps,
      Session.committed_afterSteps]
    exact h
  | true =>
    -- What is kept is what the last step has staged.
    have hstaged : (fresh s).staged.Matches (fresh s').staged := h
    exact Session.staged_afterSteps hstaged (stepsOn_fresh_alike h hwords)

/-- **Memory and table are interchangeable.** Two stores with the same rows, all of which can be
read, go through every history of transactions alike, in whatever orders the table reports the rows
that it removes: every action is answered alike and stages the same rows, whether it succeeds or
fails, and every transaction keeps the same rows. Positions have to be machine words where they are
given to an action, since a row with a larger one cannot be read. -/
theorem play_alike (h : s.Matches s') {history : List Script}
    (hwords : ∀ script ∈ history, script.actions.Storable) :
    PlaysAlike history (s.play (fun _ => .memory) history)
      (s'.play Dialect.relational.inOrder history) := by
  induction history generalizing s s' with
  | nil => exact .nil
  | cons script rest ih =>
    rw [List.forall_mem_cons] at hwords
    have hkept := transactionOn_matches h hwords.1 script.commit
    exact .cons (stepsOn_fresh_alike h hwords.1) hkept (ih hkept hwords.2)

/-- Rows of a playlist with two others in it, one of them shared. -/
def nestedRows : Rows :=
  .ofList ["P.playlist.Q.1", "Q.track.A.1", "P.playlist.R.2", "R.playlist.Q.1", "R.track.B.2",
    "P.track.A.3"]

/-- A dropped transaction that removes all there is, and one that goes on after a repeated row, a
text that is no label and a text with a dot in it. -/
def mixedHistory : List Script :=
  let backwards : ReportOrder := ⟨List.reverse, List.reverse_perm⟩
  let paths := ["P.track.B.9", "P.track.A.3", "P.track.B.10"].filterMap Path.decode?
  [⟨[(backwards, "P", .removeUnder "P."), (backwards, "P", .clear)], false⟩,
    ⟨[(backwards, "P", .insert paths), (backwards, "P", .append "" .track "A"),
      (backwards, "P", .removeItem "P.track"), (backwards, "P", .removeItem "A"),
      (backwards, "P", .removeSubtree "R"), (backwards, "N", .lastPosition "P")], true⟩]

theorem play_alike_mixed :
    Matches (.withRows .empty "P" nestedRows) (.withRows .empty "P" nestedRows) ∧
      (∀ script ∈ mixedHistory, script.actions.Storable) ∧
      PlaysAlike mixedHistory
        (play (fun _ => .memory) mixedHistory (.withRows .empty "P" nestedRows))
        (play Dialect.relational.inOrder mixedHistory (.withRows .empty "P" nestedRows)) :=
  have h : Matches (.withRows .empty "P" nestedRows) (.withRows .empty "P" nestedRows) :=
    Matches.empty.withRows "P" (by decide +kernel)
  have hwords : ∀ script ∈ mixedHistory, script.actions.Storable := by decide +kernel
  ⟨h, hwords, play_alike h hwords⟩

end Store

end Playlists
