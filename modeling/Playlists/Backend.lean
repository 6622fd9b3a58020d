import Playlists.Tree.Numbering

/-!
# `Backend.lean` — what the media that hold rows may differ in

Rows can be held in memory or in a table of a database. Both keep the rows of a playlist as a set of
texts and list them in order, and on rows that are paths nobody can tell them apart: every dialect
carries the proof that it looks such rows up by their fields. What they do differently is collected
in a `Dialect`:

* in memory, a row is looked up by its fields; a table looks for the text of the field with the dots
  around it, anywhere in the row;
* in memory, a row is asked whether it begins with a text; a table cuts a piece off the row and
  compares that;
* in memory, all rows are gone through for the last position under a label; a table is asked for the
  rows under the label only;
* a row that is written twice is refused in different words;
* rows that are removed are reported in an order of the medium's choice.

A medium may also fail. `Faults` says at which writes it does and what it has done by then; a write
is a whole batch of rows, so a failure may leave any part of the batch written. Nothing else ever
fails for reasons of the medium.
-/

set_option autoImplicit false

namespace Playlists

/-! ## Dialects -/

/-- How a medium looks rows up and what it says of them. -/
structure Dialect where
  /-- Whether a row is taken for one of an item. -/
  isOfItem (item row : String) : Bool
  /-- Whether a row is taken for one of an item of a given kind. -/
  pointsAt (kind : Kind) (item row : String) : Bool
  /-- Whether a row is taken to begin with a text. -/
  isUnder (lead row : String) : Bool
  /-- Whether a row is fetched when the last position among the rows that begin with a text is looked
  for. -/
  searches (lead row : String) : Bool
  /-- The refusal of a row that is there already. -/
  repeated (path playlist : String) : Failure
  /-- The order in which removed rows are reported. -/
  report : List String → List String
  /-- A row that is a path is one of its item and of no other. -/
  isOfItem_text : ∀ (item : String) (p : Path), isOfItem item p.text = (p.item.text == item)
  /-- A row that is a path points at its item, as its kind says. -/
  pointsAt_text : ∀ (kind : Kind) (item : String) (p : Path),
    pointsAt kind item p.text = (p.kind == kind && p.item.text == item)
  /-- A row that is a path begins with the texts that it does begin with. -/
  isUnder_text : ∀ (lead : String) (p : Path), isUnder lead p.text = Text.hasPrefix lead p.text
  /-- No row that is a path is left out of a search that it belongs to. -/
  searches_text : ∀ (lead : String) (p : Path),
    Text.hasPrefix lead p.text = true → searches lead p.text = true
  /-- Every removed row is reported, and once. -/
  report_perm : ∀ rows, (report rows).Perm rows

namespace Dialect

/-- Rows in memory are looked up by their fields. -/
def memory : Dialect where
  isOfItem item row := (Text.fields row)[2]? == some item
  pointsAt kind item row :=
    (Text.fields row)[1]? == some kind.name && (Text.fields row)[2]? == some item
  isUnder := Text.hasPrefix
  searches _ _ := true
  repeated := .duplicatePath
  report rows := rows
  isOfItem_text item p := by
    rw [Path.fields_text]
    rfl
  pointsAt_text kind item p := by
    rw [Path.fields_text]
    show (p.kind.name == kind.name && p.item.text == item) = _
    rw [Kind.name_beq_name]
  isUnder_text _ _ := rfl
  searches_text _ _ _ := rfl
  report_perm _ := .refl _

/-- Rows of a table are looked up by a part of their text. Labels hold no dot, so on rows that are
paths the part can only be found at its place. They hold no null character either, which is where
a table stops counting the characters of a text. -/
def relational : Dialect where
  isOfItem item row :=
    Text.occursIn (".track." ++ item ++ ".") row || Text.occursIn (".playlist." ++ item ++ ".") row
  pointsAt kind item row := Text.occursIn ("." ++ kind.name ++ "." ++ item ++ ".") row
  isUnder := Text.beginsCut
  searches := Text.beginsCut
  repeated _ _ := .duplicateRow
  report rows := rows
  isOfItem_text item p := by
    have htrack := p.occursIn_text_iff (a := "track") (b := item) (by decide)
    have hplaylist := p.occursIn_text_iff (a := "playlist") (b := item) (by decide)
    rw [Bool.eq_iff_iff, Bool.or_eq_true, beq_iff_eq, eq_comm (a := p.item.text)]
    have hkind : "track" = p.kind.name ∨ "playlist" = p.kind.name := by
      cases p.kind
      · exact .inl rfl
      · exact .inr rfl
    refine (or_congr htrack hplaylist).trans ?_
    rw [← or_and_right]
    exact and_iff_right hkind
  pointsAt_text kind item p := by
    rw [Bool.eq_iff_iff, p.occursIn_text_iff kind.dot_not_mem_name, Kind.name_inj,
      Bool.and_eq_true, beq_iff_eq, beq_iff_eq, eq_comm (a := kind), eq_comm (a := item)]
  isUnder_text _ p := Text.beginsCut_eq_hasPrefix p.null_not_mem_text
  searches_text _ p h := (Text.beginsCut_eq_hasPrefix p.null_not_mem_text).trans h
  report_perm _ := .refl _

end Dialect

/-! ## Writes and their failures -/

/-- A batch of rows that is written at once. -/
inductive Write where
  | insert (paths : List Path)
  /-- Takes all old rows away, then adds all new ones. -/
  | rekey (moves : List Move)
  deriving DecidableEq

inductive RowChange where
  | add (path : Path)
  | remove (path : Path)
  deriving DecidableEq

namespace Write

/-- The changes of single rows that make up a batch, in the order they are done. -/
def changes : Write → List RowChange
  | insert paths => paths.map .add
  | rekey moves => moves.map (fun m => .remove m.old) ++ moves.map (fun m => .add m.new)

def added : Write → List Path
  | insert paths => paths
  | rekey moves => moves.map Move.new

end Write

/-- How a write breaks off: with some rows changed already, whichever they are. -/
structure Interruption where
  made : List RowChange
  failure : Failure

/-- Which writes of a medium break off. -/
abbrev Faults := Write → Option Interruption

namespace Faults

def never : Faults := fun _ => none

/-- A medium that refuses every write that would add an entry of a given item, before anything of
it is done. -/
def poisoned (item : String) : Faults := fun write =>
  if write.added.any (·.item.text == item) then some ⟨[], .refusedWrite "injected write failure"⟩
  else none

end Faults

/-- A medium: how it reads rows, and when it fails. -/
structure Backend where
  dialect : Dialect
  faults : Faults := .never

end Playlists
