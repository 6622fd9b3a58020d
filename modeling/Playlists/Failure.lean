import Playlists.Kind
import Playlists.Text.Quoted

/-!
# `Failure.lean` — why an operation is refused

Every refusal has a cause, and `Failure` is the list of causes. A cause carries the texts and
numbers that its message needs and nothing else, so two operations fail alike exactly when their
causes are equal. What a cause means to the outside is decided once, by its `Category`: the first
words of the message, the status that a caller over the network receives, and the sentence that may
be shown to somebody who must not see the details of the store.

The causes fall into three groups. Rows that cannot be read and trees that contradict themselves
mean that the store holds what nobody should have written; they are faults of the service and their
public sentence says no more than that. A failed write is a fault of the store. A request that
names something absent or asks for something impossible is a fault of the request.
-/

set_option autoImplicit false

namespace Playlists

/-! ## Categories -/

/-- What a cause means to a caller. -/
inductive Category where
  | invalidPathFormat
  | emptyTree
  | unexpectedValueType
  | unexpectedKeyType
  | storage
  | unknownItem
  | invalidOperation
  deriving DecidableEq, Repr

namespace Category

/-- The full message of a cause in this category. There is nothing more to say of an empty tree, so
its detail is dropped. -/
def message (detail : String) : Category → String
  | invalidPathFormat => "invalid path format: " ++ detail
  | emptyTree => "tree is empty, nothing to sync"
  | unexpectedValueType => "unexpected value type: " ++ detail
  | unexpectedKeyType => "unexpected key type: " ++ detail
  | storage => "storage error: " ++ detail
  | unknownItem => "unknown item: " ++ detail
  | invalidOperation => "invalid operation: " ++ detail

/-- The status of an answer over the network: something absent, something impossible, or a fault
that is not the caller's. -/
def status : Category → Nat
  | unknownItem => 404
  | invalidOperation => 400
  | _ => 500

/-- The sentence that may be shown to an end user. It never depends on the detail, so nothing that
is stored can leak through it. -/
def publicMessage : Category → String
  | unknownItem => "item not found in playlist"
  | invalidOperation => "invalid playlist request"
  | emptyTree => "failed to update playlist"
  | invalidPathFormat | unexpectedValueType | unexpectedKeyType => "failed to load playlist"
  | storage => "failed to update playlist in database"

end Category

/-! ## Causes -/

/-- Why an operation is refused. Paths appear by their text. -/
inductive Failure where
  /-- A label without a character. -/
  | emptyLabel
  /-- The first character of a label that no label may hold. -/
  | badLabelCharacter (label : String) (character : Char)
  /-- A row that does not have four fields. -/
  | fieldCount (row : String)
  | unknownKind (name : String)
  /-- A position that is no canonical decimal numeral. -/
  | badPosition (digits row : String)
  /-- A position that does not fit into a machine word. -/
  | positionOverflow (row : String)
  /-- There is nothing to write. -/
  | nothingToWrite
  /-- A node that is stored under a path it does not agree with. -/
  | misplacedNode (kind : Kind) (id : String) (position : Nat) (parent path : String)
  /-- A path whose root is neither the playlist nor nested in it. -/
  | foreignRoot (path playlist : String)
  /-- A change of path that would alter more than the position. -/
  | changedIdentity (old new : String)
  | notAChild (path parent : String)
  /-- A row that is written twice. -/
  | duplicatePath (path playlist : String)
  /-- A row that is written twice, in the words of a relational table. -/
  | duplicateRow
  | missingPath (path playlist : String)
  /-- A write that the medium refuses for a reason of its own. -/
  | refusedWrite (reason : String)
  | unknownParent (parent playlist : String)
  | notPartOf (item playlist : String)
  /-- A path that is not in the tree. -/
  | unknownPath (path : String)
  | noPositionLeft (last : Nat) (parent : String)
  /-- A playlist that would contain itself. -/
  | cyclicNesting (item parent playlist : String)
  | orderLength (parent : String) (given expected : Nat)
  | listedTooOften (item playlist : String)
  | tooManyItems (playlist : String) (limit : Nat)
  /-- A configuration document that cannot be read. -/
  | unreadableConfig
  deriving DecidableEq, Repr

namespace Failure

def category : Failure → Category
  | emptyLabel | badLabelCharacter .. | fieldCount .. | unknownKind .. | badPosition ..
  | positionOverflow .. => .invalidPathFormat
  | nothingToWrite => .emptyTree
  | misplacedNode .. => .unexpectedValueType
  | foreignRoot .. | changedIdentity .. | notAChild .. => .unexpectedKeyType
  | duplicatePath .. | duplicateRow | missingPath .. | refusedWrite .. => .storage
  | unknownParent .. | notPartOf .. | unknownPath .. => .unknownItem
  | noPositionLeft .. | cyclicNesting .. | orderLength .. | listedTooOften .. | tooManyItems ..
  | unreadableConfig => .invalidOperation

/-- What a cause has to say beyond its category. -/
def detail : Failure → String
  | emptyLabel => "empty label"
  | badLabelCharacter label c =>
    "label " ++ Text.quoted label ++ " contains invalid character " ++ Text.quotedAlone c
  | fieldCount row => row
  | unknownKind name => "unknown item type: " ++ name
  | badPosition digits row => "invalid position " ++ Text.quoted digits ++ " in " ++ row
  | positionOverflow row => "position overflow in " ++ row
  | nothingToWrite => ""
  | misplacedNode kind id position parent path =>
    "node " ++ kind.name ++ ":" ++ id ++ "@" ++ toString position ++ " (parent " ++ parent
      ++ ") stored under " ++ path
  | foreignRoot path playlist => path ++ " does not belong to playlist " ++ playlist
  | changedIdentity old new => old ++ " cannot be re-keyed to " ++ new
  | notAChild path parent => path ++ " is not a child of " ++ parent
  | duplicatePath path playlist => "duplicate path " ++ path ++ " in playlist " ++ playlist
  | duplicateRow =>
    "UNIQUE constraint failed: playtree_paths.playlist_id, playtree_paths.path"
  | missingPath path playlist => "missing path " ++ path ++ " in playlist " ++ playlist
  | refusedWrite reason => reason
  | unknownParent parent playlist =>
    "parent playlist " ++ parent ++ " is not part of " ++ playlist
  | notPartOf item playlist => item ++ " is not part of " ++ playlist
  | unknownPath path => path
  | noPositionLeft last parent =>
    "no position left after " ++ toString last ++ " under " ++ parent
  | cyclicNesting item parent playlist =>
    "playlist " ++ item ++ " cannot be nested inside " ++ parent ++ " of " ++ playlist
  | orderLength parent given expected =>
    "reorder of " ++ parent ++ " lists " ++ toString given ++ " entries, expected "
      ++ toString expected
  | listedTooOften item playlist =>
    item ++ " is listed more often than it occurs in " ++ playlist
  | tooManyItems playlist limit =>
    "playlist " ++ playlist ++ " would exceed " ++ toString limit ++ " items"
  | unreadableConfig => "invalid engine config"

/-- The full message of a cause. -/
def message (f : Failure) : String :=
  f.category.message f.detail

/-- Two steps in a row succeed exactly when each of them does. -/
theorem bind_eq_ok_iff {α β : Type} {first : Except Failure α} {next : α → Except Failure β}
    {b : β} : (first >>= next) = .ok b ↔ ∃ a, first = .ok a ∧ next a = .ok b := by
  constructor
  · intro h
    cases first with
    | error failure => cases h
    | ok a => exact ⟨a, rfl, h⟩
  · rintro ⟨a, rfl, h⟩
    exact h

end Failure

end Playlists
