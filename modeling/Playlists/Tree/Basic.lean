import Playlists.KeyedList
import Playlists.Node
import Playlists.Position

/-!
# `Tree/Basic.lean` — the entries of one playlist in memory

A tree holds the entries of a playlist and of everything nested in it, keyed and ordered by the
text of their paths, which is the order of the stored rows. Each entry carries a node. An entry
that was read from a row carries the node of its path; `validate` finds the entries that do not.

The children of a playlist are the entries whose path begins with its label and a dot. They stand
next to each other, so `childrenOf` skips what is before them and takes what follows as long as it
begins right. Siblings are played in another order than they are stored in: by position as a
number, and by path where positions are equal. `siblings` lists them so.
-/

set_option autoImplicit false

namespace Playlists

/-- A path and what is known of the entry under it. -/
structure Entry where
  path : Path
  node : Node
  deriving DecidableEq

namespace Entry

/-- Entries are kept by the text of their path. -/
def key (e : Entry) : String :=
  e.path.text

def ofPath (p : Path) : Entry :=
  ⟨p, Node.ofPath p⟩

def agrees (e : Entry) : Bool :=
  e.node.agrees e.path

/-- Refuses an entry whose node disagrees with its path. -/
def validate (e : Entry) : Except Failure Unit :=
  if e.agrees then .ok ()
  else
    .error (.misplacedNode e.node.kind e.node.id e.node.position e.node.parentId e.path.text)

def withPosition (e : Entry) (position : Nat) : Entry :=
  ⟨e.path.withPosition position, { e.node with position }⟩

/-- Whether an entry comes no later than another among siblings: positions are compared as numbers
first, paths where they are equal. -/
def notAfter (a b : Entry) : Bool :=
  a.node.position < b.node.position ||
    a.node.position == b.node.position && decide (a.key ≤ b.key)

end Entry

/-- A set of texts, listed in their order. -/
abbrev Texts := KeyedList String id

/-- The entries of a playlist with everything nested in it. -/
abbrev Tree := KeyedList Entry Entry.key

namespace Tree

/-! ## Reading rows -/

/-- Adds the entries that rows stand for. All rows are read before the first entry is added, so a row
that cannot be read leaves the tree as it was. -/
def fill (rows : List String) : EStateM Failure Tree Unit := do
  match rows.mapM Path.decode with
  | .ok paths => modify fun t => t.putAll (paths.map Entry.ofPath)
  | .error failure => throw failure

def ofRows (rows : List String) : Except Failure Tree :=
  match fill rows .empty with
  | .ok _ t => .ok t
  | .error failure _ => .error failure

def ofPaths (paths : List Path) : Tree :=
  .ofList (paths.map Entry.ofPath)

/-! ## Looking at entries -/

def paths (t : Tree) : List Path :=
  t.toList.map Entry.path

def rows (t : Tree) : List String :=
  t.toList.map Entry.key

def entryAt? (t : Tree) (p : Path) : Option Entry :=
  t.find? p.text

/-- The direct children of the playlist with a given label, in the order of their rows. -/
def childrenOf (t : Tree) (label : String) : List Entry :=
  -- The rows between the prefix and the last child all begin with the prefix.
  (t.toList.dropWhile fun e => decide (e.key < Path.childPrefix label)).takeWhile fun e =>
    Text.hasPrefix (Path.childPrefix label) e.key

/-- The direct children of a playlist in the order they are played. -/
def siblings (t : Tree) (label : String) : List Entry :=
  (t.childrenOf label).mergeSort Entry.notAfter

def maxChildPosition (t : Tree) (label : String) : Option Nat :=
  ((t.childrenOf label).map fun e => e.node.position).max?

/-- The paths of all entries of an item, under whichever playlist. -/
def pathsOf (t : Tree) (item : String) : List Path :=
  t.paths.filter (·.item.text == item)

/-- Whether a nested playlist has an entry in the tree. -/
def nests (t : Tree) (label : String) : Bool :=
  (t.pathsOf label).any (·.kind == .playlist)

/-- The labels that entries of this playlist may stand under: the playlist and everything that is
nested in it. -/
def knownRoots (t : Tree) (playlist : String) : Texts :=
  .ofList (playlist :: (t.toList.filter (·.node.kind == .playlist)).map (·.node.id))

/-- Refuses a tree in which some node disagrees with its path. The first such entry is reported. -/
def validate (t : Tree) : Except Failure Unit :=
  t.toList.forM Entry.validate

/-- Does something with each entry in the order of the rows, until one of them fails. -/
def forEach {m : Type → Type} [Monad m] (t : Tree) (f : Entry → m Unit) : m Unit :=
  t.toList.forM f

end Tree

end Playlists
