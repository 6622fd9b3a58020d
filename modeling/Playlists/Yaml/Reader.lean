import Playlists.Yaml.Token

/-!
# `Yaml/Reader.lean` — the value of a settings document

Tokens are put together by a grammar with one function for each kind of collection. Where a node may
be left out, the token that follows shows that it was, and an empty plain scalar stands in its
place. A sequence that is the value of a key may be written without being indented; nothing marks
its end then but the token behind it.

A text holds one document at most. Behind it there may be marks of its end and nothing else.
-/

set_option autoImplicit false

namespace Playlists.Yaml

/-- Whether the node of an item was left out, given what follows the hyphen. -/
def lacksItem : List Token → Bool
  | .entry :: _ | .blockEnd :: _ => true
  | _ => false

/-- Whether the node of an item of a sequence that is not indented was left out. -/
def lacksBareItem : List Token → Bool
  | .entry :: _ | .key :: _ | .value :: _ | .blockEnd :: _ => true
  | _ => false

/-- Whether a key or a value of a block mapping was left out. -/
def lacksPart : List Token → Bool
  | .key :: _ | .value :: _ | .blockEnd :: _ => true
  | _ => false

/-- Whether a key in a flow collection was left out. -/
def lacksFlowKey (close : Token) : List Token → Bool
  | t :: _ => t = .value || t = .comma || t = close
  | [] => false

/-- Whether a value in a flow collection was left out, given what follows its colon. -/
def lacksFlowValue (close : Token) : List Token → Bool
  | t :: _ => t = .comma || t = close
  | [] => false

mutual

/-- A node. A block collection can only stand in a block, and a sequence that is not indented only
as a part of a block mapping. -/
def node (inBlock inMapping : Bool) (ts : List Token) : Option (Yaml × List Token) :=
  match ts with
  | .scalar s :: rest => some (.scalar s, rest)
  | .openSequence :: rest => flowItems [] rest
  | .openMapping :: rest => flowPairs [] rest
  | .blockSequence :: rest => if inBlock then blockItems [] rest else none
  | .blockMapping :: rest => if inBlock then blockPairs [] rest else none
  | .entry :: rest => if inMapping then bareItems [] rest else none
  | _ => none
termination_by 3 * ts.length

/-- A node, or nothing where it was left out. -/
def nodeUnless (lacks : List Token → Bool) (inBlock inMapping : Bool) (ts : List Token) :
    Option (Yaml × List Token) :=
  if lacks ts then some (nothing, ts) else node inBlock inMapping ts
termination_by 3 * ts.length + 1

def blockItems (done : List Yaml) (ts : List Token) : Option (Yaml × List Token) :=
  match ts with
  | .blockEnd :: rest => some (.sequence done.reverse, rest)
  | .entry :: behind => do
    let (item, rest) ← nodeUnless lacksItem true false behind
    -- No node takes tokens backwards; the comparison is there for the recursion to end by.
    if rest.length ≤ behind.length then blockItems (item :: done) rest else none
  | _ => none
termination_by 3 * ts.length

def bareItems (done : List Yaml) (ts : List Token) : Option (Yaml × List Token) := do
  match ← nodeUnless lacksBareItem true false ts with
  | (item, .entry :: rest) =>
    if rest.length < ts.length then bareItems (item :: done) rest else none
  | (item, rest) => some (.sequence (item :: done).reverse, rest)
termination_by 3 * ts.length + 2

def blockPairs (done : List (Yaml × Yaml)) (ts : List Token) : Option (Yaml × List Token) :=
  match ts with
  | .blockEnd :: rest => some (.mapping done.reverse, rest)
  | .key :: behind => do
    match ← nodeUnless lacksPart true true behind with
    | (key, .value :: rest) =>
      if rest.length < behind.length then
        let (value, behindValue) ← nodeUnless lacksPart true true rest
        if behindValue.length ≤ rest.length then blockPairs ((key, value) :: done) behindValue
        else none
      else none
    | (key, rest) =>
      if rest.length ≤ behind.length then blockPairs ((key, nothing) :: done) rest else none
  | _ => none
termination_by 3 * ts.length

/-- The value of a pair in a flow collection, behind the key. -/
def flowValue (close : Token) (ts : List Token) : Option (Yaml × List Token) :=
  match ts with
  | .value :: rest => nodeUnless (lacksFlowValue close) false false rest
  | _ => some (nothing, ts)
termination_by 3 * ts.length

/-- A pair of a flow mapping, behind the token of its key. -/
def flowPair (ts : List Token) : Option ((Yaml × Yaml) × List Token) := do
  let (key, rest) ← nodeUnless (lacksFlowKey .closeMapping) false false ts
  if rest.length ≤ ts.length then
    let (value, rest) ← flowValue .closeMapping rest
    return ((key, value), rest)
  else none
termination_by 3 * ts.length + 2

/-- The pair that an item of a flow sequence is, behind the token of its key. Where the key was left
out, the token that shows it stands for the key and is used up, even if it is the comma or the
closing mark. -/
def itemPair (ts : List Token) : Option ((Yaml × Yaml) × List Token) := do
  match ts with
  | [] => none
  | first :: behind =>
    let (key, rest) ←
      if lacksFlowKey .closeSequence (first :: behind) then pure (nothing, behind)
      else node false false (first :: behind)
    if rest.length ≤ behind.length then
      let (value, rest) ← flowValue .closeSequence rest
      return ((key, value), rest)
    else none
termination_by 3 * ts.length + 2

/-- The items of a flow sequence. A pair may be an item; it is a mapping by itself then. -/
def flowItems (done : List Yaml) (ts : List Token) : Option (Yaml × List Token) := do
  match ts with
  | [] => none
  | .closeSequence :: rest => some (.sequence done.reverse, rest)
  | first :: behind =>
    let (item, rest) ← match first with
      | .key => do
        let (pair, rest) ← itemPair behind
        pure (Yaml.mapping [pair], rest)
      | _ => node false false (first :: behind)
    match rest with
    | .closeSequence :: rest => some (.sequence (item :: done).reverse, rest)
    | .comma :: rest =>
      if rest.length ≤ behind.length then flowItems (item :: done) rest else none
    | _ => none
termination_by 3 * ts.length + 1

/-- The pairs of a flow mapping. A node by itself is a key without a value. -/
def flowPairs (done : List (Yaml × Yaml)) (ts : List Token) : Option (Yaml × List Token) := do
  match ts with
  | [] => none
  | .closeMapping :: rest => some (.mapping done.reverse, rest)
  | first :: behind =>
    let (pair, rest) ← match first with
      | .key => flowPair behind
      | _ => do
        let (key, rest) ← node false false (first :: behind)
        pure ((key, nothing), rest)
    match rest with
    | .closeMapping :: rest => some (.mapping (pair :: done).reverse, rest)
    | .comma :: rest =>
      if rest.length ≤ behind.length then flowPairs (pair :: done) rest else none
    | _ => none
termination_by 3 * ts.length + 1

end

/-- The node of a document that has been started by a mark. It may be left out. -/
def startedDocument (ts : List Token) : Option (Yaml × List Token) :=
  match ts with
  | [] | .documentStart :: _ | .documentEnd :: _ => some (nothing, ts)
  | _ => node true false ts

/-- The document that tokens make, or nothing if there is none. -/
def document? (ts : List Token) : Option (Option Yaml) := do
  match ts with
  | [] => some none
  | _ =>
    let (root, rest) ← match ts with
      | .documentStart :: rest => startedDocument rest
      | _ => node true false ts
    if rest.all (· == .documentEnd) then some (some root) else none

/-- The document of a text. The outer option says whether the text can be read, the inner one
whether there is a document in it. -/
def parse? (s : String) : Option (Option Yaml) := do
  document? (← tokens? s)

end Playlists.Yaml
