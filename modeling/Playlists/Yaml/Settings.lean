import Playlists.Config
import Playlists.Failure
import Playlists.Yaml.Reader

/-!
# `Yaml/Settings.lean` — the settings of the service from a file

The settings are a mapping from their names to their values. A setting that is not named has its
default, a name that is no setting is passed over with whatever stands under it, and a setting must
not be named twice. Nothing is converted: a truth value and a number have to be written plainly, in
one of the spellings for them.

`Config.load` reads a file that may be missing or spoilt. A service has to start in any case, so
whatever is wrong with the file, it then runs with the defaults.
-/

set_option autoImplicit false

namespace Playlists

/-! ## Spellings -/

def Yaml.plain? : Yaml → Option String
  | .scalar ⟨true, text⟩ => some text
  | _ => none

/-- A truth value in lower case, in upper case, or capitalised. -/
def Yaml.bool? (value : Yaml) : Option Bool := do
  let text ← value.plain?
  if ["true", "True", "TRUE"].contains text then return true
  else if ["false", "False", "FALSE"].contains text then return false
  else none

def digitIn? (base : Nat) (c : Char) : Option Nat := do
  let value ← Text.hexValue? c
  if value < base then return value else none

def wordIn? (base : Nat) (digits : List Char) : Option UInt64 := do
  if digits.isEmpty then none
  else
    let n := (← digits.mapM (digitIn? base)).foldl (fun n digit => n * base + digit) 0
    if n < UInt64.size then return UInt64.ofNat n else none

/-- A machine word in decimal without leading zeros, or in one of three other bases behind a zero
and a letter. A plus sign may stand in front of either. -/
def wordOf? (spelling : List Char) : Option UInt64 :=
  let unsigned := match spelling with
    | '+' :: rest => rest
    | rest => rest
  match unsigned with
  | '0' :: 'x' :: digits => wordIn? 16 digits
  | '0' :: 'o' :: digits => wordIn? 8 digits
  | '0' :: 'b' :: digits => wordIn? 2 digits
  | ['0'] => some 0
  | '0' :: _ => none
  | digits => wordIn? 10 digits

def Yaml.isNull (value : Yaml) : Bool :=
  match value.plain? with
  | some text => ["", "null", "Null", "NULL", "~"].contains text
  | none => false

/-- A limit, or the statement that there is none. -/
def Yaml.limit? (value : Yaml) : Option (Option UInt64) :=
  if value.isNull then some none
  else do
    let text ← value.plain?
    return some (← wordOf? text.toList)

/-! ## Settings -/

/-- The settings that a mapping has named so far. -/
structure Named where
  rebalanceOnRemove : Option Bool := none
  lockPlaylists : Option Bool := none
  maxPlaylistItems : Option (Option UInt64) := none

namespace Named

/-- Takes one more pair of the mapping. -/
def add (named : Named) (pair : Yaml × Yaml) : Option Named := do
  match pair with
  | (.scalar name, value) =>
    match name.text with
    | "rebalance_on_remove" =>
      guard named.rebalanceOnRemove.isNone
      return { named with rebalanceOnRemove := some (← value.bool?) }
    | "lock_playlists" =>
      guard named.lockPlaylists.isNone
      return { named with lockPlaylists := some (← value.bool?) }
    | "max_playlist_items" =>
      guard named.maxPlaylistItems.isNone
      return { named with maxPlaylistItems := some (← value.limit?) }
    | _ => return named
  | _ => none

/-- The settings, with defaults for those that were not named. -/
def config (named : Named) : Config :=
  let default : Config := {}
  { rebalanceOnRemove := named.rebalanceOnRemove.getD default.rebalanceOnRemove
    lockPlaylists := named.lockPlaylists.getD default.lockPlaylists
    maxPlaylistItems := named.maxPlaylistItems.getD default.maxPlaylistItems }

end Named

namespace Config

/-- The settings in a document. A document in which nothing is written leaves all of them as they
are. -/
def ofYaml? : Yaml → Option Config
  | .mapping pairs => (pairs.foldlM Named.add {}).map Named.config
  | .scalar ⟨true, ""⟩ => some {}
  | _ => none

def ofText (text : String) : Except Failure Config :=
  match Yaml.parse? text with
  | some (some document) =>
    match ofYaml? document with
    | some config => .ok config
    | none => .error .unreadableConfig
  | some none => .ok {}
  | none => .error .unreadableConfig

/-- The settings in a file, of which there are bytes if it can be read at all. -/
def load (file : Option ByteArray) : Config :=
  match file.bind String.fromUTF8? with
  | some text =>
    match ofText text with
    | .ok config => config
    | .error _ => {}
  | none => {}

end Config

end Playlists
