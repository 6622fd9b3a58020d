import Playlists.Failure

/-!
# `Config.lean` — the settings of the service

Three settings: whether the entries that are left after a removal are renumbered, whether a
playlist is locked before it is changed, and how many rows a playlist may have, nested contents
included. A playlist without a limit may have any number of rows.

Locking changes no answer: a transaction holds the whole store to itself.
-/

set_option autoImplicit false

namespace Playlists

structure Config where
  rebalanceOnRemove : Bool := true
  lockPlaylists : Bool := true
  maxPlaylistItems : Option UInt64 := none
  deriving DecidableEq, Repr, Inhabited

namespace Config

/-- A playlist may have `n` rows. -/
def Allows (c : Config) (n : Nat) : Prop :=
  ∀ limit, c.maxPlaylistItems = some limit → n ≤ limit.toNat

theorem Allows.anti {c : Config} {m n : Nat} (h : c.Allows n) (hle : m ≤ n) : c.Allows m :=
  fun limit hlimit => Nat.le_trans hle (h limit hlimit)

/-- Refuses to let a playlist of `rows` rows grow by `added`, if there is a limit and it would be
past it. -/
def checkRoom (c : Config) (playlist : String) (rows added : Nat) : Except Failure Unit :=
  match c.maxPlaylistItems with
  | some limit =>
    if rows + added > limit.toNat then .error (.tooManyItems playlist limit.toNat) else .ok ()
  | none => .ok ()

theorem checkRoom_eq_ok_iff {c : Config} {playlist : String} {rows added : Nat} :
    c.checkRoom playlist rows added = .ok () ↔ c.Allows (rows + added) := by
  rw [checkRoom, Allows]
  cases c.maxPlaylistItems with
  | none => exact iff_of_true rfl fun _ h => (nomatch h)
  | some limit =>
    dsimp only
    constructor
    · intro h other heq
      cases heq
      refine Nat.le_of_not_lt fun hover => ?_
      rw [if_pos hover] at h
      cases h
    · intro h
      rw [if_neg (Nat.not_lt.2 (h limit rfl))]

end Config

end Playlists
