/-!
# `Kind.lean` — what an entry points at

An entry of a playlist is a track, which is played, or another playlist, whose entries are played
in its place. The two names below are the ones that stand in stored rows and in requests; no other
spelling is read.
-/

set_option autoImplicit false

namespace Playlists

/-- What an entry of a playlist points at. Tracks come before playlists in the order of kinds. -/
inductive Kind where
  | track
  | playlist
  deriving DecidableEq, Ord, Repr

namespace Kind

/-- The name of a kind in rows and requests. -/
def name : Kind → String
  | track => "track"
  | playlist => "playlist"

def ofName? (s : String) : Option Kind :=
  if s = "track" then some track
  else if s = "playlist" then some playlist
  else none

@[simp] theorem ofName?_name (k : Kind) : ofName? k.name = some k := by
  cases k <;> decide

theorem ofName?_eq_some_iff {s : String} {k : Kind} : ofName? s = some k ↔ s = k.name := by
  constructor
  · intro h
    unfold ofName? at h
    split at h
    · cases h; assumption
    · split at h
      · cases h; assumption
      · cases h
  · rintro rfl
    exact ofName?_name k

theorem name_inj {j k : Kind} : j.name = k.name ↔ j = k := by
  cases j <;> cases k <;> decide

theorem name_beq_name (j k : Kind) : (j.name == k.name) = (j == k) := by
  cases j <;> cases k <;> decide

theorem dot_not_mem_name (k : Kind) : '.' ∉ k.name.toList := by
  cases k <;> decide

end Kind

end Playlists
