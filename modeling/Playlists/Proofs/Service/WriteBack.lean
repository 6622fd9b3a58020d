import Playlists.Proofs.Service.Answers

/-!
# `Proofs/Service/WriteBack.lean` — what is written is what was computed

The service does not write a changed tree as a whole. It takes away the rows that moved, puts them
back under their new paths, and adds those that are new. `Service.handle_writes_tree` says that the
rows are those of the whole tree all the same, from any sound rows: positions may have gaps, may
repeat and may be overwritten, and a new row may come to where another was.

Every refusal in the statement is one of the computation in memory, so the writing itself is never
refused: no row is missing when it is to go, and none is in the way of one that comes.
-/

set_option autoImplicit false

namespace Playlists

/-- **Write-back is exact.** A batch, a new order and a removal leave the rows of the tree that was
computed in memory, or are refused there and leave all as it was. -/
theorem Service.handle_writes_tree (d : Dialect) (config : Config) (playlist : Label) {s : Store}
    (h : (s.rows playlist.text).Readable)
    (hr : Rooted playlist.text (s.rows playlist.text).paths) :
    (∀ items explicit rebalance,
      handle ⟨d, .never⟩ config (.addItems playlist.text items explicit rebalance) s
        = s.answer playlist.text ((Operation.enlarge config playlist items explicit rebalance
            (s.rows playlist.text).tree).map (.map .paths id))) ∧
    (∀ items,
      handle ⟨d, .never⟩ config (.setOrder playlist.text items) s
        = s.answer playlist.text ((Operation.rearrange playlist items
            (s.rows playlist.text).tree).map (.map (fun _ => .done) id))) ∧
    ∀ item,
      handle ⟨d, .never⟩ config (.removeItem playlist.text item) s
        = s.answer playlist.text ((Operation.reduce d config playlist item
            (s.rows playlist.text)).map (.map .count id)) := by
  refine ⟨fun items explicit rebalance => ?_, fun items => ?_, fun item => ?_⟩
  · exact handle_eq d h hr (r := .addItems playlist.text items explicit rebalance) rfl
  · exact handle_eq d h hr (r := .setOrder playlist.text items) rfl
  · exact handle_eq d h hr (r := .removeItem playlist.text item) rfl

/-- A playlist with gaps, with two entries at one position and with a nested entry at the last
position there is. -/
def gappedStore : Store :=
  Store.seed .empty "P" ["P.playlist.Q.3", "P.track.A.3", "P.track.B.9", "Q.track.C.0",
    "Q.track.A.18446744073709551615"]

/-- The name of that playlist. -/
def gappedName : Label where
  text := "P"
  nonempty := by decide
  wellFormed := by
    intro c hc
    have hc : c ∈ ['P'] := hc
    rw [List.mem_singleton.1 hc]
    rfl

theorem Service.handle_writes_tree_gapped :
    (gappedStore.rows gappedName.text).Readable ∧
      Rooted gappedName.text (gappedStore.rows gappedName.text).paths ∧
      handle ⟨.memory, .never⟩ {} (.setOrder gappedName.text ["B"]) gappedStore
        = gappedStore.answer gappedName.text ((Operation.rearrange gappedName ["B"]
            (gappedStore.rows gappedName.text).tree).map (.map (fun _ => .done) id)) :=
  have h : (gappedStore.rows gappedName.text).Readable := by decide +kernel
  have hr : Rooted gappedName.text (gappedStore.rows gappedName.text).paths := by decide +kernel
  ⟨h, hr, (handle_writes_tree .memory {} gappedName h hr).2.1 ["B"]⟩

end Playlists
