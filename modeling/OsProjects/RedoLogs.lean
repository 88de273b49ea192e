import Mathlib.Data.List.Basic
import Mathlib.Logic.Function.Basic

/-!
Redo logs. An entry names a block and the data it gets; replaying a log writes
its entries over a store. A log whose blocks are distinct can be replayed over a
store that already has some of its entries, which is what recovery relies on.
-/

namespace OsProjects.RedoLogs

variable {Block Data : Type} [DecidableEq Block]

def replay (entries : List (Block × Data)) (store : Block → Data) : Block → Data :=
  entries.foldl (fun store entry => Function.update store entry.1 entry.2) store

theorem replay_cons (entry : Block × Data) (rest : List (Block × Data)) (store : Block → Data) :
    replay (entry :: rest) store = replay rest (Function.update store entry.1 entry.2) := rfl

variable {entries : List (Block × Data)}

theorem replay_of_not_mem {block : Block}
    (other : block ∉ entries.map Prod.fst) (store : Block → Data) :
    replay entries store block = store block := by
  induction entries generalizing store with
  | nil => rfl
  | cons entry rest ih =>
    rw [List.map_cons, List.mem_cons, not_or] at other
    rw [replay_cons, ih other.2, Function.update_of_ne other.1]

/-- With distinct blocks each entry is what its block holds in the end. -/
theorem replay_of_mem (distinct : (entries.map Prod.fst).Nodup)
    {block : Block} {data : Data} (member : (block, data) ∈ entries) (store : Block → Data) :
    replay entries store block = data := by
  induction entries generalizing store with
  | nil => exact absurd member List.not_mem_nil
  | cons entry rest ih =>
    rw [List.map_cons, List.nodup_cons] at distinct
    rw [replay_cons]
    rcases List.mem_cons.mp member with rfl | later
    · rw [replay_of_not_mem distinct.1, Function.update_self]
    · exact ih distinct.2 later _

/-- What the replay leaves at a block depends on the store only off the log. -/
theorem replay_congr (distinct : (entries.map Prod.fst).Nodup)
    {store store' : Block → Data} {block : Block}
    (same : block ∉ entries.map Prod.fst → store block = store' block) :
    replay entries store block = replay entries store' block := by
  by_cases logged : block ∈ entries.map Prod.fst
  · obtain ⟨entry, member, rfl⟩ := List.mem_map.mp logged
    rw [replay_of_mem distinct member, replay_of_mem distinct member]
  · rw [replay_of_not_mem logged, replay_of_not_mem logged, same logged]

theorem replay_update (distinct : (entries.map Prod.fst).Nodup)
    {block : Block} {data : Data} (logged : block ∈ entries.map Prod.fst) (store : Block → Data) :
    replay entries (Function.update store block data) = replay entries store := by
  funext other
  refine replay_congr distinct fun absent => ?_
  rw [Function.update_of_ne]
  rintro rfl
  exact absent logged

end OsProjects.RedoLogs
