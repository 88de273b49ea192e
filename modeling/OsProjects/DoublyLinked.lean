import Mathlib.Logic.Function.Basic
import OsProjects.Rings

/-!
Circular doubly linked lists. `next` spells a ring and `prev` leads back along it;
a node is linked in behind another and linked out with the usual assignments.
-/

namespace OsProjects.DoublyLinked

open Rings Function List

variable {Node : Type}

structure Links (Node : Type) where
  next : Node → Node
  prev : Node → Node

structure Linked (links : Links Node) (nodes : List Node) : Prop where
  ring : Ring links.next nodes
  distinct : nodes.Nodup
  back : ∀ node ∈ nodes, links.prev (links.next node) = node

variable {links : Links Node}

theorem Linked.rotate {front back : List Node} (linked : Linked links (front ++ back)) :
    Linked links (back ++ front) :=
  ⟨linked.ring.rotate, nodup_append_comm.mp linked.distinct,
    fun node here => linked.back node (mem_append.mpr (mem_append.mp here).symm)⟩

theorem path_reverse {next prev : Node → Node} {first last : Node} {inner : List Node}
    (path : Path next first inner last) (back : ∀ node ∈ first :: inner, prev (next node) = node) :
    Path prev last inner.reverse first := by
  induction inner generalizing first with
  | nil =>
    rw [← show next first = last from path]
    exact back first mem_cons_self
  | cons second inner ih =>
    rw [reverse_cons]
    refine (path_append last first second inner.reverse []).mpr ⟨?_, ?_⟩
    · exact ih path.2 fun node here => back node (mem_cons_of_mem _ here)
    · change prev second = first
      rw [← path.1]
      exact back first mem_cons_self

theorem Linked.reverse {first : Node} {rest : List Node} (linked : Linked links (first :: rest)) :
    Ring links.prev (first :: rest.reverse) :=
  path_reverse linked.ring linked.back

section Changes
variable [DecidableEq Node]

def Links.unlink (links : Links Node) (node : Node) : Links Node :=
  let links := { links with
    prev := update links.prev (links.next node) (links.prev node) }
  { links with next := update links.next (links.prev node) (links.next node) }

/-- `node->next = first->next; node->prev = first; first->next->prev = node;
first->next = node`. -/
def Links.insert (links : Links Node) (first node : Node) : Links Node :=
  let links := { links with next := update links.next node (links.next first) }
  let links := { links with prev := update links.prev node first }
  let links := { links with prev := update links.prev (links.next first) node }
  { links with next := update links.next first node }

theorem Linked.unlink_second {first node : Node} {rest : List Node}
    (linked : Linked links (first :: node :: rest)) : Linked (links.unlink node) (first :: rest) := by
  obtain ⟨fresh, apart⟩ := nodup_cons.mp linked.distinct
  obtain ⟨gone, apart⟩ := nodup_cons.mp apart
  have behind : links.next first = node := linked.ring.1
  have before : links.prev node = first := by
    rw [← behind]
    exact linked.back first mem_cons_self
  have member : node ∈ first :: node :: rest := mem_cons_of_mem _ mem_cons_self
  have differ : node ≠ first := fun same => fresh (same ▸ mem_cons_self)
  -- the successor is another node, so the first assignment leaves `node->prev` alone
  have onward : links.next node ≠ node := by
    intro same
    refine differ (linked.ring.next_inj linked.distinct member mem_cons_self ?_)
    rw [same, behind]
  have next : (links.unlink node).next = update links.next first (links.next node) := by
    simp only [Links.unlink, update_of_ne (Ne.symm onward), before]
  have prev : (links.unlink node).prev = update links.prev (links.next node) first := by
    simp only [Links.unlink, before]
  refine ⟨linked.ring.remove ?_ ?_, nodup_cons.mpr ⟨?_, apart⟩, fun other here => ?_⟩
  · rw [next, update_self]
  · intro other here
    rw [next, update_of_ne]
    rintro rfl
    exact fresh (mem_cons_of_mem _ here)
  · exact fun here => fresh (mem_cons_of_mem _ here)
  · rw [next, prev]
    by_cases same : other = first
    · rw [same, update_self, update_self]
    · have inside : other ∈ rest := (mem_cons.mp here).resolve_left same
      have within : other ∈ first :: node :: rest := mem_cons_of_mem _ (mem_cons_of_mem _ inside)
      rw [update_of_ne same, update_of_ne, linked.back other within]
      intro collide
      rw [linked.ring.next_inj linked.distinct within member collide] at inside
      exact gone inside

/-- A node is linked out of any place of a list with more than one node. -/
theorem Linked.unlink {front back : List Node} {node : Node}
    (linked : Linked links (front ++ node :: back)) (others : front ++ back ≠ []) :
    Linked (links.unlink node) (front ++ back) := by
  have turned : Linked links (node :: (back ++ front)) := linked.rotate
  have remain : back ++ front ≠ [] := by
    intro none
    obtain ⟨rfl, rfl⟩ := append_eq_nil_iff.mp none
    exact others rfl
  obtain ⟨inner, last, split⟩ : ∃ inner last, back ++ front = inner ++ [last] :=
    ⟨_, _, (dropLast_append_getLast remain).symm⟩
  rw [split] at turned
  have out : Linked (links.unlink node) (last :: inner) :=
    (@Linked.rotate _ links (node :: inner) [last] turned).unlink_second
  have back' : Linked (links.unlink node) (back ++ front) := by
    rw [split]
    exact @Linked.rotate _ _ [last] inner out
  exact back'.rotate

theorem Linked.insert {first node : Node} {rest : List Node}
    (linked : Linked links (first :: rest)) (fresh : node ∉ first :: rest) :
    Linked (links.insert first node) (first :: node :: rest) := by
  have differ : first ≠ node := fun same => fresh (same ▸ mem_cons_self)
  have onward : links.next first ≠ node := by
    intro same
    exact fresh (same ▸ linked.ring.next_mem mem_cons_self)
  have next : (links.insert first node).next =
      update (update links.next node (links.next first)) first node := rfl
  have prev : (links.insert first node).prev =
      update (update links.prev node first) (links.next first) node := by
    simp only [Links.insert, update_of_ne differ]
  have apart : first ∉ rest := (nodup_cons.mp linked.distinct).1
  have away : ∀ other ∈ rest, other ≠ first ∧ other ≠ node := fun other here =>
    ⟨fun same => apart (same ▸ here), fun same => fresh (mem_cons_of_mem _ (same ▸ here))⟩
  refine ⟨linked.ring.insert ?_ ?_ ?_, ?_, fun other here => ?_⟩
  · rw [next, update_self]
  · rw [next, update_of_ne differ.symm, update_self]
  · intro other here
    rw [next, update_of_ne (away other here).1, update_of_ne (away other here).2]
  · refine nodup_cons.mpr ⟨?_, nodup_cons.mpr ⟨?_, (nodup_cons.mp linked.distinct).2⟩⟩
    · rw [mem_cons]
      exact not_or.mpr ⟨differ, apart⟩
    · exact fun here => fresh (mem_cons_of_mem _ here)
  · rw [next, prev]
    rcases mem_cons.mp here with rfl | here
    · rw [update_self, update_of_ne onward.symm, update_self]
    · rcases mem_cons.mp here with rfl | here
      · rw [update_of_ne differ.symm, update_self, update_self]
      · have within : other ∈ first :: rest := mem_cons_of_mem _ here
        rw [update_of_ne (away other here).1, update_of_ne (away other here).2,
          update_of_ne, update_of_ne, linked.back other within]
        · intro same
          exact fresh (same ▸ linked.ring.next_mem within)
        · intro same
          exact (away other here).1 (linked.ring.next_inj linked.distinct within mem_cons_self same)

end Changes

end OsProjects.DoublyLinked
