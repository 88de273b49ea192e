import Mathlib.Data.List.Basic
import Mathlib.Data.List.Nodup
import Mathlib.Data.List.Perm.Basic

/-!
Circular singly linked lists. `next` is the link of a node; a ring is a list of
nodes such that following the links from the first one visits the others in order
and comes back. A ring can be read from any of its nodes, a node is linked in or
out behind another, and a search along the links is a search in the list.
-/

namespace OsProjects.Rings

variable {Node : Type} {next next' : Node → Node}

def Path (next : Node → Node) : Node → List Node → Node → Prop
  | first, [], last => next first = last
  | first, node :: rest, last => next first = node ∧ Path next node rest last

def Ring (next : Node → Node) : List Node → Prop
  | [] => False
  | first :: rest => Path next first rest first

theorem path_append (first last node : Node) (front back : List Node) :
    Path next first (front ++ node :: back) last ↔
      Path next first front node ∧ Path next node back last := by
  induction front generalizing first with
  | nil => exact Iff.rfl
  | cons second front ih =>
    simp only [List.cons_append, Path, ih, and_assoc]

theorem path_congr {first last : Node} {inner : List Node}
    (same : ∀ node ∈ first :: inner, next' node = next node) (path : Path next first inner last) :
    Path next' first inner last := by
  induction inner generalizing first with
  | nil => exact (same first List.mem_cons_self).trans path
  | cons second inner ih =>
    exact ⟨(same first List.mem_cons_self).trans path.1,
      ih (fun node here => same node (List.mem_cons_of_mem _ here)) path.2⟩

theorem Ring.rotate {front back : List Node} (ring : Ring next (front ++ back)) :
    Ring next (back ++ front) := by
  cases front with
  | nil => simpa using ring
  | cons first front =>
    cases back with
    | nil => simpa using ring
    | cons node back =>
      obtain ⟨go, come⟩ := (path_append first first node front back).mp ring
      exact (path_append node node first back front).mpr ⟨come, go⟩

theorem Ring.insert {first node : Node} {rest : List Node} (ring : Ring next (first :: rest))
    (behind : next' first = node) (onward : next' node = next first)
    (same : ∀ other ∈ rest, next' other = next other) : Ring next' (first :: node :: rest) := by
  refine ⟨behind, ?_⟩
  cases rest with
  | nil => exact onward.trans ring
  | cons second rest =>
    exact ⟨onward.trans ring.1, path_congr same ring.2⟩

theorem Ring.remove {first node : Node} {rest : List Node}
    (ring : Ring next (first :: node :: rest)) (onward : next' first = next node)
    (same : ∀ other ∈ rest, next' other = next other) : Ring next' (first :: rest) := by
  cases rest with
  | nil => exact onward.trans ring.2
  | cons second rest => exact ⟨onward.trans ring.2.1, path_congr same ring.2.2⟩

/-- Another node takes the place of the one behind `first`. -/
theorem Ring.replace {first old node : Node} {rest : List Node}
    (ring : Ring next (first :: old :: rest)) (behind : next' first = node)
    (onward : next' node = next old) (same : ∀ other ∈ rest, next' other = next other) :
    Ring next' (first :: node :: rest) := by
  refine ⟨behind, ?_⟩
  cases rest with
  | nil => exact onward.trans ring.2
  | cons second rest => exact ⟨onward.trans ring.2.1, path_congr same ring.2.2⟩

theorem path_map {first last : Node} {inner : List Node} (path : Path next first inner last) :
    (first :: inner).map next = inner ++ [last] := by
  induction inner generalizing first with
  | nil => exact congrArg (· :: []) path
  | cons second inner ih =>
    rw [List.map_cons, ih path.2, path.1]
    rfl

section
variable {nodes : List Node} (ring : Ring next nodes)
include ring

/-- The links lead from node to node, each node being reached once. -/
theorem Ring.map_perm : (nodes.map next).Perm nodes := by
  cases nodes with
  | nil => exact absurd ring id
  | cons first rest =>
    rw [path_map ring]
    exact List.perm_append_singleton first rest

theorem Ring.next_mem {node : Node}
    (member : node ∈ nodes) : next node ∈ nodes :=
  ring.map_perm.mem_iff.mp (List.mem_map_of_mem member)

theorem Ring.next_inj (distinct : nodes.Nodup)
    {one two : Node} (first : one ∈ nodes) (second : two ∈ nodes) (same : next one = next two) :
    one = two :=
  List.inj_on_of_nodup_map (ring.map_perm.nodup_iff.mpr distinct) first second same

theorem Ring.congr (same : ∀ node ∈ nodes, next' node = next node) : Ring next' nodes := by
  cases nodes with
  | nil => exact ring
  | cons first rest => exact path_congr same ring
end

def walk (next : Node → Node) (stop : Node → Bool) : Nat → Node → Option Node
  | 0, _ => none
  | fuel + 1, node => if stop node then some node else walk next stop fuel (next node)

theorem walk_path {stop : Node → Bool} {first last : Node} {inner : List Node} {fuel : Nat}
    (path : Path next first inner last) (enough : inner.length < fuel)
    (halts : ∃ node ∈ first :: inner, stop node = true) :
    walk next stop fuel first = (first :: inner).find? stop := by
  induction inner generalizing first fuel with
  | nil =>
    obtain ⟨node, here, halts⟩ := halts
    rw [List.mem_singleton.mp here] at halts
    obtain ⟨fuel, rfl⟩ := Nat.exists_eq_succ_of_ne_zero (Nat.ne_of_gt enough)
    simp [walk, halts]
  | cons second inner ih =>
    obtain ⟨fuel, rfl⟩ := Nat.exists_eq_succ_of_ne_zero (Nat.ne_of_gt (Nat.zero_lt_of_lt enough))
    by_cases here : stop first = true
    · simp [walk, here]
    · have later : ∃ node ∈ second :: inner, stop node = true := by
        obtain ⟨node, member, halts⟩ := halts
        rcases List.mem_cons.mp member with rfl | member
        · exact absurd halts here
        · exact ⟨node, member, halts⟩
      simp only [walk, here, List.find?_cons, path.1]
      exact ih path.2 (Nat.lt_of_succ_lt_succ enough) later

/-- The search starts at any node of the ring and takes one turn at most. -/
theorem Ring.walk {stop : Node → Bool} {front back : List Node} {node : Node} {fuel : Nat}
    (ring : Ring next (front ++ node :: back)) (enough : (front ++ node :: back).length ≤ fuel)
    (halts : ∃ other ∈ front ++ node :: back, stop other = true) :
    walk next stop fuel node = (node :: (back ++ front)).find? stop := by
  have turned : Ring next (node :: (back ++ front)) := ring.rotate
  refine walk_path turned ?_ ?_
  · simp only [List.length_append, List.length_cons] at enough ⊢
    omega
  · obtain ⟨other, member, halts⟩ := halts
    refine ⟨other, ?_, halts⟩
    simp only [List.mem_append, List.mem_cons] at member ⊢
    exact member.elim (fun here => Or.inr (Or.inr here)) fun there =>
      there.elim Or.inl fun here => Or.inr (Or.inl here)

end OsProjects.Rings
