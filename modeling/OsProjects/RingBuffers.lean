import Mathlib.Data.List.Basic
import Mathlib.Logic.Function.Basic

/-!
Ring buffers whose two counters run on and wrap at a modulus: a cell's place is its
counter modulo the capacity. The capacity divides the modulus, so the places go on
in turn when a counter wraps.
-/

namespace OsProjects.RingBuffers

variable {Item : Type} {capacity modulus head tail : Nat} {cells : Nat → Item} {queue : List Item}

structure Holds (capacity modulus : Nat) (cells : Nat → Item) (head tail : Nat)
    (queue : List Item) : Prop where
  fits : queue.length ≤ capacity
  small : head < modulus
  tail_eq : tail = (head + queue.length) % modulus
  items : ∀ index item, queue[index]? = some item →
    cells ((head + index) % modulus % capacity) = item

theorem holds_empty (cells : Nat → Item) (positive : 0 < modulus) :
    Holds capacity modulus cells 0 0 [] :=
  ⟨Nat.zero_le _, positive, (Nat.zero_mod _).symm, fun _ _ none => by simp at none⟩

theorem Holds.empty_iff (holds : Holds capacity modulus cells head tail queue)
    (less : capacity < modulus) : head = tail ↔ queue = [] := by
  obtain ⟨fits, small, tail_eq, _⟩ := holds
  rw [← List.length_eq_zero_iff]
  by_cases wraps : head + queue.length < modulus
  · rw [Nat.mod_eq_of_lt wraps] at tail_eq
    omega
  · rw [Nat.mod_eq_sub_mod (by omega), Nat.mod_eq_of_lt (by omega)] at tail_eq
    omega

theorem Holds.full_iff (holds : Holds capacity modulus cells head tail queue)
    (less : capacity < modulus) : tail = (head + capacity) % modulus ↔ queue.length = capacity := by
  obtain ⟨fits, small, tail_eq, _⟩ := holds
  constructor
  · intro same
    rw [tail_eq] at same
    by_cases first : head + queue.length < modulus
    · rw [Nat.mod_eq_of_lt first] at same
      by_cases second : head + capacity < modulus
      · rw [Nat.mod_eq_of_lt second] at same
        omega
      · rw [Nat.mod_eq_sub_mod (by omega), Nat.mod_eq_of_lt (by omega)] at same
        omega
    · rw [Nat.mod_eq_sub_mod (by omega), Nat.mod_eq_of_lt (by omega),
        Nat.mod_eq_sub_mod (b := modulus) (by omega), Nat.mod_eq_of_lt (by omega)] at same
      omega
  · intro full
    rw [tail_eq, full]

theorem place_ne {first second : Nat} (divides : capacity ∣ modulus) (less : first < second)
    (close : second < first + capacity) (head : Nat) :
    (head + first) % modulus % capacity ≠ (head + second) % modulus % capacity := by
  rw [Nat.mod_mod_of_dvd _ divides, Nat.mod_mod_of_dvd _ divides]
  intro same
  have multiple : capacity ∣ second - first := by
    have gap := Nat.dvd_of_mod_eq_zero (Nat.sub_mod_eq_zero_of_mod_eq same.symm)
    rwa [Nat.add_sub_add_left] at gap
  exact absurd (Nat.le_of_dvd (by omega) multiple) (by omega)

theorem Holds.push (holds : Holds capacity modulus cells head tail queue)
    (divides : capacity ∣ modulus) (room : queue.length < capacity) (item : Item) :
    Holds capacity modulus (Function.update cells (tail % capacity) item) head
      ((tail + 1) % modulus) (queue ++ [item]) := by
  obtain ⟨fits, small, tail_eq, items⟩ := holds
  refine ⟨?_, small, ?_, ?_⟩
  · rw [List.length_append, List.length_singleton]
    omega
  · rw [tail_eq, List.length_append, List.length_singleton, Nat.mod_add_mod, Nat.add_assoc]
  · intro index other here
    rw [List.getElem?_append] at here
    split at here
    · rename_i inside
      rw [Function.update_of_ne]
      · exact items index other here
      · rw [tail_eq]
        exact place_ne divides inside (by omega) head
    · rename_i outside
      have last : index = queue.length := by
        have bound := (List.getElem?_eq_some_iff.mp here).1
        rw [List.length_singleton] at bound
        omega
      subst last
      rw [Nat.sub_self, List.getElem?_cons_zero, Option.some.injEq] at here
      rw [tail_eq, Function.update_self, here]

theorem Holds.pop {item : Item} (holds : Holds capacity modulus cells head tail (item :: queue)) :
    cells (head % capacity) = item ∧
      Holds capacity modulus cells ((head + 1) % modulus) tail queue := by
  obtain ⟨fits, small, tail_eq, items⟩ := holds
  rw [List.length_cons] at fits tail_eq
  have positive : 0 < modulus := Nat.zero_lt_of_lt small
  refine ⟨?_, by omega, Nat.mod_lt _ positive, ?_, fun index other here => ?_⟩
  · have first := items 0 item rfl
    rwa [Nat.add_zero, Nat.mod_eq_of_lt small] at first
  · rw [tail_eq, Nat.mod_add_mod]
    congr 1
    omega
  · have next := items (index + 1) other (by rwa [List.getElem?_cons_succ])
    rw [Nat.mod_add_mod, Nat.add_assoc, Nat.add_comm 1 index]
    exact next

end OsProjects.RingBuffers
