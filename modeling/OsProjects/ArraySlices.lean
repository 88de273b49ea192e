import Mathlib.Data.List.Basic
import Mathlib.Data.List.Range
import Mathlib.Logic.Function.Basic

/-!
A memory of named buffers with integer indices. `slice` reads consecutive
cells of one buffer as a list and `store` writes a list back, so that loops
over array indices become equations between lists.
-/

namespace OsProjects.ArraySlices

open Function List
universe u v
variable {Buf : Type u} {Val : Type v}

abbrev Cells (Buf : Type u) (Val : Type v) := Buf × Int → Val

def slice (mem : Cells Buf Val) (buf : Buf) (lo : Int) (count : Nat) : List Val :=
  (range count).map fun index : Nat => mem (buf, lo + (index : Int))

section
variable (mem : Cells Buf Val) (buf : Buf) (lo : Int)

@[simp] theorem slice_length (count : Nat) : (slice mem buf lo count).length = count := by
  simp [slice]

@[simp] theorem slice_zero : slice mem buf lo 0 = [] := rfl

theorem slice_getElem? (count index : Nat) (inside : index < count) :
    (slice mem buf lo count)[index]? = some (mem (buf, lo + index)) := by
  simp [slice, inside]

theorem slice_succ (count : Nat) :
    slice mem buf lo (count + 1) = mem (buf, lo) :: slice mem buf (lo + 1) count := by
  simp only [slice, range_succ_eq_map, map_cons, map_map]
  congr 1
  · simp
  · apply map_congr_left
    intro index _
    simp only [comp_apply, Nat.succ_eq_add_one]
    congr 2
    omega

theorem slice_append (left right : Nat) :
    slice mem buf lo (left + right) = slice mem buf lo left ++ slice mem buf (lo + left) right := by
  simp only [slice, range_add, map_append, map_map]
  congr 1
  apply map_congr_left
  intro index _
  simp only [comp_apply]
  congr 2
  omega

theorem slice_take (count left : Nat)
    (inside : left ≤ count) : (slice mem buf lo count).take left = slice mem buf lo left := by
  obtain ⟨right, rfl⟩ := Nat.exists_eq_add_of_le inside
  rw [slice_append, take_left' (slice_length ..)]

theorem slice_drop (count left : Nat) (inside : left ≤ count) :
    (slice mem buf lo count).drop left = slice mem buf (lo + left) (count - left) := by
  obtain ⟨right, rfl⟩ := Nat.exists_eq_add_of_le inside
  rw [slice_append, drop_left' (slice_length ..), Nat.add_sub_cancel_left]
end

theorem slice_congr {mem mem' : Cells Buf Val} {buf : Buf} {lo : Int} {count : Nat}
    (same : ∀ index : Nat, index < count → mem (buf, lo + index) = mem' (buf, lo + index)) :
    slice mem buf lo count = slice mem' buf lo count := by
  apply map_congr_left
  intro index member
  exact same index (mem_range.mp member)

theorem mem_slice {mem : Cells Buf Val} {buf : Buf} {lo : Int} {count : Nat} {value : Val} :
    value ∈ slice mem buf lo count ↔ ∃ index : Nat, index < count ∧ mem (buf, lo + index) = value := by
  simp [slice]

section Store
variable [DecidableEq Buf]

def store (mem : Cells Buf Val) (buf : Buf) (lo : Int) (values : List Val) : Cells Buf Val :=
  fun cell => if cell.1 = buf ∧ lo ≤ cell.2
    then (values[(cell.2 - lo).toNat]?).getD (mem cell) else mem cell

section
variable (mem : Cells Buf Val) (buf : Buf) (lo : Int)

theorem store_inside (values : List Val) (index : Nat) (inside : index < values.length) :
    store mem buf lo values (buf, lo + index) = values.get ⟨index, inside⟩ := by
  have offset : (lo + (index : Int) - lo).toNat = index := by omega
  have low : lo ≤ lo + (index : Int) := by omega
  simp only [store, low, and_self, if_true, offset, getElem?_eq_getElem inside]
  rfl

theorem store_outside (values : List Val)
    (cell : Buf × Int) (apart : cell.1 ≠ buf ∨ cell.2 < lo ∨ lo + values.length ≤ cell.2) :
    store mem buf lo values cell = mem cell := by
  simp only [store]
  split
  · have past : values.length ≤ (cell.2 - lo).toNat := by
      rcases apart with other | before | after
      · exact absurd ‹cell.1 = buf ∧ lo ≤ cell.2›.1 other
      · omega
      · omega
    rw [getElem?_eq_none past]
    rfl
  · rfl

@[simp] theorem store_nil : store mem buf lo [] = mem := by
  funext cell
  simp [store]

theorem store_append (left right : List Val) :
    store mem buf lo (left ++ right) =
      store (store mem buf lo left) buf (lo + left.length) right := by
  funext cell
  simp only [store]
  by_cases same : cell.1 = buf
  · by_cases low : lo ≤ cell.2
    · by_cases first : (cell.2 - lo).toNat < left.length
      · have before : ¬ lo + (left.length : Int) ≤ cell.2 := by omega
        simp [same, low, before, getElem?_append_left first]
      · have after : lo + (left.length : Int) ≤ cell.2 := by omega
        have shift : (cell.2 - lo).toNat - left.length =
            (cell.2 - (lo + (left.length : Int))).toNat := by omega
        have past : left[(cell.2 - lo).toNat]? = none := by
          rw [getElem?_eq_none_iff]
          omega
        rw [getElem?_append_right (by omega), shift]
        simp [same, low, after, past]
    · have before : ¬ lo + (left.length : Int) ≤ cell.2 := by omega
      simp [low, before]
  · simp [same]

theorem store_singleton (value : Val) : store mem buf lo [value] = update mem (buf, lo) value := by
  funext cell
  by_cases hit : cell = (buf, lo)
  · subst hit
    simp [store]
  · rw [update_of_ne hit, store_outside]
    by_cases same : cell.1 = buf
    · have other : cell.2 ≠ lo := fun place => hit (Prod.ext same place)
      simp only [length_singleton]
      omega
    · exact Or.inl same

theorem store_cons (value : Val) (rest : List Val) :
    store mem buf lo (value :: rest) = store (update mem (buf, lo) value) buf (lo + 1) rest := by
  have split := store_append mem buf lo [value] rest
  simpa [store_singleton] using split

/-- Writing the middle first, then what follows, then what precedes it. -/
theorem store_around (left right : List Val) (middle : Val) :
    store (store (update mem (buf, lo + left.length) middle) buf
        (lo + left.length + 1) right) buf lo left =
      store mem buf lo (left ++ middle :: right) := by
  rw [store_append, store_cons]
  funext cell
  by_cases first : cell.1 = buf ∧ lo ≤ cell.2 ∧ cell.2 < lo + left.length
  · obtain ⟨same, low, high⟩ := first
    have reach : ∀ m : Cells Buf Val, store m buf lo left cell = store mem buf lo left cell := by
      intro m
      obtain ⟨index, place⟩ := Int.eq_ofNat_of_zero_le (show 0 ≤ cell.2 - lo by omega)
      have at_cell : cell = (buf, lo + (index : Int)) := Prod.ext same (by simp; omega)
      have inside : index < left.length := by omega
      rw [at_cell, store_inside _ _ _ _ _ inside, store_inside _ _ _ _ _ inside]
    have notMiddle : cell ≠ (buf, lo + (left.length : Int)) := by
      intro hit
      rw [hit] at high
      simp at high
    rw [reach, store_outside (update _ _ _) _ _ _ _ (Or.inr (Or.inl (by omega))),
      update_of_ne notMiddle]
  · have away : cell.1 ≠ buf ∨ cell.2 < lo ∨ lo + left.length ≤ cell.2 := by
      by_cases same : cell.1 = buf
      · have range : ¬ (lo ≤ cell.2 ∧ cell.2 < lo + left.length) := fun h => first ⟨same, h⟩
        omega
      · exact Or.inl same
    have inner : store mem buf lo left cell = mem cell := store_outside _ _ _ _ _ away
    rw [store_outside _ _ _ _ _ away]
    by_cases hit : cell = (buf, lo + (left.length : Int))
    · subst hit
      have before : lo + (left.length : Int) < lo + (left.length : Int) + 1 := by omega
      rw [store_outside _ _ _ _ _ (Or.inr (Or.inl before)),
        store_outside _ _ _ _ _ (Or.inr (Or.inl before))]
      simp
    · simp only [store, update_of_ne hit] at inner ⊢
      rw [inner]

/-- A longer list stored at the same place hides the shorter one. -/
theorem store_store (short long : List Val) (covers : short.length ≤ long.length) :
    store (store mem buf lo short) buf lo long = store mem buf lo long := by
  funext cell
  simp only [store]
  by_cases hit : cell.1 = buf ∧ lo ≤ cell.2
  · by_cases inside : (cell.2 - lo).toNat < long.length
    · simp [hit, inside]
    · have past : short[(cell.2 - lo).toNat]? = none := getElem?_eq_none (by omega)
      simp [hit, past]
  · simp [hit]

/-- A shorter list stored at the same place hides a front of the longer one. -/
theorem store_front (long front : List Val) :
    store (store mem buf lo long) buf lo front =
      store mem buf lo (front ++ long.drop front.length) := by
  funext cell
  simp only [store]
  by_cases hit : cell.1 = buf ∧ lo ≤ cell.2
  · by_cases inside : (cell.2 - lo).toNat < front.length
    · simp [hit, inside, getElem?_append_left inside]
    · have behind : front.length ≤ (cell.2 - lo).toNat := by omega
      have past : front[(cell.2 - lo).toNat]? = none := getElem?_eq_none behind
      rw [getElem?_append_right behind, getElem?_drop, Nat.add_sub_cancel' behind]
      simp [hit, past]
  · simp [hit]

theorem slice_store_same (values : List Val) :
    slice (store mem buf lo values) buf lo values.length = values := by
  apply ext_getElem?
  intro index
  by_cases inside : index < values.length
  · rw [slice_getElem? _ _ _ _ _ inside, store_inside _ _ _ _ _ inside]
    simp [inside]
  · rw [getElem?_eq_none (by simpa using inside), getElem?_eq_none (by simpa using inside)]
end

theorem slice_store_other (mem : Cells Buf Val) (buf buf' : Buf) (lo lo' : Int)
    (values : List Val) (count : Nat)
    (apart : buf' ≠ buf ∨ lo' + count ≤ lo ∨ lo + values.length ≤ lo') :
    slice (store mem buf lo values) buf' lo' count = slice mem buf' lo' count := by
  apply slice_congr
  intro index inside
  apply store_outside
  rcases apart with other | before | after
  · exact Or.inl other
  · exact Or.inr (Or.inl (by simp only; omega))
  · exact Or.inr (Or.inr (by simp only; omega))

theorem slice_update_other (mem : Cells Buf Val) (buf buf' : Buf) (at' lo : Int)
    (value : Val) (count : Nat) (apart : buf ≠ buf' ∨ at' < lo ∨ lo + count ≤ at') :
    slice (update mem (buf', at') value) buf lo count = slice mem buf lo count := by
  rw [← store_singleton]
  apply slice_store_other
  simp only [length_singleton]
  rcases apart with other | before | after
  · exact Or.inl other
  · exact Or.inr (Or.inr (by omega))
  · exact Or.inr (Or.inl (by omega))

theorem store_slice_self (mem : Cells Buf Val) (buf : Buf) (lo : Int) (count : Nat) :
    store mem buf lo (slice mem buf lo count) = mem := by
  funext cell
  by_cases inside : cell.1 = buf ∧ lo ≤ cell.2 ∧ cell.2 < lo + count
  · obtain ⟨index, place⟩ := Int.eq_ofNat_of_zero_le (show 0 ≤ cell.2 - lo by omega)
    have at_cell : cell = (buf, lo + (index : Int)) := Prod.ext inside.1 (by simp; omega)
    have bound : index < (slice mem buf lo count).length := by rw [slice_length]; omega
    rw [at_cell, store_inside _ _ _ _ _ bound]
    simp [slice]
  · apply store_outside
    by_cases same : cell.1 = buf
    · have range : ¬ (lo ≤ cell.2 ∧ cell.2 < lo + count) := fun h => inside ⟨same, h⟩
      rw [slice_length]
      omega
    · exact Or.inl same
end Store

end OsProjects.ArraySlices
