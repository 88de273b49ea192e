import OsProjects.SequentialSorts

/-!
The sequential sorts on keys of the whole `int` range. `compare_elem` subtracts,
so keys that lie far apart are compared the wrong way round. A wrong answer is
final: in a merge it puts the larger key first, and a bubble sort never swaps
the pair again. So each sort is right exactly if the comparisons that a right
sort makes are, and these are found in the input alone: a merge compares a key
with the next larger one of the other half, a bubble sort with the larger ones
before it and with the largest of the others.
-/

namespace OsProjects.KeyRange

open ForkJoin ParallelSort ArraySlices SortLists SortOrder StableSorts SequentialSorts List

def Decides (x y : Int) : Prop := x - y < 2 ^ 31 ∧ y - x ≤ 2 ^ 31

/-- What a merge of two halves needs: from each key the next one of the other
half that is larger (or as large, to the right) is in reach. -/
structure MergeInReach (left right : List Int) : Prop where
  down : ∀ y ∈ right, (∃ x ∈ left, y < x) → ∃ x ∈ left, y < x ∧ x - y < 2 ^ 31
  up : ∀ x ∈ left, (∃ y ∈ right, x ≤ y) → ∃ y ∈ right, x ≤ y ∧ y - x ≤ 2 ^ 31

def MergesInReach (keys : List Int) : Prop :=
  if keys.length ≤ 1 then True
  else
    MergesInReach (keys.take (middle keys + 1)) ∧ MergesInReach (keys.drop (middle keys + 1)) ∧
      MergeInReach (keys.take (middle keys + 1)) (keys.drop (middle keys + 1))
termination_by keys.length
decreasing_by
  all_goals
    simp only [length_take, length_drop, middle]
    omega

/-- What `bubble_sort_elem` needs: every larger key before a key is in reach,
and so is the largest of the others before it. -/
def BubblesInReach (before : List Int) : List Int → Prop
  | [] => True
  | y :: rest =>
    (∀ x ∈ before, y < x → x - y < 2 ^ 31) ∧
      ((∃ x ∈ before, x ≤ y) → ∃ x ∈ before, x ≤ y ∧ y - x ≤ 2 ^ 31) ∧
        BubblesInReach (y :: before) rest

theorem key_range (elem : Elem) : -2 ^ 31 ≤ elem.key ∧ elem.key < 2 ^ 31 := by
  rw [Elem.key, ByteStore.signed]
  generalize ByteStore.wordAt _ 0 = word
  have := word.toNat_lt
  split <;> omega

theorem compareElem_decides (a b : Elem) :
    (compareElem a b ≤ 0 ↔ a.key ≤ b.key) ↔ Decides a.key b.key := by
  have boundA : -2 ^ 31 ≤ a.key ∧ a.key < 2 ^ 31 := key_range a
  have boundB : -2 ^ 31 ≤ b.key ∧ b.key < 2 ^ 31 := key_range b
  simp only [compareElem, ByteStore.signed, ByteStore.wrap, UInt32.toNat_ofNat', Decides]
  split <;> omega

theorem compareElem_strict (a b : Elem) (after : compareElem a b > 0) : compareElem b a ≤ 0 := by
  have boundA := key_range a
  have boundB := key_range b
  simp only [compareElem, ByteStore.signed, ByteStore.wrap, UInt32.toNat_ofNat'] at after ⊢
  split at after
  · split <;> omega
  · omega

section Merges
variable {α : Type} {compare : α → α → Int} {key : α → Int}

/-- The smaller of two heads is on the left, or both are equal. -/
theorem mergeInReach_left {x y : Int} {left right : List Int} (order : x ≤ y)
    (rightMin : ∀ b ∈ right, y ≤ b) :
    MergeInReach (x :: left) (y :: right) ↔ Decides x y ∧ MergeInReach left (y :: right) := by
  have low : ∀ b ∈ y :: right, x ≤ b := by
    intro b member
    rcases mem_cons.mp member with rfl | later
    · exact order
    · exact order.trans (rightMin b later)
  constructor
  · intro reach
    obtain ⟨near, inside, _, close⟩ := reach.up x (by simp) ⟨y, by simp, order⟩
    refine ⟨⟨by omega, ?_⟩, ⟨?_, fun a member => reach.up a (mem_cons_of_mem x member)⟩⟩
    · rcases mem_cons.mp inside with rfl | later
      · exact close
      · have := rightMin near later
        omega
    · rintro b member ⟨a, there, above⟩
      obtain ⟨a', there', above', close'⟩ := reach.down b member ⟨a, mem_cons_of_mem x there, above⟩
      have := low b member
      rcases mem_cons.mp there' with rfl | later
      · omega
      · exact ⟨a', later, above', close'⟩
  · rintro ⟨decides, reach⟩
    constructor
    · rintro b member ⟨a, there, above⟩
      have := low b member
      rcases mem_cons.mp there with rfl | later
      · omega
      · obtain ⟨a', there', rest⟩ := reach.down b member ⟨a, later, above⟩
        exact ⟨a', mem_cons_of_mem x there', rest⟩
    · intro a member above
      rcases mem_cons.mp member with rfl | later
      · exact ⟨y, by simp, order, decides.2⟩
      · exact reach.up a later above

theorem mergeInReach_right {x y : Int} {left right : List Int} (order : y < x)
    (leftMin : ∀ a ∈ left, x ≤ a) :
    MergeInReach (x :: left) (y :: right) ↔ Decides x y ∧ MergeInReach (x :: left) right := by
  have low : ∀ a ∈ x :: left, y < a := by
    intro a member
    rcases mem_cons.mp member with rfl | later
    · exact order
    · exact order.trans_le (leftMin a later)
  constructor
  · intro reach
    obtain ⟨near, inside, _, close⟩ := reach.down y (by simp) ⟨x, by simp, order⟩
    refine ⟨⟨?_, by omega⟩, ⟨fun b member => reach.down b (mem_cons_of_mem y member), ?_⟩⟩
    · rcases mem_cons.mp inside with rfl | later
      · exact close
      · have := leftMin near later
        omega
    · rintro a member ⟨b, there, above⟩
      obtain ⟨b', there', above', close'⟩ := reach.up a member ⟨b, mem_cons_of_mem y there, above⟩
      have := low a member
      rcases mem_cons.mp there' with rfl | later
      · omega
      · exact ⟨b', later, above', close'⟩
  · rintro ⟨decides, reach⟩
    constructor
    · intro b member above
      rcases mem_cons.mp member with rfl | later
      · exact ⟨x, by simp, order, decides.1⟩
      · exact reach.down b later above
    · rintro a member ⟨b, there, above⟩
      have := low a member
      rcases mem_cons.mp there with rfl | later
      · omega
      · obtain ⟨b', there', rest⟩ := reach.up a member ⟨b, later, above⟩
        exact ⟨b', mem_cons_of_mem y there', rest⟩

theorem MergeInReach.congr {left left' right right' : List Int} (reach : MergeInReach left right)
    (sameLeft : ∀ x, x ∈ left' ↔ x ∈ left) (sameRight : ∀ y, y ∈ right' ↔ y ∈ right) :
    MergeInReach left' right' := by
  refine ⟨?_, ?_⟩
  · simpa only [sameLeft, sameRight] using reach.down
  · simpa only [sameLeft, sameRight] using reach.up

variable (decided : ∀ a b, (compare a b ≤ 0 ↔ key a ≤ key b) ↔ Decides (key a) (key b))
include decided

/-- Sorted halves are merged right exactly if all neighbours are in reach. -/
theorem mergeList_ordered_iff (left right : List α) (orderedLeft : Ordered key left)
    (orderedRight : Ordered key right) :
    Ordered key (mergeList compare left right) ↔ MergeInReach (left.map key) (right.map key) := by
  induction left generalizing right with
  | nil => exact iff_of_true (by simpa [mergeList] using orderedRight) ⟨by simp, by simp⟩
  | cons x left ihLeft =>
    induction right with
    | nil => exact iff_of_true (by simpa [mergeList] using orderedLeft) ⟨by simp, by simp⟩
    | cons y right ihRight =>
      obtain ⟨leftMin, restLeft⟩ := pairwise_cons.mp orderedLeft
      obtain ⟨rightMin, restRight⟩ := pairwise_cons.mp orderedRight
      rw [mergeList_cons, map_cons, map_cons]
      by_cases order : key x ≤ key y
      · rw [mergeInReach_left order (by simpa using rightMin), ← decided, ← map_cons]
        by_cases answer : compare x y ≤ 0
        · rw [if_pos answer, ← ihLeft (y :: right) restLeft orderedRight, Ordered, pairwise_cons]
          refine and_congr_left fun _ => iff_of_true ?_ (iff_of_true answer order)
          intro a member
          rcases mem_append.mp ((mergeList_perm compare _ _).mem_iff.mp member) with
            here | there
          · exact leftMin a here
          · exact order.trans (ordered_head_le orderedRight there)
        · -- `y` goes first, and `x` behind it is smaller
          rw [if_neg answer]
          have wrong : ¬ (compare x y ≤ 0 ↔ key x ≤ key y) := fun right =>
            answer (right.mpr order)
          refine iff_of_false ?_ fun both => wrong both.1
          intro ordered
          have below := (pairwise_cons.mp ordered).1 x
            ((mergeList_perm compare _ _).mem_iff.mpr (by simp))
          have same : key x = key y := by omega
          exact wrong ((decided x y).mpr ⟨by omega, by omega⟩)
      · rw [mergeInReach_right (by omega) (by simpa using leftMin), ← decided, ← map_cons]
        by_cases answer : compare x y ≤ 0
        · rw [if_pos answer]
          refine iff_of_false ?_ fun both => order (both.1.mp answer)
          intro ordered
          exact order ((pairwise_cons.mp ordered).1 y
            ((mergeList_perm compare _ _).mem_iff.mpr (by simp)))
        · rw [if_neg answer, ← ihRight restRight, Ordered, pairwise_cons]
          refine and_congr_left fun _ => iff_of_true ?_ (iff_of_false answer order)
          intro a member
          rcases mem_append.mp ((mergeList_perm compare _ _).mem_iff.mp member) with
            here | there
          · have := ordered_head_le orderedLeft here
            omega
          · exact rightMin a there

theorem mergeSortList_ordered_iff (values : List α) :
    Ordered key (mergeSortList compare values) ↔ MergesInReach (values.map key) := by
  fun_induction mergeSortList compare values with
  | case1 values short =>
    rw [MergesInReach, if_pos (by simpa using short)]
    exact iff_of_true (StableSort.short short).ordered trivial
  | case2 values long ihLeft ihRight =>
    rw [MergesInReach, if_neg (by simpa using long), middle_map, ← map_take,
      ← map_drop, ← ihLeft, ← ihRight]
    -- merging keeps the order inside each half, so both halves have to be sorted
    have halves := @mergeList_sublist α compare
      (mergeSortList compare (values.take (middle values + 1)))
      (mergeSortList compare (values.drop (middle values + 1)))
    have members : ∀ part : List α, ∀ k, k ∈ (mergeSortList compare part).map key ↔
        k ∈ part.map key := fun part k => ((mergeSortList_perm compare part).map key).mem_iff
    constructor
    · intro ordered
      have left := ordered.sublist halves.1
      have right := ordered.sublist halves.2
      have reach := (mergeList_ordered_iff decided _ _ left right).mp ordered
      exact ⟨left, right, reach.congr (fun k => (members _ k).symm) fun k => (members _ k).symm⟩
    · rintro ⟨left, right, reach⟩
      exact (mergeList_ordered_iff decided _ _ left right).mpr (reach.congr (members _) (members _))

end Merges

section Bubbles
variable {α : Type} {compare : α → α → Int} {key : α → Int}

def Stuck (compare : α → α → Int) (key : α → Int) (values : List α) : Prop :=
  ∃ a b, [a, b].Sublist values ∧ key b < key a ∧ compare a b ≤ 0

theorem Stuck.not_ordered {values : List α} (stuck : Stuck compare key values) :
    ¬ Ordered key values := by
  obtain ⟨a, b, inside, below, _⟩ := stuck
  intro ordered
  have := (pairwise_cons.mp (ordered.sublist inside)).1 b (by simp)
  omega

theorem pair_sublist_cons {a b x : α} {values : List α} :
    [a, b].Sublist (x :: values) ↔ [a, b].Sublist values ∨ a = x ∧ b ∈ values := by
  rw [sublist_cons_iff]
  simp

theorem pair_sublist_append {a b : α} {front back : List α} :
    [a, b].Sublist (front ++ back) ↔
      [a, b].Sublist front ∨ a ∈ front ∧ b ∈ back ∨ [a, b].Sublist back := by
  induction front with
  | nil => simp
  | cons x front ih =>
    rw [cons_append, pair_sublist_cons, pair_sublist_cons, ih]
    simp only [mem_cons, mem_append, and_or_left, or_and_right]
    exact iff_of_eq (by ac_rfl)

theorem carry_keeps_pair {a b : α} (answer : compare a b ≤ 0) (x : α) (rest : List α)
    (inside : [a, b].Sublist (x :: rest)) : [a, b].Sublist (carry compare x rest) := by
  induction rest generalizing x with
  | nil => simpa using inside.length_le
  | cons y rest ih =>
    rw [pair_sublist_cons, pair_sublist_cons] at inside
    simp only [carry]
    split
    · rename_i after
      rw [pair_sublist_cons]
      rcases inside with (later | ⟨rfl, there⟩) | ⟨rfl, there⟩
      · exact .inl (ih x (pair_sublist_cons.mpr (.inl later)))
      · exact .inr ⟨rfl, (carry_perm x rest).mem_iff.mpr (mem_cons_of_mem x there)⟩
      · rcases mem_cons.mp there with rfl | later
        · omega
        · exact .inl (ih a (pair_sublist_cons.mpr (.inr ⟨rfl, later⟩)))
    · rw [pair_sublist_cons]
      rcases inside with later | ⟨rfl, there⟩
      · exact .inl (ih y (pair_sublist_cons.mpr later))
      · exact .inr ⟨rfl, (carry_perm y rest).mem_iff.mpr there⟩

theorem pair_bubbleList_succ {a b : α} (passes : Nat) (values : List α)
    (later : ∀ rest, [a, b].Sublist rest → [a, b].Sublist (bubbleList compare passes rest))
    (inside : [a, b].Sublist (bubblePass compare values)) :
    [a, b].Sublist (bubbleList compare (passes + 1) values) := by
  rw [← take_append_drop (passes + 1) (bubblePass compare values), pair_sublist_append] at inside
  rw [bubbleList, pair_sublist_append]
  rcases inside with front | ⟨first, second⟩ | back
  · exact .inl (later _ front)
  · exact .inr (.inl ⟨(bubbleList_perm passes _).mem_iff.mpr first, second⟩)
  · exact .inr (.inr back)

theorem pair_bubbleList {a b : α} (answer : compare a b ≤ 0) (passes : Nat) (values : List α)
    (inside : [a, b].Sublist values) : [a, b].Sublist (bubbleList compare passes values) := by
  induction passes generalizing values with
  | zero => exact inside
  | succ passes ih =>
    apply pair_bubbleList_succ passes values ih
    cases values with
    | nil => exact inside
    | cons x rest => exact carry_keeps_pair answer x rest inside

def Decided (compare : α → α → Int) (key : α → Int) : α → List α → Prop
  | _, [] => True
  | x, y :: rest =>
    (compare x y ≤ 0 ↔ key x ≤ key y) ∧
      if compare x y > 0 then Decided compare key x rest else Decided compare key y rest

theorem carry_ne_nil (x : α) (rest : List α) : carry compare x rest ≠ [] := by
  intro none
  have := (@carry_perm α compare x rest).length_eq
  rw [none] at this
  cases this

theorem carry_largest (x : α) (rest : List α) (right : Decided compare key x rest) :
    ∃ last, carry compare x rest = (carry compare x rest).dropLast ++ [last] ∧
      key x ≤ key last ∧ ∀ a ∈ (carry compare x rest).dropLast, key a ≤ key last := by
  induction rest generalizing x with
  | nil => exact ⟨x, rfl, le_refl _, by simp [carry]⟩
  | cons y rest ih =>
    obtain ⟨answer, later⟩ := right
    simp only [carry]
    by_cases after : compare x y > 0
    · rw [if_pos after] at later ⊢
      obtain ⟨last, shape, top, below⟩ := ih x later
      rw [dropLast_cons_of_ne_nil (carry_ne_nil x rest)]
      refine ⟨last, congrArg (y :: ·) shape, top, ?_⟩
      intro a member
      rcases mem_cons.mp member with rfl | inside
      · omega
      · exact below a inside
    · rw [if_neg after] at later ⊢
      obtain ⟨last, shape, top, below⟩ := ih y later
      rw [dropLast_cons_of_ne_nil (carry_ne_nil y rest)]
      have order := answer.mp (by omega)
      refine ⟨last, congrArg (x :: ·) shape, by omega, ?_⟩
      intro a member
      rcases mem_cons.mp member with rfl | inside
      · omega
      · exact below a inside

theorem bubblesInReach_congr {before before' : List Int} (same : ∀ x, x ∈ before ↔ x ∈ before')
    (keys : List Int) : BubblesInReach before keys ↔ BubblesInReach before' keys := by
  induction keys generalizing before before' with
  | nil => exact Iff.rfl
  | cons y rest ih =>
    have grown : ∀ x, x ∈ y :: before ↔ x ∈ y :: before' := by simp [same]
    simp only [BubblesInReach, same, ih grown]

/-- The key before `y` is the largest so far and not larger: it stays where it is. -/
theorem bubblesInReach_stay {x y : Int} {behind keys : List Int} (largest : ∀ d ∈ behind, d ≤ x)
    (order : x ≤ y) :
    BubblesInReach (x :: behind) (y :: keys) ↔
      Decides x y ∧ BubblesInReach (y :: x :: behind) keys := by
  rw [BubblesInReach, ← and_assoc]
  refine and_congr_left fun _ => ⟨?_, ?_⟩
  · rintro ⟨_, low⟩
    obtain ⟨d, member, _, close⟩ := low ⟨x, by simp, order⟩
    refine ⟨by omega, ?_⟩
    rcases mem_cons.mp member with rfl | inside
    · exact close
    · have := largest d inside
      omega
  · intro decides
    refine ⟨?_, fun _ => ⟨x, by simp, order, decides.2⟩⟩
    intro d member above
    rcases mem_cons.mp member with rfl | inside
    · omega
    · have := largest d inside
      omega

/-- The key before `y` is the largest so far and larger: the two are swapped. -/
theorem bubblesInReach_swap {x y : Int} {behind keys : List Int} (largest : ∀ d ∈ behind, d ≤ x)
    (order : y < x) :
    BubblesInReach (x :: behind) (y :: keys) ↔
      Decides x y ∧ ((∃ d ∈ behind, d ≤ y) → ∃ d ∈ behind, d ≤ y ∧ y - d ≤ 2 ^ 31) ∧
        BubblesInReach (x :: y :: behind) keys := by
  have swapped : ∀ d, d ∈ y :: x :: behind ↔ d ∈ x :: y :: behind :=
    fun d => (List.Perm.swap x y behind).mem_iff
  have high : (∀ d ∈ x :: behind, y < d → d - y < 2 ^ 31) ↔ Decides x y := by
    constructor
    · intro all
      exact ⟨all x (by simp) order, by omega⟩
    · intro decides d member _
      have := decides.1
      rcases mem_cons.mp member with rfl | inside
      · omega
      · have := largest d inside
        omega
  have low : ¬ x ≤ y := by omega
  rw [BubblesInReach, high, bubblesInReach_congr swapped]
  simp only [exists_mem_cons_iff, low, false_and, false_or]

variable (decided : ∀ a b, (compare a b ≤ 0 ↔ key a ≤ key b) ↔ Decides (key a) (key b))
include decided

theorem carry_stuck (strict : ∀ a b, compare a b > 0 → compare b a ≤ 0) (x : α) (rest : List α)
    (wrong : ¬ Decided compare key x rest) : Stuck compare key (carry compare x rest) := by
  have behind : ∀ c values, Stuck compare key values → Stuck compare key (c :: values) := by
    rintro c values ⟨a, b, inside, pair⟩
    exact ⟨a, b, inside.cons c, pair⟩
  induction rest generalizing x with
  | nil => exact absurd trivial wrong
  | cons y rest ih =>
    simp only [Decided, not_and_or] at wrong
    simp only [carry]
    by_cases after : compare x y > 0
    · rw [if_pos after] at wrong ⊢
      rcases wrong with here | later
      · -- `y` is the larger one, and it was put before `x`
        have order : key x < key y := by
          by_contra other
          by_cases same : key x = key y
          · exact here ((decided x y).mpr ⟨by omega, by omega⟩)
          · exact here (iff_of_false (by omega) (by omega))
        refine ⟨y, x, pair_sublist_cons.mpr (.inr ⟨rfl, ?_⟩), order, strict x y after⟩
        exact (carry_perm x rest).mem_iff.mpr (by simp)
      · exact behind y _ (ih x later)
    · rw [if_neg after] at wrong ⊢
      rcases wrong with here | later
      · have order : key y < key x := by
          by_contra other
          exact here (iff_of_true (by omega) (by omega))
        refine ⟨x, y, pair_sublist_cons.mpr (.inr ⟨rfl, ?_⟩), order, by omega⟩
        exact (carry_perm y rest).mem_iff.mpr (by simp)
      · exact behind x _ (ih y later)

/-- A pass from the largest key so far, with the keys `behind` it left in place:
the pass is right, and the records it leaves to the next one are in reach. -/
theorem carry_inReach (x : α) (rest : List α) (behind : List Int)
    (largest : ∀ d ∈ behind, d ≤ key x) (near : behind ≠ [] → ∃ d ∈ behind, key x - d ≤ 2 ^ 31) :
    BubblesInReach (key x :: behind) (rest.map key) ↔ Decided compare key x rest ∧
        BubblesInReach behind ((carry compare x rest).dropLast.map key) := by
  induction rest generalizing x behind with
  | nil => exact iff_of_true trivial ⟨trivial, trivial⟩
  | cons y rest ih =>
    rw [map_cons, Decided, decided, carry, and_assoc]
    by_cases order : key x ≤ key y
    · rw [bubblesInReach_stay largest order]
      refine and_congr_right fun decides => ?_
      have answer := ((decided x y).mpr decides).mpr order
      have above : ∀ d ∈ key x :: behind, d ≤ key y := by
        intro d member
        rcases mem_cons.mp member with rfl | inside
        · exact order
        · exact (largest d inside).trans order
      rw [if_neg (by omega), if_neg (by omega),
        dropLast_cons_of_ne_nil (carry_ne_nil y rest), map_cons, BubblesInReach,
        ih y (key x :: behind) above fun _ => ⟨key x, by simp, decides.2⟩]
      refine and_congr_right fun _ => ⟨fun later => ⟨?_, ?_, later⟩, fun all => all.2.2⟩
      · intro d member larger
        have := largest d member
        omega
      · rintro ⟨d, member, _⟩
        obtain ⟨d', member', close⟩ := near (ne_nil_of_mem member)
        exact ⟨d', member', largest d' member', close⟩
    · rw [bubblesInReach_swap largest (by omega)]
      refine and_congr_right fun decides => ?_
      have answer : ¬ compare x y ≤ 0 := fun low => order (((decided x y).mpr decides).mp low)
      have below : ∀ d ∈ key y :: behind, d ≤ key x := by
        intro d member
        rcases mem_cons.mp member with rfl | inside
        · omega
        · exact largest d inside
      have high : ∀ d ∈ behind, key y < d → d - key y < 2 ^ 31 := by
        intro d member _
        have := largest d member
        have := decides.1
        omega
      rw [if_pos (by omega), if_pos (by omega),
        dropLast_cons_of_ne_nil (carry_ne_nil x rest), map_cons, BubblesInReach,
        ih x (key y :: behind) below fun _ => ⟨key y, by simp, decides.1.le⟩]
      constructor
      · rintro ⟨low, right, later⟩
        exact ⟨right, high, low, later⟩
      · rintro ⟨right, _, low, later⟩
        exact ⟨low, right, later⟩

theorem bubbleList_ordered_iff (strict : ∀ a b, compare a b > 0 → compare b a ≤ 0) (passes : Nat)
    (values : List α) (count : values.length = passes + 1) :
    Ordered key (bubbleList compare passes values) ↔ BubblesInReach [] (values.map key) := by
  induction passes generalizing values with
  | zero =>
    obtain ⟨x, rfl⟩ := length_eq_one_iff.mp count
    exact iff_of_true (pairwise_singleton _ x) ⟨by simp, by simp, trivial⟩
  | succ passes ih =>
    obtain ⟨x, rest, rfl⟩ := exists_cons_of_length_eq_add_one count
    have first : BubblesInReach [] ((x :: rest).map key) ↔
        BubblesInReach [key x] (rest.map key) := by simp [BubblesInReach]
    rw [first, carry_inReach decided x rest [] (by simp) (by simp)]
    by_cases right : Decided compare key x rest
    · obtain ⟨last, shape, _, top⟩ := carry_largest x rest right
      have length : (carry compare x rest).dropLast.length = passes + 1 := by
        rw [length_dropLast, (carry_perm x rest).length_eq]
        omega
      generalize (carry compare x rest).dropLast = before at shape top length ⊢
      rw [← ih _ length, bubbleList, bubblePass, shape, take_left' length, drop_left' length]
      have perm := @bubbleList_perm α compare passes before
      rw [Ordered, pairwise_append]
      refine ⟨fun ordered => ⟨right, ordered.1⟩, fun both => ⟨both.2, by simp, ?_⟩⟩
      intro a member b only
      rw [mem_singleton.mp only]
      exact top a (perm.mem_iff.mp member)
    · -- the stuck pair of this pass survives the passes after it
      refine iff_of_false ?_ fun both => right both.1
      obtain ⟨a, b, inside, below, answer⟩ := carry_stuck decided strict x rest right
      exact Stuck.not_ordered ⟨a, b, pair_bubbleList_succ passes (x :: rest)
        (pair_bubbleList answer passes) inside, below, answer⟩

end Bubbles

/-! Back to the array. -/

theorem merge_sort_serial_sorts_iff (n : Nat) (mem : Mem Cell Elem) :
    Ensures (mergeSortSerial compareElem 0 ((n : Int) - 1) .ret) mem
        (KeysSorted 0 ((n : Int) - 1)) ↔
      MergesInReach ((records 0 ((n : Int) - 1) mem).map Elem.key) := by
  have returns : Safe Set.univ Set.univ (.ret : Code) := trivial
  obtain ⟨mem', same, ran⟩ := run_mergeSortSerial compareElem n 0 ((n : Int) - 1) (by omega)
    .ret mem
  rw [ensures_iff (safe_mergeSortSerial _ _ returns), ← ordered_records_iff, ran, run,
    records_slice n mem', same.slice, ← records_slice, records_store,
    mergeSortList_ordered_iff compareElem_decides, records_slice]
  rw [(mergeSortList_perm _ _).length_eq, slice_length]

theorem bubble_sort_elem_sorts_iff (n : Nat) (mem : Mem Cell Elem) :
    Ensures (bubbleSortElem compareElem n .ret) mem (KeysSorted 0 ((n : Int) - 1)) ↔
      BubblesInReach [] ((records 0 ((n : Int) - 1) mem).map Elem.key) := by
  have returns : Safe Set.univ Set.univ (.ret : Code) := trivial
  rw [bubbleSortElem, ensures_iff (safe_bubblePasses _ _ _ returns), ← bubbleSortElem,
    ← ordered_records_iff, run_bubbleSortElem, run, records_store, records_slice]
  · cases n with
    | zero => exact iff_of_true (List.Pairwise.nil) trivial
    | succ n => exact bubbleList_ordered_iff compareElem_decides compareElem_strict n _ (by simp)
  · rw [(bubbleList_perm _ _).length_eq, slice_length]

/-- Each of the two sorts ends with the keys in order exactly if the keys it has
to compare are in reach of each other. -/
theorem sequential_sorts_sort_iff (n : Nat) (mem : Mem Cell Elem) :
    (Ensures (mergeSortSerial compareElem 0 ((n : Int) - 1) .ret) mem
        (KeysSorted 0 ((n : Int) - 1)) ↔
      MergesInReach ((records 0 ((n : Int) - 1) mem).map Elem.key)) ∧
    (Ensures (bubbleSortElem compareElem n .ret) mem (KeysSorted 0 ((n : Int) - 1)) ↔
      BubblesInReach [] ((records 0 ((n : Int) - 1) mem).map Elem.key)) :=
  ⟨merge_sort_serial_sorts_iff n mem, bubble_sort_elem_sorts_iff n mem⟩

def lowest : Elem := ⟨Vector.ofFn fun index => if index.val = 3 then 128 else 0⟩

def highest : Elem := ⟨Vector.ofFn fun index => if index.val = 3 then 127 else 255⟩

def extremeRecords : Mem Cell Elem := fun cell => if cell.2 = 0 then lowest else highest

theorem lowest_key : lowest.key = -2 ^ 31 := by decide +kernel

theorem highest_key : highest.key = 2 ^ 31 - 1 := by decide +kernel

/-- The two extreme keys, already in order, come out unsorted. -/
theorem extreme_keys_are_unsorted :
    KeysSorted 0 (((2 : Nat) : Int) - 1) extremeRecords ∧
      ¬ Ensures (mergeSortSerial compareElem 0 (((2 : Nat) : Int) - 1) .ret) extremeRecords
        (KeysSorted 0 (((2 : Nat) : Int) - 1)) ∧
      ¬ Ensures (bubbleSortElem compareElem (2 : Nat) .ret) extremeRecords
        (KeysSorted 0 (((2 : Nat) : Int) - 1)) := by
  have keys : (records 0 (((2 : Nat) : Int) - 1) extremeRecords).map Elem.key =
      [-2 ^ 31, 2 ^ 31 - 1] := by
    rw [← lowest_key, ← highest_key]
    rfl
  rw [merge_sort_serial_sorts_iff, bubble_sort_elem_sorts_iff, keys]
  refine ⟨?_, ?_, ?_⟩
  · rw [← ordered_records_iff, Ordered, ← pairwise_map (f := Elem.key) (R := (· ≤ ·)), keys]
    decide
  · intro reach
    rw [MergesInReach, if_neg (by decide)] at reach
    obtain ⟨y, only, _, close⟩ := reach.2.2.up (-2 ^ 31) (by decide)
      ⟨2 ^ 31 - 1, by decide, by decide⟩
    have : y = 2 ^ 31 - 1 := by simpa [middle] using only
    omega
  · intro reach
    obtain ⟨_, low, _⟩ := reach.2.2
    obtain ⟨x, only, _, close⟩ := low ⟨-2 ^ 31, by simp, by decide⟩
    have : x = -2 ^ 31 := by simpa using only
    omega

end OsProjects.KeyRange
