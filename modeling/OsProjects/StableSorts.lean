import OsProjects.SortOrder

/-!
What a stable sort of a list is, and that the list functions behind the
sequential sorts of `mergesort.c` are stable sorts. Records of one key are
compared as the sublist that carries that key: a stable sort leaves each of
these sublists as it was. Together with the order this determines the result.
-/

namespace OsProjects.StableSorts

open SortLists SortOrder List

variable {α : Type} {compare : α → α → Int} {key : α → Int}

def group (key : α → Int) (k : Int) (values : List α) : List α :=
  values.filter fun value => key value = k

structure StableSort (key : α → Int) (values sorted : List α) : Prop where
  perm : sorted.Perm values
  ordered : Ordered key sorted
  stable : ∀ k, group key k sorted = group key k values

@[simp] theorem group_nil (k : Int) : group key k [] = [] := rfl

theorem group_cons (k : Int) (x : α) (values : List α) :
    group key k (x :: values) =
      if key x = k then x :: group key k values else group key k values := by
  simp [group, filter_cons]

@[simp] theorem group_append (k : Int) (left right : List α) :
    group key k (left ++ right) = group key k left ++ group key k right :=
  filter_append ..

theorem mem_group {k : Int} {x : α} {values : List α} :
    x ∈ group key k values ↔ x ∈ values ∧ key x = k := by
  simp [group]

theorem group_eq_nil {k : Int} {values : List α} (other : ∀ x ∈ values, key x ≠ k) :
    group key k values = [] := by
  rw [eq_nil_iff_forall_not_mem]
  intro x member
  exact other x (mem_group.mp member).1 (mem_group.mp member).2

theorem group_swap (k : Int) (x y : α) (values : List α) (other : key x ≠ key y) :
    group key k (x :: y :: values) = group key k (y :: x :: values) := by
  by_cases here : key x = k
  · have away : key y ≠ k := fun there => other (here.trans there.symm)
    simp [group_cons, here, away]
  · simp [group_cons, here]

/-! The order and the groups determine a list. -/

theorem mem_of_group_eq {first second : List α}
    (same : ∀ k, group key k first = group key k second) {x : α} (member : x ∈ first) :
    x ∈ second := by
  have inside : x ∈ group key (key x) first := mem_group.mpr ⟨member, rfl⟩
  rw [same] at inside
  exact (mem_group.mp inside).1

theorem ordered_head_le {x : α} {rest : List α} (ordered : Ordered key (x :: rest)) {y : α}
    (member : y ∈ x :: rest) : key x ≤ key y := by
  rcases mem_cons.mp member with rfl | later
  · exact le_refl _
  · exact (pairwise_cons.mp ordered).1 y later

theorem eq_of_group_eq (first second : List α) (ordered1 : Ordered key first)
    (ordered2 : Ordered key second) (same : ∀ k, group key k first = group key k second) :
    first = second := by
  induction first generalizing second with
  | nil =>
    cases second with
    | nil => rfl
    | cons y second =>
      have absent := mem_of_group_eq (fun k => (same k).symm) (mem_cons_self (a := y))
      cases absent
  | cons x first ih =>
    cases second with
    | nil =>
      have absent := mem_of_group_eq same (mem_cons_self (a := x))
      cases absent
    | cons y second =>
      -- each head is the smallest key of both lists, so the heads open the same group
      have low := ordered_head_le ordered1
        (mem_of_group_eq (fun k => (same k).symm) (mem_cons_self (a := y)))
      have high := ordered_head_le ordered2 (mem_of_group_eq same (mem_cons_self (a := x)))
      have keys : key y = key x := by omega
      have heads := same (key x)
      rw [group_cons, group_cons, if_pos rfl, if_pos keys] at heads
      obtain ⟨rfl, _⟩ := cons.inj heads
      congr 1
      apply ih second (pairwise_cons.mp ordered1).2 (pairwise_cons.mp ordered2).2
      intro k
      have both := same k
      rw [group_cons, group_cons] at both
      split at both
      · exact (cons.inj both).2
      · exact both

theorem StableSort.unique {values first second : List α} (sort1 : StableSort key values first)
    (sort2 : StableSort key values second) : first = second :=
  eq_of_group_eq first second sort1.ordered sort2.ordered fun k =>
    (sort1.stable k).trans (sort2.stable k).symm

/-! `insertion_sort`: a record moves in front of records with larger keys only. -/

theorem key_lt_of_compare {values : List α} (agrees : Agrees compare key values) {x y : α}
    (here : x ∈ values) (there : y ∈ values) (after : compare x y > 0) : key y < key x := by
  have := agrees x here y there
  omega

theorem group_insertRev (temp : α) (values : List α)
    (agrees : Agrees compare key (temp :: values)) (k : Int) :
    group key k (insertRev compare temp values) = group key k (temp :: values) := by
  induction values with
  | nil => rfl
  | cons value rest ih =>
    simp only [insertRev]
    split
    · rename_i larger
      have differ : key value ≠ key temp := by
        have := key_lt_of_compare agrees (x := value) (y := temp) (by simp) (by simp) larger
        omega
      have fewer : Agrees compare key (temp :: rest) := agrees_subset agrees (by simp; tauto)
      rw [group_cons, ih fewer, ← group_cons, group_swap k value temp rest differ]
    · rfl

theorem group_insertList (sorted : List α) (temp : α)
    (agrees : Agrees compare key (temp :: sorted)) (k : Int) :
    group key k (insertList compare sorted temp) = group key k (sorted ++ [temp]) := by
  have backwards : Agrees compare key (temp :: sorted.reverse) := agrees_subset agrees (by simp)
  have moved := group_insertRev temp sorted.reverse backwards k
  simp only [group, insertList, filter_reverse] at moved ⊢
  rw [moved, ← filter_reverse]
  simp

theorem group_foldl_insertList (sorted values : List α)
    (agrees : Agrees compare key (sorted ++ values)) (k : Int) :
    group key k (values.foldl (insertList compare) sorted) = group key k (sorted ++ values) := by
  induction values generalizing sorted with
  | nil => simp
  | cons value rest ih =>
    have first : Agrees compare key (value :: sorted) := agrees_subset agrees (by simp; tauto)
    have grown : Agrees compare key (insertList compare sorted value ++ rest) := by
      apply agrees_subset agrees
      intro a member
      have perm := (insertList_perm compare sorted value).mem_iff (a := a)
      simp only [mem_append, perm, mem_cons] at member ⊢
      tauto
    rw [foldl_cons, ih _ grown, group_append, group_insertList sorted value first,
      ← group_append, append_assoc, singleton_append]

theorem insertionList_stable (values : List α) (agrees : Agrees compare key values) :
    StableSort key values (insertionList compare values) where
  perm := insertionList_perm compare values
  ordered := foldl_insertList_ordered [] values agrees List.Pairwise.nil
  stable := group_foldl_insertList [] values agrees

/-! `merge_serial`: equal keys come from the left run first. -/

theorem group_mergeList (left right : List α) (agrees : Agrees compare key (left ++ right))
    (ordered : Ordered key left) (k : Int) :
    group key k (mergeList compare left right) = group key k (left ++ right) := by
  induction left generalizing right with
  | nil => simp [mergeList]
  | cons x left ihLeft =>
    induction right with
    | nil => simp [mergeList]
    | cons y right ihRight =>
      rw [mergeList_cons]
      split
      · have fewer : Agrees compare key (left ++ y :: right) :=
          agrees_subset agrees (by simp; tauto)
        rw [group_cons, ihLeft _ fewer (pairwise_cons.mp ordered).2, ← group_cons, cons_append]
      · rename_i after
        have fewer : Agrees compare key (x :: left ++ right) :=
          agrees_subset agrees (by simp; tauto)
        rw [group_cons, ihRight fewer, group_append, group_append, group_cons k y right]
        split
        · -- every key of the left run is larger than the one that goes first
          rename_i here
          have larger := key_lt_of_compare agrees (x := x) (y := y) (by simp) (by simp) (by omega)
          have none : group key k (x :: left) = [] := by
            apply group_eq_nil
            intro a member
            have := ordered_head_le ordered member
            omega
          rw [none, nil_append, nil_append]
        · rfl

theorem StableSort.merge {left right sortedLeft sortedRight : List α}
    (first : StableSort key left sortedLeft) (second : StableSort key right sortedRight)
    (agrees : Agrees compare key (left ++ right)) :
    StableSort key (left ++ right) (mergeList compare sortedLeft sortedRight) where
  perm := (mergeList_perm compare _ _).trans (first.perm.append second.perm)
  ordered := mergeList_ordered _ _
    (agrees_subset agrees fun _ => (first.perm.append second.perm).mem_iff.mp)
    first.ordered second.ordered
  stable k := by
    have sorted : Agrees compare key (sortedLeft ++ sortedRight) :=
      agrees_subset agrees fun _ => (first.perm.append second.perm).mem_iff.mp
    rw [group_mergeList _ _ sorted first.ordered, group_append, group_append, first.stable,
      second.stable]

theorem StableSort.short {values : List α} (short : values.length ≤ 1) :
    StableSort key values values where
  perm := List.Perm.refl _
  ordered := by
    cases values with
    | nil => exact List.Pairwise.nil
    | cons x rest =>
      obtain rfl : rest = [] := eq_nil_of_length_eq_zero (by simpa using short)
      exact pairwise_singleton _ x
  stable _ := rfl

def mergeSortList (compare : α → α → Int) (values : List α) : List α :=
  if values.length ≤ 1 then values
  else mergeList compare (mergeSortList compare (values.take (middle values + 1)))
    (mergeSortList compare (values.drop (middle values + 1)))
termination_by values.length
decreasing_by
  all_goals
    simp only [length_take, length_drop, middle]
    omega

theorem mergeSortList_perm (compare : α → α → Int) (values : List α) :
    (mergeSortList compare values).Perm values := by
  fun_induction mergeSortList compare values with
  | case1 values short => exact List.Perm.refl _
  | case2 values long ihLeft ihRight =>
    have halves := (mergeList_perm compare _ _).trans (ihLeft.append ihRight)
    rwa [take_append_drop] at halves

theorem mergeSortList_stable (values : List α) (agrees : Agrees compare key values) :
    StableSort key values (mergeSortList compare values) := by
  fun_induction mergeSortList compare values with
  | case1 values short => exact StableSort.short short
  | case2 values long ihLeft ihRight =>
    have left := ihLeft (agrees_subset agrees fun _ => mem_of_mem_take)
    have right := ihRight (agrees_subset agrees fun _ => mem_of_mem_drop)
    have merged := left.merge right (by rwa [take_append_drop])
    rwa [take_append_drop] at merged

/-! `bubble_sort_elem`: a pass carries the last of the largest records to the end. -/

def carry (compare : α → α → Int) (x : α) : List α → List α
  | [] => [x]
  | y :: rest =>
    if compare x y > 0 then y :: carry compare x rest else x :: carry compare y rest

def bubblePass (compare : α → α → Int) : List α → List α
  | [] => []
  | x :: rest => carry compare x rest

def bubbleList (compare : α → α → Int) : Nat → List α → List α
  | 0, values => values
  | passes + 1, values =>
    bubbleList compare passes ((bubblePass compare values).take (passes + 1)) ++
      (bubblePass compare values).drop (passes + 1)

theorem carry_perm (x : α) (rest : List α) : (carry compare x rest).Perm (x :: rest) := by
  induction rest generalizing x with
  | nil => exact List.Perm.refl _
  | cons y rest ih =>
    simp only [carry]
    split
    · exact ((ih x).cons y).trans (List.Perm.swap x y rest)
    · exact (ih y).cons x

theorem bubblePass_perm (values : List α) : (bubblePass compare values).Perm values := by
  cases values with
  | nil => exact List.Perm.refl _
  | cons x rest => exact carry_perm x rest

theorem bubbleList_perm (passes : Nat) (values : List α) :
    (bubbleList compare passes values).Perm values := by
  induction passes generalizing values with
  | zero => exact List.Perm.refl _
  | succ passes ih =>
    have whole := (ih ((bubblePass compare values).take (passes + 1))).append_right
      ((bubblePass compare values).drop (passes + 1))
    rw [take_append_drop] at whole
    exact whole.trans (bubblePass_perm values)

theorem group_carry (x : α) (rest : List α) (agrees : Agrees compare key (x :: rest)) (k : Int) :
    group key k (carry compare x rest) = group key k (x :: rest) := by
  induction rest generalizing x with
  | nil => rfl
  | cons y rest ih =>
    simp only [carry]
    split
    · rename_i larger
      have differ : key y ≠ key x := by
        have := key_lt_of_compare agrees (x := x) (y := y) (by simp) (by simp) larger
        omega
      have fewer : Agrees compare key (x :: rest) := agrees_subset agrees (by simp; tauto)
      rw [group_cons, ih x fewer, ← group_cons, group_swap k y x rest differ]
    · have fewer : Agrees compare key (y :: rest) := agrees_subset agrees (by simp; tauto)
      rw [group_cons, ih y fewer, ← group_cons]

theorem carry_last (x : α) (rest : List α) (agrees : Agrees compare key (x :: rest)) :
    ∃ before last, carry compare x rest = before ++ [last] ∧ key x ≤ key last ∧
      ∀ a ∈ before, key a ≤ key last := by
  induction rest generalizing x with
  | nil => exact ⟨[], x, rfl, le_refl _, by simp⟩
  | cons y rest ih =>
    simp only [carry]
    split
    · rename_i larger
      have order := key_lt_of_compare agrees (x := x) (y := y) (by simp) (by simp) larger
      obtain ⟨before, last, shape, top, below⟩ := ih x (agrees_subset agrees (by simp; tauto))
      refine ⟨y :: before, last, by rw [shape, cons_append], top, ?_⟩
      intro a member
      rcases mem_cons.mp member with rfl | inside
      · omega
      · exact below a inside
    · rename_i smaller
      have order := (agrees x (by simp) y (by simp)).mp (by omega)
      obtain ⟨before, last, shape, top, below⟩ := ih y (agrees_subset agrees (by simp; tauto))
      refine ⟨x :: before, last, by rw [shape, cons_append], by omega, ?_⟩
      intro a member
      rcases mem_cons.mp member with rfl | inside
      · omega
      · exact below a inside

theorem StableSort.snoc {values before sorted : List α} {last : α}
    (moved : (before ++ [last]).Perm values)
    (groups : ∀ k, group key k (before ++ [last]) = group key k values)
    (sort : StableSort key before sorted) (top : ∀ a ∈ before, key a ≤ key last) :
    StableSort key values (sorted ++ [last]) where
  perm := (sort.perm.append_right [last]).trans moved
  ordered := by
    refine pairwise_append.mpr ⟨sort.ordered, pairwise_singleton _ _, ?_⟩
    intro a inside b only
    rw [mem_singleton.mp only]
    exact top a (sort.perm.mem_iff.mp inside)
  stable k := by rw [← groups k, group_append, group_append, sort.stable]

theorem bubbleList_stable (passes : Nat) (values : List α) (count : values.length = passes + 1)
    (agrees : Agrees compare key values) :
    StableSort key values (bubbleList compare passes values) := by
  induction passes generalizing values with
  | zero => exact StableSort.short (by omega)
  | succ passes ih =>
    cases values with
    | nil => simp at count
    | cons x rest =>
      obtain ⟨before, last, shape, _, top⟩ := carry_last x rest agrees
      have moved : (before ++ [last]).Perm (x :: rest) := shape ▸ carry_perm x rest
      have length : before.length = passes + 1 := by
        have := moved.length_eq
        simp only [length_append, length_singleton] at this
        omega
      have sort := ih before length
        (agrees_subset agrees fun a inside => moved.mem_iff.mp (mem_append_left _ inside))
      rw [bubbleList, bubblePass, shape, take_left' length, drop_left' length]
      exact sort.snoc moved (fun k => by rw [← shape, group_carry x rest agrees]) top

end OsProjects.StableSorts
