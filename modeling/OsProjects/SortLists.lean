import Mathlib.Data.List.Sort

/-!
The sorting functions of `mergesort.c` on lists instead of index ranges. The
comparison stays arbitrary here: that no record is lost or repeated does not
depend on it being an order.
-/

namespace OsProjects.SortLists

open List
variable {α : Type} (compare : α → α → Int)

def insertRev (temp : α) : List α → List α
  | [] => [temp]
  | value :: rest =>
    if compare value temp > 0 then value :: insertRev temp rest else temp :: value :: rest

def insertList (sorted : List α) (temp : α) : List α :=
  (insertRev compare temp sorted.reverse).reverse

def insertionList (values : List α) : List α :=
  values.foldl (insertList compare) []

def mergeList (left right : List α) : List α :=
  merge left right fun x y => decide (compare x y ≤ 0)

def splitIndex (at' : Nat → α) (p : α) (low high : Nat) : Nat :=
  if low < high then
    if compare p (at' (low + (high - low) / 2)) ≤ 0 then
      splitIndex at' p low (low + (high - low) / 2)
    else splitIndex at' p (low + (high - low) / 2 + 1) high
  else low
termination_by high - low

def splitRun (values : List α) (p : α) : Nat :=
  splitIndex compare (fun index => (values[index]?).getD p) p 0 (values.length - 1)

theorem splitIndex_le (at' : Nat → α) (p : α) (low high : Nat) (ordered : low ≤ high) :
    low ≤ splitIndex compare at' p low high ∧ splitIndex compare at' p low high ≤ high := by
  fun_induction splitIndex compare at' p low high with
  | case1 low high loop _ ih | case2 low high loop _ ih =>
    have := ih (by omega)
    omega
  | case3 low high stop => omega

theorem splitRun_le (values : List α) (p : α) : splitRun compare values p ≤ values.length := by
  have bound := (splitIndex_le compare (fun index => (values[index]?).getD p) p 0
    (values.length - 1) (Nat.zero_le _)).2
  simp only [splitRun]
  omega

theorem splitIndex_congr (at1 at2 : Nat → α) (p : α) (low high : Nat)
    (same : ∀ index < high, at1 index = at2 index) :
    splitIndex compare at1 p low high = splitIndex compare at2 p low high := by
  fun_induction splitIndex compare at1 p low high with
  | case1 low high loop before ih =>
    conv => rhs; rw [splitIndex]
    rw [← same _ (by omega)]
    simp only [loop, before, ↓reduceIte]
    exact ih fun index inside => same index (by omega)
  | case2 low high loop after ih =>
    conv => rhs; rw [splitIndex]
    rw [← same _ (by omega)]
    simp only [loop, after, ↓reduceIte]
    exact ih same
  | case3 low high stop =>
    conv => rhs; rw [splitIndex]
    simp [stop]

/-- The pivot comes from the longer run; on equal lengths from the right one. -/
def shorter (left right : List α) : List α :=
  if right.length < left.length then right else left

def longer (left right : List α) : List α :=
  if right.length < left.length then left else right

theorem shorter_longer_perm (left right : List α) :
    (shorter left right ++ longer left right).Perm (left ++ right) := by
  unfold shorter longer
  split
  · exact perm_append_comm
  · exact List.Perm.refl _

theorem shorter_longer_length (left right : List α) :
    (shorter left right).length + (longer left right).length = left.length + right.length := by
  simpa using (shorter_longer_perm left right).length_eq

theorem le_longer_length (left right : List α) : left.length ≤ (longer left right).length := by
  unfold longer
  split
  · exact le_refl _
  · omega

def middle (values : List α) : Nat := (values.length - 1) / 2

def pivotMerge (left right : List α) : List α :=
  if left.length ≤ 16 then mergeList compare left right
  else
    match (longer left right)[middle (longer left right)]? with
    | none => left ++ right
    | some pivot =>
      pivotMerge ((shorter left right).take (splitRun compare (shorter left right) pivot))
          ((longer left right).take (middle (longer left right))) ++
        pivot :: pivotMerge
          ((shorter left right).drop (splitRun compare (shorter left right) pivot))
          ((longer left right).drop (middle (longer left right) + 1))
termination_by left.length + right.length
decreasing_by
  all_goals
    have long := le_longer_length left right
    have total := shorter_longer_length left right
    simp only [length_take, length_drop, middle]
    omega

theorem pivotMerge_small (left right : List α) (small : left.length ≤ 16) :
    pivotMerge compare left right = mergeList compare left right := by
  rw [pivotMerge, if_pos small]

theorem pivotMerge_pivot (left right : List α) (large : ¬ left.length ≤ 16) (pivot : α)
    (found : (longer left right)[middle (longer left right)]? = some pivot) :
    pivotMerge compare left right = pivotMerge compare
          ((shorter left right).take (splitRun compare (shorter left right) pivot))
          ((longer left right).take (middle (longer left right))) ++
        pivot :: pivotMerge compare
          ((shorter left right).drop (splitRun compare (shorter left right) pivot))
          ((longer left right).drop (middle (longer left right) + 1)) := by
  rw [pivotMerge, if_neg large]
  split
  · rename_i missing
    rw [found] at missing
    cases missing
  · rename_i other same
    rw [found] at same
    cases same
    rfl

def sortList (values : List α) : List α :=
  if values.length ≤ 16 then insertionList compare values
  else
    pivotMerge compare (sortList (values.take (middle values + 1)))
      (sortList (values.drop (middle values + 1)))
termination_by values.length
decreasing_by
  all_goals
    simp only [length_take, length_drop, middle]
    omega

theorem insertRev_perm (temp : α) (values : List α) :
    (insertRev compare temp values).Perm (temp :: values) := by
  induction values with
  | nil => exact List.Perm.refl _
  | cons value rest ih =>
    simp only [insertRev]
    split
    · exact (ih.cons value).trans (List.Perm.swap temp value rest)
    · exact List.Perm.refl _

theorem insertList_perm (sorted : List α) (temp : α) :
    (insertList compare sorted temp).Perm (temp :: sorted) :=
  (reverse_perm _).trans
    ((insertRev_perm compare temp sorted.reverse).trans (sorted.reverse_perm.cons temp))

theorem foldl_insertList_perm (sorted values : List α) :
    (values.foldl (insertList compare) sorted).Perm (sorted ++ values) := by
  induction values generalizing sorted with
  | nil => simp
  | cons value rest ih =>
    simp only [foldl_cons]
    refine (ih _).trans ?_
    exact ((insertList_perm compare sorted value).append_right rest).trans (perm_middle.symm)

theorem insertionList_perm (values : List α) : (insertionList compare values).Perm values := by
  simpa [insertionList] using foldl_insertList_perm compare [] values

theorem mergeList_perm (left right : List α) :
    (mergeList compare left right).Perm (left ++ right) :=
  merge_perm_append _

theorem cut_around (values : List α) (index : Nat) (pivot : α)
    (found : values[index]? = some pivot) :
    values.take index ++ pivot :: values.drop (index + 1) = values := by
  obtain ⟨inside, same⟩ := List.getElem?_eq_some_iff.mp found
  rw [← same, getElem_cons_drop, take_append_drop]

theorem gather_perm (values : List α) (cut : Nat) (before after : List α) (pivot : α) :
    (values.take cut ++ before ++ pivot :: (values.drop cut ++ after)).Perm
      (values ++ (before ++ pivot :: after)) := by
  have split : values ++ (before ++ pivot :: after) =
      values.take cut ++ (values.drop cut ++ (before ++ pivot :: after)) := by
    rw [← append_assoc (values.take cut), take_append_drop]
  rw [split, append_assoc]
  apply List.Perm.append_left
  refine List.Perm.trans ?_ (perm_append_comm_assoc before (values.drop cut) _)
  apply List.Perm.append_left
  exact perm_middle.symm

theorem pivotMerge_perm (left right : List α) :
    (pivotMerge compare left right).Perm (left ++ right) := by
  fun_induction pivotMerge compare left right with
  | case1 left right small => exact mergeList_perm compare left right
  | case2 => exact List.Perm.refl _
  | case3 left right big pivot found ihLeft ihRight =>
    have cutLong := cut_around _ _ pivot found
    have gather := gather_perm (shorter left right) (splitRun compare (shorter left right) pivot)
      ((longer left right).take (middle (longer left right)))
      ((longer left right).drop (middle (longer left right) + 1)) pivot
    rw [cutLong] at gather
    exact ((ihLeft.append (ihRight.cons pivot)).trans gather).trans (shorter_longer_perm left right)

theorem sortList_perm (values : List α) : (sortList compare values).Perm values := by
  fun_induction sortList compare values with
  | case1 values small => exact insertionList_perm compare values
  | case2 values big ihLeft ihRight =>
    have merged := (pivotMerge_perm compare _ _).trans (ihLeft.append ihRight)
    rwa [take_append_drop] at merged

@[simp] theorem insertList_length (sorted : List α) (temp : α) :
    (insertList compare sorted temp).length = sorted.length + 1 :=
  (insertList_perm compare sorted temp).length_eq

@[simp] theorem pivotMerge_length (left right : List α) :
    (pivotMerge compare left right).length = left.length + right.length := by
  simpa using (pivotMerge_perm compare left right).length_eq

end OsProjects.SortLists
