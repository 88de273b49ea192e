import OsProjects.SortRefinement

/-!
When `merge_sort_parallel` sorts. `find_split_point` searches `l..r` with
`high = r`, so it can never answer that the whole run lies below the pivot: it
then returns `r`, and the last element of the run, smaller than the pivot, is
merged behind it. No later merge repairs this, because merging keeps each run
in its own order. So the result is sorted exactly if no pivot step of the
recursion meets a nonempty shorter run that is entirely below its pivot.
-/

namespace OsProjects.SortOrder

open ForkJoin ParallelSort ArraySlices SortLists SortRefinement List

/-- The pivot steps of one merge of two sorted runs of keys all find a split:
the shorter run is empty or has a key that is not below the pivot. -/
def pivotsOk (left right : List Int) : Bool :=
  if left.length ≤ 16 then true
  else
    match (longer left right)[middle (longer left right)]? with
    | none => true
    | some pivot =>
      ((shorter left right).isEmpty || (shorter left right).any (pivot ≤ ·)) &&
        pivotsOk ((shorter left right).take ((shorter left right).countP (· < pivot)))
          ((longer left right).take (middle (longer left right))) &&
        pivotsOk ((shorter left right).drop ((shorter left right).countP (· < pivot)))
          ((longer left right).drop (middle (longer left right) + 1))
termination_by left.length + right.length
decreasing_by
  all_goals
    have long := le_longer_length left right
    have total := shorter_longer_length left right
    simp only [length_take, length_drop, middle]
    omega

def splitsOk (keys : List Int) : Bool :=
  if keys.length ≤ 16 then true
  else
    splitsOk (keys.take (middle keys + 1)) && splitsOk (keys.drop (middle keys + 1)) &&
      pivotsOk (keys.take (middle keys + 1)).mergeSort (keys.drop (middle keys + 1)).mergeSort
termination_by keys.length
decreasing_by
  all_goals
    simp only [length_take, length_drop, middle]
    omega

theorem pivotsOk_small (left right : List Int) (small : left.length ≤ 16) :
    pivotsOk left right = true := by
  rw [pivotsOk, if_pos small]

theorem pivotsOk_pivot (left right : List Int) (large : ¬ left.length ≤ 16) (pivot : Int)
    (found : (longer left right)[middle (longer left right)]? = some pivot) :
    pivotsOk left right = true ↔ (shorter left right = [] ∨ ∃ x ∈ shorter left right, pivot ≤ x) ∧
      pivotsOk ((shorter left right).take ((shorter left right).countP (· < pivot)))
        ((longer left right).take (middle (longer left right))) = true ∧
      pivotsOk ((shorter left right).drop ((shorter left right).countP (· < pivot)))
        ((longer left right).drop (middle (longer left right) + 1)) = true := by
  rw [pivotsOk, if_neg large]
  split
  · rename_i missing
    rw [found] at missing
    cases missing
  · rename_i other same
    rw [found] at same
    cases same
    simp [and_assoc]

section Lists
variable {α : Type} (compare : α → α → Int) (key : α → Int)

def Ordered (values : List α) : Prop := values.Pairwise fun a b => key a ≤ key b

def Agrees (values : List α) : Prop :=
  ∀ a ∈ values, ∀ b ∈ values, (compare a b ≤ 0 ↔ key a ≤ key b)

variable {compare key}

theorem agrees_subset {values fewer : List α} (agrees : Agrees compare key values)
    (inside : ∀ a ∈ fewer, a ∈ values) : Agrees compare key fewer :=
  fun a memA b memB => agrees a (inside a memA) b (inside b memB)

theorem insertRev_ordered (temp : α) (values : List α)
    (agrees : Agrees compare key (temp :: values))
    (ordered : values.Pairwise fun a b => key b ≤ key a) :
    (insertRev compare temp values).Pairwise fun a b => key b ≤ key a := by
  induction values with
  | nil => simp [insertRev]
  | cons value rest ih =>
    obtain ⟨above, tail⟩ := pairwise_cons.mp ordered
    have decided := agrees value (by simp) temp (by simp)
    simp only [insertRev]
    split
    · rename_i larger
      have greater : key temp ≤ key value := by
        have := decided.not.mp (by omega)
        omega
      refine pairwise_cons.mpr ⟨?_, ih (agrees_subset agrees ?_) tail⟩
      · intro a member
        rcases mem_cons.mp ((insertRev_perm compare temp rest).subset member) with
          rfl | old
        · exact greater
        · exact above a old
      · intro a member
        rcases mem_cons.mp member with rfl | old
        · simp
        · simp [old]
    · rename_i smaller
      have least : key value ≤ key temp := decided.mp (by omega)
      refine pairwise_cons.mpr ⟨?_, ordered⟩
      intro a member
      rcases mem_cons.mp member with rfl | old
      · exact least
      · exact le_trans (above a old) least

theorem insertList_ordered (sorted : List α) (temp : α)
    (agrees : Agrees compare key (temp :: sorted)) (ordered : Ordered key sorted) :
    Ordered key (insertList compare sorted temp) := by
  simp only [Ordered, insertList, pairwise_reverse]
  apply insertRev_ordered
  · exact agrees_subset agrees (fun a member => by simpa using member)
  · simpa [pairwise_reverse, Ordered] using ordered

theorem foldl_insertList_ordered (sorted values : List α)
    (agrees : Agrees compare key (sorted ++ values)) (ordered : Ordered key sorted) :
    Ordered key (values.foldl (insertList compare) sorted) := by
  induction values generalizing sorted with
  | nil => exact ordered
  | cons value rest ih =>
    have perm := insertList_perm compare sorted value
    apply ih
    · apply agrees_subset agrees
      intro a member
      rcases mem_append.mp member with old | later
      · rcases mem_cons.mp (perm.subset old) with rfl | older
        · simp
        · simp [older]
      · simp [later]
    · refine insertList_ordered sorted value (agrees_subset agrees ?_) ordered
      intro a member
      rcases mem_cons.mp member with rfl | old
      · simp
      · simp [old]

theorem mergeList_cons (x y : α) (left right : List α) :
    mergeList compare (x :: left) (y :: right) =
      if compare x y ≤ 0 then x :: mergeList compare left (y :: right)
      else y :: mergeList compare (x :: left) right := by
  simp only [mergeList, cons_merge_cons, decide_eq_true_eq]

theorem mergeList_ordered (left right : List α) (agrees : Agrees compare key (left ++ right))
    (orderedLeft : Ordered key left) (orderedRight : Ordered key right) :
    Ordered key (mergeList compare left right) := by
  induction left generalizing right with
  | nil => simpa [mergeList] using orderedRight
  | cons x left ihLeft =>
    induction right with
    | nil => simpa [mergeList] using orderedLeft
    | cons y right ihRight =>
      obtain ⟨aboveX, tailX⟩ := pairwise_cons.mp orderedLeft
      obtain ⟨aboveY, tailY⟩ := pairwise_cons.mp orderedRight
      have decided := agrees x (by simp) y (by simp)
      rw [mergeList_cons]
      split
      · rename_i first
        have least : key x ≤ key y := decided.mp first
        refine pairwise_cons.mpr ⟨?_, ihLeft (y :: right) ?_ tailX orderedRight⟩
        · intro a member
          rcases mem_append.mp ((mergeList_perm compare _ _).subset member) with
            older | newer
          · exact aboveX a older
          · rcases mem_cons.mp newer with rfl | later
            · exact least
            · exact le_trans least (aboveY a later)
        · exact agrees_subset agrees (fun a member => by
            simp only [cons_append, mem_cons, mem_append] at member ⊢
            tauto)
      · rename_i second
        have least : key y ≤ key x := by
          have := decided.not.mp second
          omega
        refine pairwise_cons.mpr ⟨?_, ihRight ?_ tailY⟩
        · intro a member
          rcases mem_append.mp ((mergeList_perm compare _ _).subset member) with
            older | newer
          · rcases mem_cons.mp older with rfl | later
            · exact least
            · exact le_trans least (aboveX a later)
          · exact aboveY a newer
        · exact agrees_subset agrees (fun a member => by
            simp only [cons_append, mem_cons, mem_append] at member ⊢
            tauto)

/-! Merging keeps the order inside each run, for any comparison. -/

theorem mergeList_sublist (left right : List α) :
    left.Sublist (mergeList compare left right) ∧
      right.Sublist (mergeList compare left right) := by
  induction left generalizing right with
  | nil => simp [mergeList]
  | cons x left ihLeft =>
    induction right with
    | nil => simp [mergeList]
    | cons y right ihRight =>
      rw [mergeList_cons]
      split
      · exact ⟨(ihLeft (y :: right)).1.cons_cons x, (ihLeft (y :: right)).2.cons x⟩
      · exact ⟨ihRight.1.cons y, ihRight.2.cons_cons y⟩

theorem pivotMerge_sublist (left right : List α) :
    left.Sublist (pivotMerge compare left right) ∧
      right.Sublist (pivotMerge compare left right) := by
  fun_induction pivotMerge compare left right with
  | case1 left right small => exact mergeList_sublist left right
  | case2 left right => exact ⟨sublist_append_left left right,
      sublist_append_right left right⟩
  | case3 left right large pivot found ihLeft ihRight =>
    have short := ihLeft.1.append (ihRight.1.cons pivot)
    have long := ihLeft.2.append (ihRight.2.cons_cons pivot)
    rw [take_append_drop] at short
    rw [cut_around _ _ pivot found] at long
    by_cases swap : right.length < left.length
    · simp only [shorter, longer, swap, ↓reduceIte] at short long ⊢
      exact ⟨long, short⟩
    · simp only [shorter, longer, swap, ↓reduceIte] at short long ⊢
      exact ⟨short, long⟩

theorem splitIndex_spec (at' : Nat → α) (p : α) (low high below : Nat)
    (decided : ∀ index < high, compare p (at' index) ≤ 0 ↔ below ≤ index)
    (first : low ≤ below) (last : below ≤ high) : splitIndex compare at' p low high = below := by
  fun_induction splitIndex compare at' p low high with
  | case1 low high loop before ih =>
    have := (decided _ (by omega)).mp before
    exact ih (fun index inside => decided index (by omega)) first this
  | case2 low high loop after ih =>
    have := (decided (low + (high - low) / 2) (by omega)).not.mp after
    exact ih decided (by omega) last
  | case3 low high stop => omega

theorem ordered_countP (values : List α) (ordered : Ordered key values) (bound : Int)
    (index : Nat) (inside : index < values.length) :
    bound ≤ key values[index] ↔ (values.map key).countP (· < bound) ≤ index := by
  induction values generalizing index with
  | nil => exact absurd inside (Nat.not_lt_zero index)
  | cons value rest ih =>
    obtain ⟨above, tail⟩ := pairwise_cons.mp ordered
    by_cases least : key value < bound
    · cases index with
      | zero => simp [least]
      | succ index =>
        have := ih tail index (by simpa using inside)
        simp [this, least]
    · -- a value that is not below the bound has only such values behind it
      have none : (rest.map key).countP (· < bound) = 0 := by
        rw [countP_eq_zero]
        intro x member
        obtain ⟨a, memA, rfl⟩ := mem_map.mp member
        have := above a memA
        simp only [decide_eq_true_eq]
        omega
      have larger : bound ≤ key (value :: rest)[index] := by
        cases index with
        | zero => simpa using least
        | succ index =>
          have shifted : index < rest.length := by simpa using inside
          have := above rest[index] (getElem_mem _)
          simp only [getElem_cons_succ]
          omega
      simp [none, least, larger]

theorem splitRun_eq (values : List α) (p : α) (agrees : Agrees compare key (p :: values))
    (ordered : Ordered key values) (reached : values = [] ∨ ∃ x ∈ values.map key, key p ≤ x) :
    splitRun compare values p = (values.map key).countP (· < key p) := by
  rcases reached with rfl | ⟨x, member, least⟩
  · simp [splitRun, splitIndex]
  · have fewer : (values.map key).countP (· < key p) < (values.map key).length := by
      apply lt_of_le_of_ne countP_le_length
      intro all
      have := countP_eq_length.mp all x member
      simp only [decide_eq_true_eq] at this
      omega
    rw [length_map] at fewer
    apply splitIndex_spec
    · intro index inside
      have bound : index < values.length := by omega
      rw [← ordered_countP values ordered (key p) index bound,
        getElem?_eq_getElem bound, Option.getD_some]
      exact agrees p (by simp) _ (by simp)
    · exact Nat.zero_le _
    · omega

theorem longer_map (left right : List α) :
    longer (left.map key) (right.map key) = (longer left right).map key := by
  simp only [longer, length_map]
  split <;> rfl

theorem shorter_map (left right : List α) :
    shorter (left.map key) (right.map key) = (shorter left right).map key := by
  simp only [shorter, length_map]
  split <;> rfl

theorem middle_map (values : List α) : middle (values.map key) = middle values := by
  simp [middle]

theorem ordered_around (before after : List α) (pivot : α) :
    Ordered key (before ++ pivot :: after) ↔ Ordered key before ∧ Ordered key after ∧
        (∀ a ∈ before, key a ≤ key pivot) ∧ ∀ b ∈ after, key pivot ≤ key b := by
  simp only [Ordered, pairwise_append, pairwise_cons, mem_cons, forall_eq_or_imp]
  constructor
  · rintro ⟨first, ⟨above, second⟩, across⟩
    exact ⟨first, second, fun a member => (across a member).1, above⟩
  · rintro ⟨first, second, below, above⟩
    exact ⟨first, ⟨above, second⟩, fun a member =>
      ⟨below a member, fun b later => le_trans (below a member) (above b later)⟩⟩

theorem ordered_shorter_longer (left right : List α) :
    (Ordered key (shorter left right) ∧ Ordered key (longer left right)) ↔
      (Ordered key left ∧ Ordered key right) := by
  unfold shorter longer
  split
  · exact and_comm
  · exact Iff.rfl

theorem ordered_take_countP (values : List α) (ordered : Ordered key values) (bound : Int) (a : α)
    (member : a ∈ values.take ((values.map key).countP (· < bound))) : key a < bound := by
  obtain ⟨index, inside, rfl⟩ := mem_iff_getElem.mp member
  simp only [length_take] at inside
  have decided := ordered_countP values ordered bound index (by omega)
  rw [getElem_take]
  have := decided.not.mpr (by omega)
  omega

theorem ordered_drop_countP (values : List α) (ordered : Ordered key values) (bound : Int) (a : α)
    (member : a ∈ values.drop ((values.map key).countP (· < bound))) : bound ≤ key a := by
  obtain ⟨index, inside, rfl⟩ := mem_iff_getElem.mp member
  simp only [length_drop] at inside
  rw [getElem_drop]
  exact (ordered_countP values ordered bound _ (by omega)).mpr (by omega)

/-- What one pivot step needs, over the two runs it works on. -/
theorem pivot_step_ordered (short before after : List α) (pivot : α)
    (orderedShort : Ordered key short) (orderedLong : Ordered key (before ++ pivot :: after))
    (merged1 merged2 : List α)
    (perm1 : merged1.Perm (short.take ((short.map key).countP (· < key pivot)) ++ before))
    (perm2 : merged2.Perm (short.drop ((short.map key).countP (· < key pivot)) ++ after))
    (ordered1 : Ordered key merged1) (ordered2 : Ordered key merged2) :
    Ordered key (merged1 ++ pivot :: merged2) := by
  obtain ⟨_, _, below, above⟩ := (ordered_around before after pivot).mp orderedLong
  refine (ordered_around merged1 merged2 pivot).mpr ⟨ordered1, ordered2, ?_, ?_⟩
  · intro a member
    rcases mem_append.mp (perm1.subset member) with fromShort | fromLong
    · exact le_of_lt (ordered_take_countP short orderedShort _ a fromShort)
    · exact below a fromLong
  · intro b member
    rcases mem_append.mp (perm2.subset member) with fromShort | fromLong
    · exact ordered_drop_countP short orderedShort _ b fromShort
    · exact above b fromLong

/-- If the merge comes out ordered, the shorter run reached the pivot. -/
theorem shorter_reaches (short merged1 merged2 rest : List α) (pivot : α)
    (perm2 : merged2.Perm (short.drop (splitRun compare short pivot) ++ rest))
    (ordered : Ordered key (merged1 ++ pivot :: merged2)) :
    short = [] ∨ ∃ x ∈ short.map key, key pivot ≤ x := by
  rcases short.eq_nil_or_concat with empty | ⟨init, last, rfl⟩
  · exact Or.inl empty
  · right
    obtain ⟨_, _, _, above⟩ := (ordered_around merged1 merged2 pivot).mp ordered
    refine ⟨key last, by simp, above last (perm2.symm.subset ?_)⟩
    have bound := (splitIndex_le compare (fun index => ((init.concat last)[index]?).getD pivot)
      pivot 0 ((init.concat last).length - 1) (Nat.zero_le _)).2
    simp only [length_concat, Nat.add_sub_cancel] at bound
    rw [splitRun, length_concat, Nat.add_sub_cancel, concat_eq_append,
      drop_append_of_le_length (by simpa using bound)]
    simp

theorem pivotMerge_ordered_iff (left right : List α) (agrees : Agrees compare key (left ++ right)) :
    Ordered key (pivotMerge compare left right) ↔ Ordered key left ∧ Ordered key right ∧
        pivotsOk (left.map key) (right.map key) = true := by
  -- both runs are sublists of the merge, so they are ordered whenever it is
  suffices fromRuns : Ordered key left → Ordered key right →
      (Ordered key (pivotMerge compare left right) ↔
        pivotsOk (left.map key) (right.map key) = true) by
    constructor
    · intro ordered
      have sub := @pivotMerge_sublist _ compare left right
      have orderedLeft : Ordered key left := ordered.sublist sub.1
      have orderedRight : Ordered key right := ordered.sublist sub.2
      exact ⟨orderedLeft, orderedRight, (fromRuns orderedLeft orderedRight).mp ordered⟩
    · rintro ⟨orderedLeft, orderedRight, pivots⟩
      exact (fromRuns orderedLeft orderedRight).mpr pivots
  intro orderedLeft orderedRight
  fun_induction pivotMerge compare left right with
  | case1 left right small =>
    have := mergeList_ordered left right agrees orderedLeft orderedRight
    simp only [this, true_iff]
    exact pivotsOk_small _ _ (by simpa using small)
  | case2 left right large missing =>
    exfalso
    have := getElem?_eq_none_iff.mp missing
    have total := shorter_longer_length left right
    simp only [middle, longer, shorter] at this total
    split at this <;> omega
  | case3 left right large pivot found ihLeft ihRight =>
    obtain ⟨orderedShort, orderedLong⟩ :=
      (ordered_shorter_longer left right).mpr ⟨orderedLeft, orderedRight⟩
    have keyFound : (longer (left.map key) (right.map key))[middle
        (longer (left.map key) (right.map key))]? = some (key pivot) := by
      simp [longer_map, middle_map, found]
    rw [pivotsOk_pivot _ _ (by simpa using large) (key pivot) keyFound]
    simp only [longer_map, shorter_map, middle_map, ← map_take, ← map_drop, map_eq_nil_iff]
    have split1 := pivotMerge_perm compare
      ((shorter left right).take (splitRun compare (shorter left right) pivot))
      ((longer left right).take (middle (longer left right)))
    have split2 := pivotMerge_perm compare
      ((shorter left right).drop (splitRun compare (shorter left right) pivot))
      ((longer left right).drop (middle (longer left right) + 1))
    have inside : ∀ a ∈ shorter left right ++ longer left right, a ∈ left ++ right :=
      fun a member => (shorter_longer_perm left right).subset member
    -- the comparisons stay those of the elements of the two runs
    have agreesPivot : Agrees compare key (pivot :: shorter left right) := by
      refine agrees_subset agrees fun a member => inside a ?_
      rcases mem_cons.mp member with rfl | old
      · exact mem_append_right _ (mem_of_getElem? found)
      · exact mem_append_left _ old
    have ih1 := ihLeft (agrees_subset agrees fun a member => inside a (by
        rcases mem_append.mp member with old | old
        · exact mem_append_left _ (mem_of_mem_take old)
        · exact mem_append_right _ (mem_of_mem_take old)))
      (orderedShort.sublist (take_sublist _ _))
      (orderedLong.sublist (take_sublist _ _))
    have ih2 := ihRight (agrees_subset agrees fun a member => inside a (by
        rcases mem_append.mp member with old | old
        · exact mem_append_left _ (mem_of_mem_drop old)
        · exact mem_append_right _ (mem_of_mem_drop old)))
      (orderedShort.sublist (drop_sublist _ _))
      (orderedLong.sublist (drop_sublist _ _))
    -- the split is the right one only if the shorter run reaches the pivot
    have splitsAt := splitRun_eq (shorter left right) pivot agreesPivot orderedShort
    constructor
    · intro ordered
      have reached := shorter_reaches (shorter left right) _ _ _ pivot split2 ordered
      obtain ⟨ordered1, ordered2, _, _⟩ := (ordered_around _ _ pivot).mp ordered
      have pivots1 := ih1.mp ordered1
      have pivots2 := ih2.mp ordered2
      rw [splitsAt reached] at pivots1 pivots2
      exact ⟨reached, pivots1, pivots2⟩
    · rintro ⟨reached, pivots1, pivots2⟩
      rw [splitsAt reached] at ih1 ih2 split1 split2 ⊢
      refine pivot_step_ordered (shorter left right) _ _ pivot orderedShort ?_ _ _ split1 split2
        (ih1.mpr pivots1) (ih2.mpr pivots2)
      rw [cut_around _ _ pivot found]
      exact orderedLong

theorem ordered_map_eq (values sorted : List α) (perm : sorted.Perm values)
    (ordered : Ordered key sorted) : sorted.map key = (values.map key).mergeSort := by
  have same := (perm.map key).trans (mergeSort_perm (values.map key) (· ≤ ·)).symm
  exact same.eq_of_pairwise' (pairwise_map.mpr ordered) (pairwise_mergeSort' (· ≤ ·) _)

theorem sortList_ordered_iff (values : List α) (agrees : Agrees compare key values) :
    Ordered key (sortList compare values) ↔ splitsOk (values.map key) = true := by
  fun_induction sortList compare values with
  | case1 values small =>
    have ordered := foldl_insertList_ordered [] values agrees List.Pairwise.nil
    have sorted : Ordered key (insertionList compare values) := ordered
    rw [splitsOk]
    simp [sorted, small]
  | case2 values large ihLeft ihRight =>
    have left := ihLeft (agrees_subset agrees fun a => mem_of_mem_take)
    have right := ihRight (agrees_subset agrees fun a => mem_of_mem_drop)
    have permLeft := sortList_perm compare (values.take (middle values + 1))
    have permRight := sortList_perm compare (values.drop (middle values + 1))
    have inside : ∀ a ∈ sortList compare (values.take (middle values + 1)) ++
        sortList compare (values.drop (middle values + 1)), a ∈ values := by
      intro a member
      rcases mem_append.mp member with old | old
      · exact mem_of_mem_take (permLeft.subset old)
      · exact mem_of_mem_drop (permRight.subset old)
    rw [pivotMerge_ordered_iff _ _ (agrees_subset agrees inside), splitsOk,
      if_neg (by simpa using large)]
    simp only [middle_map, ← map_take, ← map_drop, Bool.and_eq_true, and_assoc]
    constructor
    · rintro ⟨orderedLeft, orderedRight, pivots⟩
      rw [ordered_map_eq _ _ permLeft orderedLeft,
        ordered_map_eq _ _ permRight orderedRight] at pivots
      exact ⟨left.mp orderedLeft, right.mp orderedRight, pivots⟩
    · rintro ⟨splitsLeft, splitsRight, pivots⟩
      have orderedLeft := left.mpr splitsLeft
      have orderedRight := right.mpr splitsRight
      rw [← ordered_map_eq _ _ permLeft orderedLeft,
        ← ordered_map_eq _ _ permRight orderedRight] at pivots
      exact ⟨orderedLeft, orderedRight, pivots⟩
end Lists

/-! Back to the array. -/

def KeysSorted (l r : Int) (mem : Mem Cell Elem) : Prop :=
  ∀ i j, l ≤ i → i ≤ j → j ≤ r → (mem (.arr, i)).key ≤ (mem (.arr, j)).key

def NoOverflow (l r : Int) (mem : Mem Cell Elem) : Prop :=
  ∀ i j, l ≤ i → i ≤ r → l ≤ j → j ≤ r →
    -2 ^ 31 ≤ (mem (.arr, i)).key - (mem (.arr, j)).key ∧
      (mem (.arr, i)).key - (mem (.arr, j)).key < 2 ^ 31

def records (l r : Int) (mem : Mem Cell Elem) : List Elem :=
  slice mem .arr l (r - l + 1).toNat

theorem mem_records {l r : Int} {mem : Mem Cell Elem} {elem : Elem} :
    elem ∈ records l r mem ↔ ∃ i, l ≤ i ∧ i ≤ r ∧ mem (.arr, i) = elem := by
  rw [records, mem_slice]
  constructor
  · rintro ⟨index, inside, rfl⟩
    exact ⟨l + index, by omega, by omega, rfl⟩
  · rintro ⟨i, first, last, rfl⟩
    refine ⟨(i - l).toNat, by omega, ?_⟩
    congr 2
    omega

theorem records_agree {l r : Int} {mem : Mem Cell Elem} (noOverflow : NoOverflow l r mem) :
    Agrees compareElem Elem.key (records l r mem) := by
  intro a memA b memB
  obtain ⟨i, first, last, rfl⟩ := mem_records.mp memA
  obtain ⟨j, first', last', rfl⟩ := mem_records.mp memB
  obtain ⟨lower, upper⟩ := noOverflow i j first last first' last'
  rw [compareElem, ByteStore.signed_wrap _ (by simpa using lower) (by simpa using upper)]
  omega

theorem ordered_records_iff (l r : Int) (mem : Mem Cell Elem) :
    Ordered Elem.key (records l r mem) ↔ KeysSorted l r mem := by
  rw [Ordered, pairwise_iff_getElem]
  simp only [records, slice, length_map, length_range, getElem_map, getElem_range]
  constructor
  · intro ordered i j first between last
    rcases eq_or_lt_of_le between with rfl | before
    · exact le_refl _
    · have := ordered (i - l).toNat (j - l).toNat (by omega) (by omega) (by omega)
      rw [show l + ((i - l).toNat : Int) = i by omega,
        show l + ((j - l).toNat : Int) = j by omega] at this
      exact this
  · intro sorted i j _ _ before
    exact sorted _ _ (by omega) (by omega) (by omega)

theorem run_mergeSortParallel (compare : Elem → Elem → Int) (nProc : Int) (some' : 1 ≤ nProc)
    (l r : Int) (mem : Mem Cell Elem) :
    records l r (run (mergeSortParallel compare nProc l r) mem) =
      sortList compare (records l r mem) := by
  by_cases range : l ≤ r + 1
  · exact run_mergeSortThreaded compare nProc some' l r _ (by omega) mem
  · have none : (r - l + 1).toNat = 0 := by omega
    simp [records, none, slice_zero, sortList, insertionList]

theorem ensures_keysSorted_iff (nProc : Int) (some' : 1 ≤ nProc) (l r : Int) (mem : Mem Cell Elem) :
    Ensures (mergeSortParallel compareElem nProc l r) mem (KeysSorted l r) ↔
      Ordered Elem.key (sortList compareElem (records l r mem)) := by
  have safe := safe_mergeSortThreaded compareElem nProc some' l r .ret trivial
  rw [mergeSortParallel, ensures_iff safe, ← ordered_records_iff, ← mergeSortParallel,
    run_mergeSortParallel compareElem nProc some']

theorem merge_sort_parallel_sorts_iff (nProc : Int) (some' : 1 ≤ nProc) (l r : Int)
    (mem : Mem Cell Elem) (noOverflow : NoOverflow l r mem) :
    Ensures (mergeSortParallel compareElem nProc l r) mem (KeysSorted l r) ↔
      splitsOk ((records l r mem).map Elem.key) = true := by
  rw [ensures_keysSorted_iff nProc some', sortList_ordered_iff _ (records_agree noOverflow)]

def smallElem (key : UInt8) : Elem := ⟨Vector.ofFn fun index => if index.val = 0 then key else 0⟩

def risingRecords : Mem Cell Elem := fun cell => smallElem (UInt8.ofNat cell.2.toNat)

theorem smallElem_key (key : UInt8) : (smallElem key).key = key.toNat := by
  have first : ByteStore.wordAt (fun index => ((smallElem key).carr[index]?).getD 0) 0 =
      key.toUInt32 := by
    simp [ByteStore.wordAt, smallElem]
  rw [Elem.key, first, ByteStore.signed]
  have := key.toNat_lt
  simp only [UInt8.toNat_toUInt32]
  split <;> omega

theorem splitsOk_sorted (keys : List Int) (sorted : keys.Pairwise (· ≤ ·)) :
    splitsOk keys = true ↔ keys.length ≤ 16 ∨ (splitsOk (keys.take (middle keys + 1)) = true ∧
          splitsOk (keys.drop (middle keys + 1)) = true ∧
          pivotsOk (keys.take (middle keys + 1)) (keys.drop (middle keys + 1)) = true) := by
  rw [splitsOk]
  split
  · simp [*]
  · have first := (sorted.sublist (take_sublist (middle keys + 1) keys))
    have second := (sorted.sublist (drop_sublist (middle keys + 1) keys))
    rw [mergeSort_of_pairwise (by simpa using first), mergeSort_of_pairwise (by simpa using second)]
    simp [*, and_assoc]

theorem risingRecords_noOverflow (l r : Int) : NoOverflow l r risingRecords := by
  intro i j _ _ _ _
  simp only [risingRecords, smallElem_key, UInt8.toNat_ofNat']
  omega

theorem risingRecords_keys (r : Int) (n : Nat) (range : r + 1 = n) (small : n ≤ 256) :
    (records 0 r risingRecords).map Elem.key = (List.range n).map Int.ofNat := by
  have count : (r - 0 + 1).toNat = n := by omega
  rw [records, count, slice, map_map]
  apply map_congr_left
  intro index member
  have := mem_range.mp member
  simp only [risingRecords, Function.comp_apply, smallElem_key, UInt8.toNat_ofNat', Int.zero_add,
    Int.toNat_natCast, Int.ofNat_eq_natCast]
  omega

theorem twenty_rising_keys_are_sorted :
    NoOverflow 0 19 risingRecords ∧
      Ensures (mergeSortParallel compareElem 4 0 19) risingRecords (KeysSorted 0 19) := by
  refine ⟨risingRecords_noOverflow 0 19, ?_⟩
  apply (merge_sort_parallel_sorts_iff 4 (by decide) 0 19 risingRecords
    (risingRecords_noOverflow 0 19)).mpr
  rw [risingRecords_keys 19 20 (by decide) (by decide), splitsOk_sorted _ (by decide)]
  right
  refine ⟨?_, ?_, pivotsOk_small _ _ (by decide)⟩
  · exact (splitsOk_sorted _ (by decide)).mpr (Or.inl (by decide))
  · exact (splitsOk_sorted _ (by decide)).mpr (Or.inl (by decide))

/-- The keys 0..33, already sorted, come out unsorted: 16 lands behind 25. -/
theorem rising_keys_are_unsorted :
    NoOverflow 0 33 risingRecords ∧ KeysSorted 0 33 risingRecords ∧
      ¬ Ensures (mergeSortParallel compareElem 4 0 33) risingRecords (KeysSorted 0 33) := by
  refine ⟨risingRecords_noOverflow 0 33, ?_, ?_⟩
  · intro i j first between last
    simp only [risingRecords, smallElem_key, UInt8.toNat_ofNat']
    omega
  · rw [ensures_keysSorted_iff 4 (by decide),
      sortList_ordered_iff _ (records_agree (risingRecords_noOverflow 0 33))]
    rw [risingRecords_keys 33 34 (by decide) (by decide), splitsOk_sorted _ (by decide)]
    rintro (small | ⟨_, _, pivots⟩)
    · exact absurd small (by decide)
    · have reached := (pivotsOk_pivot _ _ (by decide) 25 (by decide)).mp pivots
      exact absurd reached.1 (by decide)

end OsProjects.SortOrder
