import OsProjects.StableSorts

/-!
The sorts of `mergesort.c` that start no thread: `bubble_sort_elem`,
`merge_sort_serial` and `insertion_sort`. Each stores the list its counterpart
in `StableSorts` computes, so on keys whose differences do not overflow the
three leave the same records in the same order. `merge_serial` for p, q, r
allocates `L` and `R`, named `aux p q` and `aux (q + 1) r`.
-/

namespace OsProjects.SequentialSorts

open ForkJoin ParallelSort ArraySlices SortLists SortRefinement SortOrder StableSorts

section Programs
variable (compare : Elem → Elem → Int)

def bubbleLoop : Nat → Int → Code → Code
  | 0, _, next => next
  | left + 1, i, next =>
    .read (.arr, i) fun x => .read (.arr, i + 1) fun y =>
      if compare x y > 0 then
        .read (.arr, i) fun temp =>
          copyElem (.arr, i) (.arr, i + 1)
            (.write (.arr, i + 1) temp (bubbleLoop left (i + 1) next))
      else bubbleLoop left (i + 1) next

def bubblePasses (n : Int) : Nat → Int → Code → Code
  | 0, _, next => next
  | passes + 1, j, next =>
    bubbleLoop compare (n - j - 1).toNat 0 (bubblePasses n passes (j + 1) next)

def bubbleSortElem (n : Int) (next : Code) : Code :=
  bubblePasses compare n (n - 1).toNat 0 next

/-- The loops of `merge_serial` with `left1` elements of `L` and `left2` of `R`
still to merge. -/
def mergeCopies (L R : Buffer) : (left1 left2 : Nat) → (i j k : Int) → Code → Code
  | 0, left2, _, j, k, next => copyLoop (.arr, k) (R, j) left2 0 next
  | left1 + 1, 0, i, _, k, next => copyLoop (.arr, k) (L, i) (left1 + 1) 0 next
  | left1 + 1, left2 + 1, i, j, k, next =>
    .read (L, i) fun x => .read (R, j) fun y =>
      -- a tie goes to `L`, which is what makes the merge stable
      if compare x y ≤ 0 then
        copyElem (.arr, k) (L, i)
          (mergeCopies L R left1 (left2 + 1) (i + 1) j (k + 1) next)
      else
        copyElem (.arr, k) (R, j)
          (mergeCopies L R (left1 + 1) left2 i (j + 1) (k + 1) next)
termination_by left1 left2 => left1 + left2

def mergeSerial (p q r : Int) (next : Code) : Code :=
  copyLoop (.aux p q, 0) (.arr, p) (q - p + 1).toNat 0 <|
    copyLoop (.aux (q + 1) r, 0) (.arr, q + 1) (r - q).toNat 0 <|
      mergeCopies compare (.aux p q) (.aux (q + 1) r) (q - p + 1).toNat (r - q).toNat 0 0 p next

def mergeSortSerial (l r : Int) (next : Code) : Code :=
  if l < r then
    mergeSortSerial l (l + (r - l) / 2) <|
      mergeSortSerial (l + (r - l) / 2 + 1) r <|
        mergeSerial compare l (l + (r - l) / 2) r next
  else next
termination_by (r - l).toNat

end Programs

section Runs
variable {compare : Elem → Elem → Int}

theorem run_bubbleLoop (left : Nat) (i : Int) (next : Code) (mem : Mem Cell Elem) :
    run (bubbleLoop compare left i next) mem = run next (store mem .arr i
        (carry compare (mem (.arr, i)) (slice mem .arr (i + 1) left))) := by
  induction left generalizing i mem with
  | zero => simp [bubbleLoop, carry, store_singleton]
  | succ left ih =>
    have later : ∀ (value : Elem) (place : Int), place ≤ i + 1 →
        ∀ m : Mem Cell Elem, slice (Function.update m (.arr, place) value) .arr (i + 1 + 1) left =
          slice m .arr (i + 1 + 1) left := fun value place before m =>
      slice_update_other m .arr .arr place (i + 1 + 1) value left (Or.inr (Or.inl (by omega)))
    simp only [bubbleLoop, run]
    rw [slice_succ, carry]
    split
    · -- the larger record goes on: `temp` is now at `i + 1`
      simp only [copyElem, run, ih]
      rw [later _ _ (le_refl _), later _ _ (by omega), Function.update_self, store_cons]
      congr 1
      rw [← store_singleton _ _ (i + 1), store_store]
      simp [(carry_perm _ _).length_eq]
    · rw [ih, store_cons, Function.update_eq_self]

theorem run_bubblePasses (n : Int) (passes : Nat) (j : Int) (range : n - j - 1 = passes)
    (next : Code) (mem : Mem Cell Elem) :
    run (bubblePasses compare n passes j next) mem =
      run next (store mem .arr 0 (bubbleList compare passes (slice mem .arr 0 (passes + 1)))) := by
  induction passes generalizing j mem with
  | zero => simp [bubblePasses, bubbleList, store_slice_self]
  | succ passes ih =>
    have count : (n - j - 1).toNat = passes + 1 := by omega
    -- the last record of a pass is in place; the passes that follow store in front of it
    rw [bubblePasses, count, run_bubbleLoop, ih (j + 1) (by omega), bubbleList,
      slice_succ mem .arr 0 (passes + 1), bubblePass]
    generalize grown : carry compare (mem (.arr, 0)) (slice mem .arr (0 + 1) (passes + 1)) = moved
    have length : moved.length = passes + 2 := by
      rw [← grown, (carry_perm _ _).length_eq, List.length_cons, slice_length]
    have prefixed : slice (store mem .arr 0 moved) .arr 0 (passes + 1) =
        moved.take (passes + 1) := by
      rw [← slice_take _ _ _ moved.length _ (by omega), slice_store_same]
    rw [prefixed]
    have kept : (bubbleList compare passes (moved.take (passes + 1))).length = passes + 1 := by
      rw [(bubbleList_perm passes _).length_eq, List.length_take_of_le (by omega)]
    rw [store_front, kept]

theorem run_bubbleSortElem (n : Nat) (next : Code) (mem : Mem Cell Elem) :
    run (bubbleSortElem compare n next) mem =
      run next (store mem .arr 0 (bubbleList compare (n - 1) (slice mem .arr 0 n))) := by
  cases n with
  | zero => simp [bubbleSortElem, bubblePasses, bubbleList]
  | succ n =>
    have count : (((n + 1 : Nat) : Int) - 1).toNat = n := by omega
    rw [bubbleSortElem, count, run_bubblePasses _ _ _ (by push_cast; omega), Nat.add_sub_cancel]

theorem run_mergeCopies (L R : Buffer) (apartL : Buffer.arr ≠ L) (apartR : Buffer.arr ≠ R)
    (left1 left2 : Nat) (i j k : Int) (next : Code) (mem : Mem Cell Elem) :
    run (mergeCopies compare L R left1 left2 i j k next) mem = run next (store mem .arr k
        (mergeList compare (slice mem L i left1) (slice mem R j left2))) := by
  -- each round takes one record from either side
  induction total : left1 + left2 generalizing left1 left2 i j k mem with
  | zero =>
    obtain ⟨rfl, rfl⟩ : left1 = 0 ∧ left2 = 0 := by omega
    rw [mergeCopies, run_copyLoop _ _ apartR]
    simp [mergeList]
  | succ total ih =>
    cases left1 with
    | zero =>
      rw [mergeCopies, run_copyLoop _ _ apartR]
      simp [mergeList]
    | succ left1 =>
      cases left2 with
      | zero =>
        rw [mergeCopies, run_copyLoop _ _ apartL]
        simp [mergeList]
      | succ left2 =>
        -- writing `arr` leaves both copies alone
        have kept : ∀ buf : Buffer, Buffer.arr ≠ buf → ∀ (lo : Int) (count : Nat)
            (value : Elem), slice (Function.update mem (.arr, k) value) buf lo count =
              slice mem buf lo count := fun buf apart lo count value =>
          slice_update_other mem buf .arr k lo value count (Or.inl apart.symm)
        rw [mergeCopies]
        simp only [run]
        rw [slice_succ mem L, slice_succ mem R, mergeList_cons]
        split
        · simp only [copyElem, run]
          rw [ih left1 (left2 + 1) _ _ _ _ (by omega), kept L apartL, kept R apartR,
            store_cons, slice_succ mem R]
        · simp only [copyElem, run]
          rw [ih (left1 + 1) left2 _ _ _ _ (by omega), kept L apartL, kept R apartR,
            store_cons, slice_succ mem L]

def SameArr (mem mem' : Mem Cell Elem) : Prop := ∀ i, mem (.arr, i) = mem' (.arr, i)

theorem SameArr.slice {mem mem' : Mem Cell Elem} (same : SameArr mem mem') (lo : Int)
    (count : Nat) : slice mem .arr lo count = slice mem' .arr lo count :=
  slice_congr fun _ _ => same _

theorem SameArr.store {mem mem' : Mem Cell Elem} (same : SameArr mem mem') (lo : Int)
    (values : List Elem) : SameArr (store mem .arr lo values) (store mem' .arr lo values) := by
  intro i
  simp only [ArraySlices.store, same i]

theorem SameArr.trans {mem1 mem2 mem3 : Mem Cell Elem} (first : SameArr mem1 mem2)
    (second : SameArr mem2 mem3) : SameArr mem1 mem3 := fun i => (first i).trans (second i)

theorem sameArr_store_aux (mem : Mem Cell Elem) (l r lo : Int) (values : List Elem) :
    SameArr (store mem (.aux l r) lo values) mem :=
  fun _ => store_outside _ _ _ _ _ (Or.inl (by simp))

theorem run_mergeSerial (p q r : Int) (n1 n2 : Nat) (range1 : q = p + n1 - 1)
    (range2 : r = q + n2) (nonempty : 0 < n1) (next : Code) (mem : Mem Cell Elem) :
    ∃ mem', SameArr mem' (store mem .arr p
        (mergeList compare (slice mem .arr p n1) (slice mem .arr (q + 1) n2))) ∧
      run (mergeSerial compare p q r next) mem = run next mem' := by
  have count1 : (q - p + 1).toNat = n1 := by omega
  have count2 : (r - q).toNat = n2 := by omega
  have buffers : Buffer.aux p q ≠ Buffer.aux (q + 1) r := by
    intro same
    have := (Buffer.aux.inj same).1
    omega
  have arrL : Buffer.aux p q ≠ Buffer.arr := by simp
  have arrR : Buffer.aux (q + 1) r ≠ Buffer.arr := by simp
  rw [mergeSerial, count1, count2, run_copyLoop _ _ arrL, run_copyLoop _ _ arrR,
    run_mergeCopies _ _ arrL.symm arrR.symm]
  simp only [Int.add_zero]
  refine ⟨_, ?_, rfl⟩
  -- `R` was filled behind `L`, and both from an untouched `arr`
  have filledL := slice_store_same mem (.aux p q) 0 (slice mem .arr p n1)
  have source := (sameArr_store_aux mem p q 0 (slice mem .arr p n1)).slice (q + 1) n2
  have filledR := slice_store_same (store mem (.aux p q) 0 (slice mem .arr p n1))
    (.aux (q + 1) r) 0 (slice mem .arr (q + 1) n2)
  rw [slice_length] at filledL filledR
  rw [source, filledR, slice_store_other _ _ _ _ _ _ _ (Or.inl buffers), filledL]
  exact ((sameArr_store_aux _ _ _ _ _).trans (sameArr_store_aux _ _ _ _ _)).store _ _

theorem run_mergeSortSerial (compare : Elem → Elem → Int) (n : Nat) (l r : Int)
    (range : r = l + n - 1) (next : Code) (mem : Mem Cell Elem) :
    ∃ mem', SameArr mem' (store mem .arr l (mergeSortList compare (slice mem .arr l n))) ∧
      run (mergeSortSerial compare l r next) mem = run next mem' := by
  -- `mem'` is only fixed on `arr`: what the copies of earlier merges hold is of no matter
  induction n using Nat.strong_induction_on generalizing l r next mem with
  | _ n ih =>
    rw [mergeSortSerial, mergeSortList, slice_length]
    by_cases short : n ≤ 1
    · have stop : ¬ l < r := by omega
      simp only [short, stop, ↓reduceIte, store_slice_self]
      exact ⟨mem, fun _ => rfl, rfl⟩
    · have loop : l < r := by omega
      simp only [short, loop, ↓reduceIte, middle, slice_length]
      rw [slice_take _ _ _ _ _ (by omega), slice_drop _ _ _ _ _ (by omega)]
      have split : l + (r - l) / 2 + 1 = l + ((n - 1) / 2 + 1 : Nat) := by push_cast; omega
      obtain ⟨mem1, left, ran1⟩ := ih ((n - 1) / 2 + 1) (by omega) l (l + (r - l) / 2)
        (by push_cast; omega) (mergeSortSerial compare (l + (r - l) / 2 + 1) r
          (mergeSerial compare l (l + (r - l) / 2) r next)) mem
      obtain ⟨mem2, right, ran2⟩ := ih (n - ((n - 1) / 2 + 1)) (by omega)
        (l + (r - l) / 2 + 1) r (by omega) (mergeSerial compare l (l + (r - l) / 2) r next) mem1
      obtain ⟨mem3, merged, ran3⟩ := run_mergeSerial l (l + (r - l) / 2) r ((n - 1) / 2 + 1)
        (n - ((n - 1) / 2 + 1)) (by push_cast; omega) (by omega) (by omega) next mem2
      refine ⟨mem3, merged.trans ?_, ran1.trans (ran2.trans ran3)⟩
      rw [split] at right ⊢
      have length1 := (mergeSortList_perm compare (slice mem .arr l ((n - 1) / 2 + 1))).length_eq
      have length2 := (mergeSortList_perm compare (slice mem .arr (l + ((n - 1) / 2 + 1 : Nat))
        (n - ((n - 1) / 2 + 1)))).length_eq
      rw [slice_length] at length1 length2
      -- the left call leaves the right half as it was
      rw [left.slice, slice_store_other _ _ _ _ _ _ _ (Or.inr (Or.inr (by omega)))] at right
      generalize mergeSortList compare (slice mem .arr l _) = first at *
      generalize mergeSortList compare (slice mem .arr (l + ((n - 1) / 2 + 1 : Nat)) _) =
        second at *
      have halves : SameArr mem2 (store mem .arr l (first ++ second)) := by
        rw [store_append, length1]
        exact right.trans (left.store _ _)
      have front := halves.slice l ((n - 1) / 2 + 1)
      have back := halves.slice (l + ((n - 1) / 2 + 1 : Nat)) (n - ((n - 1) / 2 + 1))
      rw [store_append, slice_store_other _ _ _ _ _ _ _ (Or.inr (Or.inl (by omega))), ← length1,
        slice_store_same] at front
      rw [store_append, length1, ← length2, slice_store_same, length2] at back
      rw [length1] at front
      rw [front, back]
      have whole := halves.store l (mergeList compare first second)
      rwa [store_store _ _ _ _ _ (by rw [(mergeList_perm compare _ _).length_eq])] at whole

end Runs

/-! No thread is started, so every schedule is the serial run. -/

section Serial
variable {compare : Elem → Elem → Int} {next : Code}

theorem safe_bubbleLoop (left : Nat) (i : Int) (rest : Safe Set.univ Set.univ next) :
    Safe Set.univ Set.univ (bubbleLoop compare left i next) := by
  induction left generalizing i with
  | zero => exact rest
  | succ left ih =>
    refine ⟨trivial, fun x => ⟨trivial, fun y => ?_⟩⟩
    beta_reduce
    split
    · exact ⟨trivial, fun temp => ⟨trivial, fun value => ⟨trivial, trivial, ih _⟩⟩⟩
    · exact ih _

theorem safe_bubblePasses (n : Int) (passes : Nat) (j : Int) (rest : Safe Set.univ Set.univ next) :
    Safe Set.univ Set.univ (bubblePasses compare n passes j next) := by
  induction passes generalizing j with
  | zero => exact rest
  | succ passes ih => exact safe_bubbleLoop _ _ (ih _)

theorem safe_mergeCopies (L R : Buffer) (left1 left2 : Nat) (i j k : Int)
    (rest : Safe Set.univ Set.univ next) :
    Safe Set.univ Set.univ (mergeCopies compare L R left1 left2 i j k next) := by
  fun_induction mergeCopies compare L R left1 left2 i j k next with
  | case1 | case2 => exact safe_copyLoop _ _ _ _ _ (Set.subset_univ _) (Set.subset_univ _) rest
  | case3 left1 left2 i j k next ihLeft ihRight =>
    refine ⟨trivial, fun x => ⟨trivial, fun y => ?_⟩⟩
    beta_reduce
    split
    · exact ⟨trivial, fun value => ⟨trivial, ihLeft rest⟩⟩
    · exact ⟨trivial, fun value => ⟨trivial, ihRight rest⟩⟩

theorem safe_mergeSortSerial (l r : Int) (rest : Safe Set.univ Set.univ next) :
    Safe Set.univ Set.univ (mergeSortSerial compare l r next) := by
  fun_induction mergeSortSerial compare l r next with
  | case1 l r next loop ihRight ihLeft =>
    refine ihLeft (ihRight ?_)
    apply safe_copyLoop _ _ _ _ _ (Set.subset_univ _) (Set.subset_univ _)
    apply safe_copyLoop _ _ _ _ _ (Set.subset_univ _) (Set.subset_univ _)
    exact safe_mergeCopies _ _ _ _ _ _ _ rest
  | case2 l r next stop => exact rest

end Serial

theorem records_store {n : Nat} (mem : Mem Cell Elem) (values : List Elem)
    (count : values.length = n) : records 0 ((n : Int) - 1) (store mem .arr 0 values) = values := by
  have size : ((n : Int) - 1 - 0 + 1).toNat = values.length := by omega
  rw [records, size, slice_store_same]

theorem records_slice (n : Nat) (mem : Mem Cell Elem) :
    records 0 ((n : Int) - 1) mem = slice mem .arr 0 n := by
  have size : ((n : Int) - 1 - 0 + 1).toNat = n := by omega
  rw [records, size]

section
variable (n : Nat) (mem : Mem Cell Elem) (noOverflow : NoOverflow 0 ((n : Int) - 1) mem)
include noOverflow

theorem bubble_sort_elem_stable :
    StableSort Elem.key (records 0 ((n : Int) - 1) mem)
      (records 0 ((n : Int) - 1) (run (bubbleSortElem compareElem n .ret) mem)) := by
  have agrees := records_agree noOverflow
  rw [run_bubbleSortElem, run, records_store]
  · rw [records_slice] at agrees ⊢
    cases n with
    | zero => exact StableSort.short (by simp)
    | succ n => exact bubbleList_stable n _ (by simp) agrees
  · rw [(bubbleList_perm _ _).length_eq, slice_length]

theorem insertion_sort_stable :
    StableSort Elem.key (records 0 ((n : Int) - 1) mem)
      (records 0 ((n : Int) - 1) (run (insertionSort compareElem .arr 0 n .ret) mem)) := by
  have agrees := records_agree noOverflow
  rw [run_insertionSort, run, records_store]
  · rw [records_slice] at agrees ⊢
    exact insertionList_stable _ agrees
  · rw [(insertionList_perm _ _).length_eq, slice_length]

theorem merge_sort_serial_stable :
    StableSort Elem.key (records 0 ((n : Int) - 1) mem)
      (records 0 ((n : Int) - 1) (run (mergeSortSerial compareElem 0 (n - 1) .ret) mem)) := by
  have agrees := records_agree noOverflow
  obtain ⟨mem', same, ran⟩ := run_mergeSortSerial compareElem n 0 ((n : Int) - 1) (by omega)
    .ret mem
  rw [ran, run, records_slice n mem', same.slice, ← records_slice, records_store]
  · rw [records_slice] at agrees ⊢
    exact mergeSortList_stable _ agrees
  · rw [(mergeSortList_perm _ _).length_eq, slice_length]
end

/-- The three sorts leave the one stable sort of the array, on every schedule. -/
theorem sequential_sorts_agree (n : Nat) (mem : Mem Cell Elem)
    (noOverflow : NoOverflow 0 ((n : Int) - 1) mem) :
    ∃ sorted : List Elem,
      (∀ values, StableSort Elem.key (records 0 ((n : Int) - 1) mem) values ↔ values = sorted) ∧
      Ensures (bubbleSortElem compareElem n .ret) mem
        (fun result => records 0 ((n : Int) - 1) result = sorted) ∧
      Ensures (mergeSortSerial compareElem 0 ((n : Int) - 1) .ret) mem
        (fun result => records 0 ((n : Int) - 1) result = sorted) ∧
      Ensures (insertionSort compareElem .arr 0 n .ret) mem
        (fun result => records 0 ((n : Int) - 1) result = sorted) := by
  have bubble := bubble_sort_elem_stable n mem noOverflow
  have merge := merge_sort_serial_stable n mem noOverflow
  have insertion := insertion_sort_stable n mem noOverflow
  have returns : Safe Set.univ Set.univ (.ret : Code) := trivial
  refine ⟨_, fun values => ⟨fun stable => stable.unique bubble, fun same => same ▸ bubble⟩,
    ?_, ?_, ?_⟩
  · exact (ensures_iff (safe_bubblePasses _ _ _ returns) mem _).mpr rfl
  · exact (ensures_iff (safe_mergeSortSerial _ _ returns) mem _).mpr (merge.unique bubble)
  · have safe : Safe Set.univ Set.univ (insertionSort compareElem .arr 0 n .ret) :=
      safe_insertionLoop _ _ _ _ _ _ (Set.subset_univ _) (Set.subset_univ _) returns
    exact (ensures_iff safe mem _).mpr (insertion.unique bubble)

theorem sequential_sorts_agree_on_rising_keys :
    NoOverflow 0 (((20 : Nat) : Int) - 1) risingRecords ∧ ∃ sorted : List Elem,
      StableSort Elem.key (records 0 (((20 : Nat) : Int) - 1) risingRecords) sorted ∧
      Ensures (bubbleSortElem compareElem (20 : Nat) .ret) risingRecords
        (fun result => records 0 (((20 : Nat) : Int) - 1) result = sorted) ∧
      Ensures (mergeSortSerial compareElem 0 (((20 : Nat) : Int) - 1) .ret) risingRecords
        (fun result => records 0 (((20 : Nat) : Int) - 1) result = sorted) := by
  have noOverflow := risingRecords_noOverflow 0 (((20 : Nat) : Int) - 1)
  obtain ⟨sorted, stable, bubble, merge, _⟩ := sequential_sorts_agree 20 risingRecords noOverflow
  exact ⟨noOverflow, sorted, (stable sorted).mpr rfl, bubble, merge⟩

end OsProjects.SequentialSorts
