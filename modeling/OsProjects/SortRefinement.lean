import OsProjects.ParallelSort
import OsProjects.ArraySlices
import OsProjects.SortLists

/-!
The serial run of each program of `ParallelSort` stores the list computed by
its counterpart in `SortLists` over the range it owns, and the program is
`Safe` there: at each fork the two threads stay apart. Together these make the
result of every schedule the list result.
-/

namespace OsProjects.SortRefinement

open ForkJoin ParallelSort ArraySlices SortLists

section Serial
variable (compare : Elem → Elem → Int)

theorem run_copyLoop (dest src : Cell) (apart : dest.1 ≠ src.1) (left : Nat) (i : Int)
    (next : Code) (mem : Mem Cell Elem) :
    run (copyLoop dest src left i next) mem =
      run next (store mem dest.1 (dest.2 + i) (slice mem src.1 (src.2 + i) left)) := by
  induction left generalizing i mem with
  | zero => simp [copyLoop]
  | succ left ih =>
    simp only [copyLoop, copyElem, run, ih]
    have kept := slice_update_other mem src.1 dest.1 (dest.2 + i) (src.2 + i + 1)
      (mem (src.1, src.2 + i)) left (Or.inl apart.symm)
    rw [slice_succ, store_cons, ← Int.add_assoc, ← Int.add_assoc, kept]

theorem run_insertLoop (buf : Buffer) (base : Int) (temp : Elem) (j : Nat) (next : Code)
    (mem : Mem Cell Elem) :
    run (insertLoop compare buf base temp j next) mem =
      run next (store mem buf base (insertList compare (slice mem buf base j) temp)) := by
  induction j generalizing mem with
  | zero => simp [insertLoop, insertList, insertRev, run, store_singleton]
  | succ j ih =>
    have last : slice mem buf base (j + 1) = slice mem buf base j ++ [mem (buf, base + j)] := by
      rw [slice_append, slice_succ, slice_zero]
    simp only [insertLoop, run]
    split
    · rename_i larger
      have kept := slice_update_other mem buf buf (base + (j + 1)) base
        (mem (buf, base + j)) j (Or.inr (Or.inr (by omega)))
      have shape : insertList compare (slice mem buf base (j + 1)) temp =
          insertList compare (slice mem buf base j) temp ++ [mem (buf, base + j)] := by
        simp [insertList, last, insertRev, larger]
      have place := store_around mem buf base
        (insertList compare (slice mem buf base j) temp) [] (mem (buf, base + j))
      simp only [insertList_length, slice_length, store_nil] at place
      rw [shape, ← place]
      simp only [copyElem, run, ih, kept]
      push_cast
      rfl
    · rename_i smaller
      have shape : insertList compare (slice mem buf base (j + 1)) temp =
          slice mem buf base (j + 1) ++ [temp] := by
        simp [insertList, last, insertRev, smaller]
      rw [shape, store_append, store_slice_self, store_singleton, slice_length]
      push_cast
      rfl

theorem run_insertionLoop (buf : Buffer) (base : Int) (left i : Nat) (next : Code)
    (mem : Mem Cell Elem) :
    run (insertionLoop compare buf base left i next) mem = run next (store mem buf base
        ((slice mem buf (base + i) left).foldl (insertList compare) (slice mem buf base i))) := by
  induction left generalizing i mem with
  | zero => simp [insertionLoop, store_slice_self]
  | succ left ih =>
    simp only [insertionLoop, run, run_insertLoop, ih]
    rw [slice_succ mem buf (base + i) left, List.foldl_cons]
    generalize grown : insertList compare (slice mem buf base i) (mem (buf, base + i)) = values
    have count : values.length = i + 1 := by simp [← grown]
    have before := slice_store_same mem buf base values
    have after := slice_store_other mem buf buf base (base + i + 1) values left
      (Or.inr (Or.inr (by omega)))
    rw [count] at before
    have position : base + ((i + 1 : Nat) : Int) = base + i + 1 := by push_cast; omega
    rw [position, before, after]
    rw [store_store]
    rw [(foldl_insertList_perm compare values _).length_eq, List.length_append]
    omega

theorem run_insertionSort (buf : Buffer) (base : Int) (n : Nat) (next : Code)
    (mem : Mem Cell Elem) :
    run (insertionSort compare buf base n next) mem =
      run next (store mem buf base (insertionList compare (slice mem buf base n))) := by
  cases n with
  | zero =>
    have none : ((0 : Nat) : Int) - 1 = -1 := rfl
    simp [insertionSort, insertionLoop, insertionList]
  | succ n =>
    have count : (((n + 1 : Nat) : Int) - 1).toNat = n := by omega
    simp only [insertionSort, count, run_insertionLoop, insertionList, slice_succ, List.foldl_cons]
    simp [insertList, insertRev]

theorem run_mergeLoop (src dst : Buffer) (apart : dst ≠ src) (l1 l2 : Int) (left1 left2 : Nat)
    (i j k : Int) (next : Code) (mem : Mem Cell Elem) :
    run (mergeLoop compare src dst l1 l2 left1 left2 i j k next) mem =
      run next (store mem dst k (mergeList compare (slice mem src (l1 + i) left1)
        (slice mem src (l2 + j) left2))) := by
  induction total : left1 + left2 generalizing left1 left2 i j k mem with
  | zero =>
    obtain ⟨rfl, rfl⟩ : left1 = 0 ∧ left2 = 0 := by omega
    rw [mergeLoop, run_copyLoop _ _ apart]
    simp [mergeList]
  | succ total ih =>
    cases left1 with
    | zero =>
      rw [mergeLoop, run_copyLoop _ _ apart]
      simp [mergeList]
    | succ left1 =>
      cases left2 with
      | zero =>
        rw [mergeLoop, run_copyLoop _ _ apart]
        simp [mergeList]
      | succ left2 =>
        rw [mergeLoop]
        simp only [run]
        have kept : ∀ (at' : Int) (count : Nat) (value : Elem),
            slice (Function.update mem (dst, k) value) src at' count = slice mem src at' count :=
          fun at' count value => slice_update_other mem src dst k at' value count
            (Or.inl apart.symm)
        split
        · rename_i first
          simp only [copyElem, run]
          rw [ih left1 (left2 + 1) _ _ _ _ (by omega), kept, kept]
          simp only [slice_succ, mergeList, List.cons_merge_cons, first, decide_true,
            if_true, store_cons, Int.add_assoc]
        · rename_i second
          simp only [copyElem, run]
          rw [ih (left1 + 1) left2 _ _ _ _ (by omega), kept, kept]
          simp only [slice_succ, mergeList, List.cons_merge_cons, second, decide_false,
            Bool.false_eq_true, if_false, store_cons, Int.add_assoc]

theorem run_findSplitPoint (src : Buffer) (p : Elem) (base : Int) (mem : Mem Cell Elem)
    (lo hi : Nat) (low high s : Int) (atLow : low = base + lo) (atHigh : high = base + hi)
    (found : s = base + splitIndex compare (fun index => mem (src, base + index)) p lo hi)
    (next : (s : Int) → low ≤ s → s ≤ max low high → Code) :
    ∃ ge le, run (findSplitPoint compare src p low high next) mem = run (next s ge le) mem := by
  induction total : hi - lo using Nat.strong_induction_on generalizing lo hi low high with
  | _ total ih =>
    rw [splitIndex] at found
    rw [findSplitPoint]
    by_cases loop : lo < hi
    · have enter : low < high := by omega
      have mid : low + (high - low) / 2 = base + ((lo + (hi - lo) / 2 : Nat) : Int) := by
        omega
      simp only [loop, ↓reduceIte] at found
      simp only [enter, ↓reduceDIte, run]
      by_cases before : compare p (mem (src, base + ((lo + (hi - lo) / 2 : Nat) : Int))) ≤ 0
      · have test : compare p (mem (src, low + (high - low) / 2)) ≤ 0 := by rwa [mid]
        simp only [before, ↓reduceIte] at found
        simp only [test, ↓reduceIte]
        obtain ⟨ge, le, same⟩ := ih (lo + (hi - lo) / 2 - lo) (by omega) lo
          (lo + (hi - lo) / 2) low _ atLow mid found (fun s ge le => next s ge (by omega)) rfl
        exact ⟨ge, by omega, same⟩
      · have test : ¬ compare p (mem (src, low + (high - low) / 2)) ≤ 0 := by rwa [mid]
        simp only [before, ↓reduceIte] at found
        simp only [test, ↓reduceIte]
        obtain ⟨ge, le, same⟩ := ih (hi - (lo + (hi - lo) / 2 + 1)) (by omega)
          (lo + (hi - lo) / 2 + 1) hi (low + (high - low) / 2 + 1) high
          (by push_cast; omega) atHigh found (fun s ge le => next s (by omega) (by omega)) rfl
        exact ⟨by omega, by omega, same⟩
    · have stop : ¬ low < high := by omega
      simp only [loop, ↓reduceIte] at found
      simp only [stop, ↓reduceDIte]
      obtain rfl : s = low := by omega
      exact ⟨le_refl s, le_max_left s high, rfl⟩

theorem run_findSplitPoint_run (src : Buffer) (p : Elem) (mem : Mem Cell Elem) (l r s : Int)
    (count : Nat) (range : r = l + count - 1)
    (found : s = l + splitRun compare (slice mem src l count) p)
    (next : (s : Int) → l ≤ s → s ≤ max l r → Code) :
    ∃ ge le, run (findSplitPoint compare src p l r next) mem = run (next s ge le) mem := by
  have same : splitRun compare (slice mem src l count) p =
      splitIndex compare (fun index => mem (src, l + index)) p 0 (count - 1) := by
    simp only [splitRun, slice_length]
    apply splitIndex_congr
    intro index inside
    rw [slice_getElem? _ _ _ _ _ (by omega)]
    rfl
  rw [same] at found
  cases count with
  | zero =>
    have stop : ¬ l < r := by omega
    rw [splitIndex] at found
    rw [findSplitPoint]
    simp only [stop, ↓reduceDIte]
    obtain rfl : s = l := by simpa using found
    exact ⟨le_refl s, le_max_left s r, rfl⟩
  | succ count =>
    exact run_findSplitPoint compare src p l mem 0 count l r s (by simp) (by omega) found next

/-- Pivot, split and the two recursive merges on the runs `a..b` and `c..d`,
given what recursive calls on fewer elements do. -/
theorem run_mergeAround (src dst : Buffer) (apart : dst ≠ src) (na nc : Nat)
    (a b c d start : Int) (rangeA : b = a + na - 1) (rangeC : d = c + nc - 1) (nonempty : c ≤ d)
    (recurse : (l1 r1 l2 r2 start : Int) → mergeSize l1 r1 l2 r2 < mergeSize a b c d → Code)
    (merges : ∀ (n1 n2 : Nat) (l1 r1 l2 r2 start : Int) smaller (mem : Mem Cell Elem),
      r1 = l1 + n1 - 1 → r2 = l2 + n2 - 1 → run (recurse l1 r1 l2 r2 start smaller) mem =
        store mem dst start (pivotMerge compare (slice mem src l1 n1) (slice mem src l2 n2)))
    (next : Code) (mem : Mem Cell Elem) (pivot : Elem)
    (taken : pivot = mem (src, c + ((nc - 1) / 2 : Nat))) :
    run (mergeAround compare src a b c d nonempty dst start recurse next) mem =
      run next (store mem dst start (pivotMerge compare
            ((slice mem src a na).take (splitRun compare (slice mem src a na) pivot))
            ((slice mem src c nc).take ((nc - 1) / 2)) ++
          pivot :: pivotMerge compare
            ((slice mem src a na).drop (splitRun compare (slice mem src a na) pivot))
            ((slice mem src c nc).drop ((nc - 1) / 2 + 1)))) := by
  have mid : c + (d - c) / 2 = c + ((nc - 1) / 2 : Nat) := by omega
  generalize cut : splitRun compare (slice mem src a na) pivot = s
  have bound : s ≤ na := by
    have := splitRun_le compare (slice mem src a na) pivot
    rw [slice_length] at this
    omega
  have place : start + (a + s - a) + (c + (d - c) / 2 - c) =
      start + ((s + (nc - 1) / 2 : Nat) : Int) := by push_cast; omega
  have kept : ∀ (at' : Int) (count : Nat),
      slice (Function.update mem (dst, start + ((s + (nc - 1) / 2 : Nat) : Int)) pivot)
        src at' count = slice mem src at' count :=
    fun at' count => slice_update_other mem src dst _ at' pivot count (Or.inl apart.symm)
  have keptStore : ∀ (m : Mem Cell Elem) (at' lo : Int) (count : Nat) (values : List Elem),
      slice (store m dst lo values) src at' count = slice m src at' count :=
    fun m at' lo count values => slice_store_other m dst src lo at' values count (Or.inl apart.symm)
  have around := store_around mem dst start
    (pivotMerge compare (slice mem src a s) (slice mem src c ((nc - 1) / 2)))
    (pivotMerge compare (slice mem src (a + s) (na - s))
      (slice mem src (c + (d - c) / 2 + 1) (nc - ((nc - 1) / 2 + 1)))) pivot
  simp only [pivotMerge_length, slice_length] at around
  simp only [mergeAround, run]
  rw [show mem (src, c + (d - c) / 2) = pivot by rw [mid, taken]]
  obtain ⟨ge, le, same⟩ := run_findSplitPoint_run compare src pivot mem a b (a + s) na rangeA
    (by rw [cut]) _
  rw [same]
  simp only [run]
  rw [merges (na - s) (nc - ((nc - 1) / 2 + 1)) (a + s) b (c + (d - c) / 2 + 1) d _ _ _
      (by omega) (by omega),
    merges s ((nc - 1) / 2) a (a + s - 1) c (c + (d - c) / 2 - 1) start _ _ (by omega) (by omega)]
  simp only [place, kept, keptStore, around]
  rw [slice_take _ _ _ _ _ bound, slice_drop _ _ _ _ _ bound,
    slice_take _ _ _ _ _ (by omega), slice_drop _ _ _ _ _ (by omega), mid]
  push_cast
  rw [← Int.add_assoc]

theorem run_mergeParallelAux (src dst : Buffer) (apart : dst ≠ src) (n1 n2 : Nat)
    (l1 r1 l2 r2 start : Int) (range1 : r1 = l1 + n1 - 1) (range2 : r2 = l2 + n2 - 1)
    (next : Code) (mem : Mem Cell Elem) :
    run (mergeParallelAux compare src l1 r1 l2 r2 dst start next) mem =
      run next (store mem dst start
        (pivotMerge compare (slice mem src l1 n1) (slice mem src l2 n2))) := by
  induction total : mergeSize l1 r1 l2 r2 using Nat.strong_induction_on
    generalizing n1 n2 l1 r1 l2 r2 start next mem with
  | _ total ih =>
    rw [mergeParallelAux]
    by_cases small : n1 ≤ 16
    · have fits : r1 - l1 + 1 ≤ minThreadElem := by simp only [minThreadElem]; omega
      have count1 : (r1 - l1 + 1).toNat = n1 := by omega
      have count2 : (r2 - l2 + 1).toNat = n2 := by omega
      rw [pivotMerge_small _ _ _ (by rwa [slice_length])]
      simp only [fits, ↓reduceDIte, mergeSerial2, count1, count2]
      rw [run_mergeLoop compare src dst apart]
      simp
    · have large : ¬ r1 - l1 + 1 ≤ minThreadElem := by simp only [minThreadElem]; omega
      have nonempty : ¬ (l1 > r1 ∧ l2 > r2) := by omega
      simp only [large, nonempty, ↓reduceDIte, ↓reduceIte]
      by_cases swap : n2 < n1
      · have swapped : r2 - l2 < r1 - l1 := by omega
        have longIs : longer (slice mem src l1 n1) (slice mem src l2 n2) =
            slice mem src l1 n1 := by simp [longer, swap]
        have shortIs : shorter (slice mem src l1 n1) (slice mem src l2 n2) =
            slice mem src l2 n2 := by simp [shorter, swap]
        have found : (slice mem src l1 n1)[(n1 - 1) / 2]? =
            some (mem (src, l1 + ((n1 - 1) / 2 : Nat))) := slice_getElem? _ _ _ _ _ (by omega)
        have shape := pivotMerge_pivot compare (slice mem src l1 n1) (slice mem src l2 n2)
          (by simpa using small) _ (by simpa only [longIs, middle, slice_length] using found)
        simp only [longIs, shortIs, middle, slice_length] at shape
        simp only [swapped, ↓reduceDIte]
        rw [shape, run_mergeAround compare src dst apart n2 n1 l2 r2 l1 r1 start range2 range1
          (by omega) _ _ next mem _ rfl]
        · intro n1' n2' l1' r1' l2' r2' start' smaller mem' range1' range2'
          refine ih _ ?_ n1' n2' l1' r1' l2' r2' start' range1' range2' .ret mem' rfl
          simp only [mergeSize] at smaller total ⊢
          omega
      · have straight : ¬ r2 - l2 < r1 - l1 := by omega
        have longIs : longer (slice mem src l1 n1) (slice mem src l2 n2) =
            slice mem src l2 n2 := by simp [longer, swap]
        have shortIs : shorter (slice mem src l1 n1) (slice mem src l2 n2) =
            slice mem src l1 n1 := by simp [shorter, swap]
        have found : (slice mem src l2 n2)[(n2 - 1) / 2]? =
            some (mem (src, l2 + ((n2 - 1) / 2 : Nat))) := slice_getElem? _ _ _ _ _ (by omega)
        have shape := pivotMerge_pivot compare (slice mem src l1 n1) (slice mem src l2 n2)
          (by simpa using small) _ (by simpa only [longIs, middle, slice_length] using found)
        simp only [longIs, shortIs, middle, slice_length] at shape
        simp only [straight, ↓reduceDIte]
        rw [shape, run_mergeAround compare src dst apart n1 n2 l1 r1 l2 r2 start range1 range2
          (by omega) _ _ next mem _ rfl]
        · intro n1' n2' l1' r1' l2' r2' start' smaller mem' range1' range2'
          refine ih _ ?_ n1' n2' l1' r1' l2' r2' start' range1' range2' .ret mem' rfl
          omega

/-- The chunk of one more thread, in front of those of the others. -/
theorem chunks_succ {n chunkSize i : Int} {left : Nat} (positive : 0 ≤ chunkSize)
    (enough : (i + (left + 1 : Nat)) * chunkSize ≤ n) :
    (i + 1 + left) * chunkSize ≤ n ∧ (i + 1) * chunkSize = i * chunkSize + chunkSize ∧
      (i + 1) * chunkSize ≤ n := by
  have later : (i + 1 + left) * chunkSize ≤ n := by
    have same : i + 1 + (left : Int) = i + ((left + 1 : Nat) : Int) := by push_cast; omega
    rwa [same]
  have grow : (i + 1) * chunkSize ≤ (i + 1 + left) * chunkSize :=
    Int.mul_le_mul_of_nonneg_right (by omega) positive
  exact ⟨later, by rw [Int.add_mul, Int.one_mul], le_trans grow later⟩

theorem chunks_fit {n nProc : Int} (some' : 1 ≤ nProc) (positive : 0 ≤ n) :
    0 ≤ n / nProc ∧ (0 + ((nProc - 1).toNat : Int)) * (n / nProc) ≤ n := by
  have share : 0 ≤ n / nProc := Int.ediv_nonneg positive (by omega)
  have all : n / nProc * nProc ≤ n := Int.ediv_mul_le n (by omega)
  have fewer : (0 + ((nProc - 1).toNat : Int)) * (n / nProc) ≤ nProc * (n / nProc) :=
    Int.mul_le_mul_of_nonneg_right (by omega) share
  rw [Int.mul_comm nProc] at fewer
  exact ⟨share, le_trans fewer all⟩

theorem run_copyThreads (dst src : Cell) (apart : dst.1 ≠ src.1) (n chunkSize : Int)
    (positive : 0 ≤ chunkSize) (left : Nat) (i : Int) (enough : (i + left) * chunkSize ≤ n)
    (next : Code) (mem : Mem Cell Elem) :
    run (copyThreads dst src n chunkSize left i next) mem =
      run next (store mem dst.1 (dst.2 + i * chunkSize)
        (slice mem src.1 (src.2 + i * chunkSize) (n - i * chunkSize).toNat)) := by
  induction left generalizing i next mem with
  | zero =>
    simp only [copyThreads, copyArrSerial, Int.mul_comm chunkSize i]
    rw [run_copyLoop (dst.1, dst.2 + i * chunkSize) (src.1, src.2 + i * chunkSize) apart]
    simp
  | succ left ih =>
    obtain ⟨later, step, total⟩ := chunks_succ positive enough
    simp only [copyThreads, run, copyArrSerial]
    rw [run_copyLoop (dst.1, dst.2 + i * chunkSize) (src.1, src.2 + i * chunkSize) apart,
      ih (i + 1) later]
    simp only [run, step] at total ⊢
    generalize i * chunkSize = q at total ⊢
    have count : (n - q).toNat = chunkSize.toNat + (n - (q + chunkSize)).toNat := by omega
    have position : ∀ at' : Int, at' + (q + chunkSize) = at' + q + (chunkSize.toNat : Int) := by
      intro at'
      omega
    have kept := slice_store_other mem dst.1 src.1 (dst.2 + q) (src.2 + q + chunkSize.toNat)
      (slice mem src.1 (src.2 + q) chunkSize.toNat) (n - (q + chunkSize)).toNat
      (Or.inl apart.symm)
    rw [count, slice_append, store_append, slice_length]
    simp only [Int.add_zero, position, kept]

theorem run_copyArrParallel (nProc : Int) (some' : 1 ≤ nProc) (dst src : Cell)
    (apart : dst.1 ≠ src.1) (n : Int) (positive : 0 ≤ n) (next : Code) (mem : Mem Cell Elem) :
    run (copyArrParallel nProc dst src n next) mem =
      run next (store mem dst.1 dst.2 (slice mem src.1 src.2 n.toNat)) := by
  obtain ⟨share, enough⟩ := chunks_fit some' positive
  rw [copyArrParallel, run_copyThreads dst src apart n _ share _ _ enough]
  simp
end Serial

section Threads
variable (compare : Elem → Elem → Int)

def cells (buf : Buffer) (lo hi : Int) : Set Cell :=
  {cell | cell.1 = buf ∧ lo ≤ cell.2 ∧ cell.2 < hi}

theorem cells_disjoint_buffer (buf buf' : Buffer) (lo hi lo' hi' : Int) (apart : buf ≠ buf') :
    Disjoint (cells buf lo hi) (cells buf' lo' hi') := by
  rw [Set.disjoint_left]
  rintro cell ⟨here, _⟩ ⟨there, _⟩
  exact apart (here.symm.trans there)

theorem cells_disjoint_range (buf : Buffer) (lo hi lo' hi' : Int)
    (apart : hi ≤ lo' ∨ hi' ≤ lo) : Disjoint (cells buf lo hi) (cells buf lo' hi') := by
  rw [Set.disjoint_left]
  rintro cell ⟨_, low, high⟩ ⟨_, low', high'⟩
  omega

theorem cells_mono {buf : Buffer} {lo hi lo' hi' : Int} (low : lo' ≤ lo) (high : hi ≤ hi') :
    cells buf lo hi ⊆ cells buf lo' hi' := by
  rintro cell ⟨same, low', high'⟩
  exact ⟨same, by omega, by omega⟩

variable {touched written : Set Cell}

theorem safe_copyLoop (dest src : Cell) (left : Nat) (i : Int) (next : Code)
    (reads : cells src.1 (src.2 + i) (src.2 + i + left) ⊆ touched)
    (writes : cells dest.1 (dest.2 + i) (dest.2 + i + left) ⊆ written)
    (rest : Safe touched written next) : Safe touched written (copyLoop dest src left i next) := by
  induction left generalizing i with
  | zero => exact rest
  | succ left ih =>
    have readHere : (src.1, src.2 + i) ∈ touched :=
      reads ⟨rfl, by simp only; omega, by simp only; push_cast; omega⟩
    have writeHere : (dest.1, dest.2 + i) ∈ written :=
      writes ⟨rfl, by simp only; omega, by simp only; push_cast; omega⟩
    refine ⟨readHere, fun _ => ⟨writeHere, ih (i + 1) ?_ ?_⟩⟩
    · exact (cells_mono (by omega) (by push_cast; omega)).trans reads
    · exact (cells_mono (by omega) (by push_cast; omega)).trans writes

theorem safe_copyThreads (dst src : Cell) (apart : dst.1 ≠ src.1) (n chunkSize : Int)
    (positive : 0 ≤ chunkSize) (left : Nat) (i : Int) (enough : (i + left) * chunkSize ≤ n)
    (next : Code) (reads : cells src.1 (src.2 + i * chunkSize) (src.2 + n) ⊆ touched)
    (writes : cells dst.1 (dst.2 + i * chunkSize) (dst.2 + n) ⊆ written)
    (rest : Safe touched written next) :
    Safe touched written (copyThreads dst src n chunkSize left i next) := by
  induction left generalizing i next touched written with
  | zero =>
    have last : i * chunkSize ≤ n := by simpa using enough
    simp only [copyThreads, copyArrSerial, Int.mul_comm chunkSize i]
    refine safe_copyLoop _ _ _ _ _ ?_ ?_ rest
    · exact (cells_mono (by omega) (by omega)).trans reads
    · exact (cells_mono (by omega) (by omega)).trans writes
  | succ left ih =>
    obtain ⟨later, step, total⟩ := chunks_succ positive enough
    have spawned : Safe (cells src.1 (src.2 + i * chunkSize) (src.2 + (i + 1) * chunkSize))
        (cells dst.1 (dst.2 + i * chunkSize) (dst.2 + (i + 1) * chunkSize))
        (copyArrSerial (dst.1, dst.2 + i * chunkSize) (src.1, src.2 + i * chunkSize)
          chunkSize .ret) := by
      refine safe_copyLoop _ _ _ _ _ ?_ ?_ trivial
      · exact cells_mono (by omega) (by rw [step]; omega)
      · exact cells_mono (by omega) (by rw [step]; omega)
    have others := ih (i + 1) later .ret (subset_refl _) (subset_refl _) trivial
    refine ⟨⟨_, _, _, _, spawned, others, ⟨?_, ?_, ?_, ?_⟩, ?_, ?_, ?_⟩, rest⟩
    · exact (cells_mono (by omega) (by omega)).trans reads
    · exact (cells_mono (by omega) (by omega)).trans writes
    · exact (cells_mono (by rw [step]; omega) (by omega)).trans reads
    · exact (cells_mono (by rw [step]; omega) (by omega)).trans writes
    · exact cells_disjoint_buffer _ _ _ _ _ _ apart.symm
    · exact cells_disjoint_buffer _ _ _ _ _ _ apart
    · exact cells_disjoint_range _ _ _ _ _ (Or.inl (by omega))

theorem safe_copyArrParallel (nProc : Int) (some' : 1 ≤ nProc) (dst src : Cell)
    (apart : dst.1 ≠ src.1) (n : Int) (positive : 0 ≤ n) (next : Code)
    (reads : cells src.1 src.2 (src.2 + n) ⊆ touched)
    (writes : cells dst.1 dst.2 (dst.2 + n) ⊆ written) (rest : Safe touched written next) :
    Safe touched written (copyArrParallel nProc dst src n next) := by
  obtain ⟨share, enough⟩ := chunks_fit some' positive
  exact safe_copyThreads dst src apart n _ share _ _ enough next
    (by simpa using reads) (by simpa using writes) rest

theorem safe_insertLoop (buf : Buffer) (base : Int) (temp : Elem) (j : Nat) (next : Code)
    (reads : cells buf base (base + j) ⊆ touched)
    (writes : cells buf base (base + j + 1) ⊆ written) (rest : Safe touched written next) :
    Safe touched written (insertLoop compare buf base temp j next) := by
  induction j with
  | zero => exact ⟨writes ⟨rfl, by simp only; omega, by simp only; push_cast; omega⟩, rest⟩
  | succ j ih =>
    have readHere : (buf, base + (j : Int)) ∈ touched :=
      reads ⟨rfl, by simp only; omega, by simp only; push_cast; omega⟩
    have writeHere : (buf, base + ((j : Int) + 1)) ∈ written :=
      writes ⟨rfl, by simp only; omega, by simp only; push_cast; omega⟩
    refine ⟨readHere, fun value => ?_⟩
    beta_reduce
    split
    · refine ⟨readHere, fun _ => ⟨writeHere, ih ?_ ?_⟩⟩
      · exact (cells_mono (by omega) (by push_cast; omega)).trans reads
      · exact (cells_mono (by omega) (by push_cast; omega)).trans writes
    · exact ⟨writeHere, rest⟩

theorem safe_insertionLoop (buf : Buffer) (base : Int) (left i : Nat) (next : Code)
    (reads : cells buf base (base + i + left) ⊆ touched)
    (writes : cells buf base (base + i + left) ⊆ written) (rest : Safe touched written next) :
    Safe touched written (insertionLoop compare buf base left i next) := by
  induction left generalizing i with
  | zero => exact rest
  | succ left ih =>
    have readHere : (buf, base + (i : Int)) ∈ touched :=
      reads ⟨rfl, by simp only; omega, by simp only; push_cast; omega⟩
    refine ⟨readHere, fun temp => safe_insertLoop compare _ _ _ _ _ ?_ ?_ (ih (i + 1) ?_ ?_)⟩
    · exact (cells_mono (by omega) (by omega)).trans reads
    · exact (cells_mono (by omega) (by push_cast; omega)).trans writes
    · exact (cells_mono (by omega) (by push_cast; omega)).trans reads
    · exact (cells_mono (by omega) (by push_cast; omega)).trans writes

theorem safe_mergeLoop (src dst : Buffer) (l1 l2 : Int) (left1 left2 : Nat) (i j k : Int)
    (next : Code) (reads1 : cells src (l1 + i) (l1 + i + left1) ⊆ touched)
    (reads2 : cells src (l2 + j) (l2 + j + left2) ⊆ touched)
    (writes : cells dst k (k + left1 + left2) ⊆ written) (rest : Safe touched written next) :
    Safe touched written (mergeLoop compare src dst l1 l2 left1 left2 i j k next) := by
  induction total : left1 + left2 generalizing left1 left2 i j k with
  | zero =>
    obtain ⟨rfl, rfl⟩ : left1 = 0 ∧ left2 = 0 := by omega
    rw [mergeLoop]
    exact rest
  | succ total ih =>
    cases left1 with
    | zero =>
      rw [mergeLoop]
      refine safe_copyLoop _ _ _ _ _ ?_ ?_ rest
      · exact (cells_mono (by simp) (by simp)).trans reads2
      · exact (cells_mono (by simp) (by simp)).trans writes
    | succ left1 =>
      cases left2 with
      | zero =>
        rw [mergeLoop]
        refine safe_copyLoop _ _ _ _ _ ?_ ?_ rest
        · exact (cells_mono (by simp) (by simp)).trans reads1
        · exact (cells_mono (by simp) (by simp)).trans writes
      | succ left2 =>
        have read1 : (src, l1 + i) ∈ touched :=
          reads1 ⟨rfl, by simp only; omega, by simp only; push_cast; omega⟩
        have read2 : (src, l2 + j) ∈ touched :=
          reads2 ⟨rfl, by simp only; omega, by simp only; push_cast; omega⟩
        have writeHere : (dst, k) ∈ written :=
          writes ⟨rfl, by simp only; omega, by simp only; push_cast; omega⟩
        rw [mergeLoop]
        refine ⟨read1, fun x => ⟨read2, fun y => ?_⟩⟩
        beta_reduce
        split
        · refine ⟨read1, fun _ => ⟨writeHere, ih left1 (left2 + 1) _ _ _ ?_ ?_ ?_ (by omega)⟩⟩
          · exact (cells_mono (by omega) (by push_cast; omega)).trans reads1
          · exact reads2
          · exact (cells_mono (by omega) (by push_cast; omega)).trans writes
        · refine ⟨read2, fun _ => ⟨writeHere, ih (left1 + 1) left2 _ _ _ ?_ ?_ ?_ (by omega)⟩⟩
          · exact reads1
          · exact (cells_mono (by omega) (by push_cast; omega)).trans reads2
          · exact (cells_mono (by omega) (by push_cast; omega)).trans writes

theorem safe_findSplitPoint (src : Buffer) (p : Elem) (low high : Int)
    (next : (s : Int) → low ≤ s → s ≤ max low high → Code) (reads : cells src low high ⊆ touched)
    (rest : ∀ s ge le, Safe touched written (next s ge le)) :
    Safe touched written (findSplitPoint compare src p low high next) := by
  induction total : (high - low).toNat using Nat.strong_induction_on generalizing low high with
  | _ total ih =>
    rw [findSplitPoint]
    split
    · rename_i loop
      refine ⟨reads ⟨rfl, by simp only; omega, by simp only; omega⟩, fun value => ?_⟩
      beta_reduce
      split
      · refine ih _ ?_ low _ _ ?_ (fun s ge le => rest s ge (by omega)) rfl
        · omega
        · exact (cells_mono (by omega) (by omega)).trans reads
      · refine ih _ ?_ _ high _ ?_ (fun s ge le => rest s (by omega) (by omega)) rfl
        · omega
        · exact (cells_mono (by omega) (by omega)).trans reads
    · exact rest _ _ _

/-- The two threads of a pivot step read one buffer and write disjoint parts of
the other, on both sides of the pivot's slot. -/
theorem safe_mergeAround (src dst : Buffer) (apart : dst ≠ src) (na nc : Nat)
    (a b c d start : Int) (rangeA : b = a + na - 1) (rangeC : d = c + nc - 1) (nonempty : c ≤ d)
    (recurse : (l1 r1 l2 r2 start : Int) → mergeSize l1 r1 l2 r2 < mergeSize a b c d → Code)
    (merges : ∀ (n1 n2 : Nat) (l1 r1 l2 r2 start : Int) smaller (touched written : Set Cell),
      r1 = l1 + n1 - 1 → r2 = l2 + n2 - 1 → cells src l1 (l1 + n1) ⊆ touched →
      cells src l2 (l2 + n2) ⊆ touched → cells dst start (start + n1 + n2) ⊆ written →
      Safe touched written (recurse l1 r1 l2 r2 start smaller))
    (next : Code) (readsA : cells src a (a + na) ⊆ touched)
    (readsC : cells src c (c + nc) ⊆ touched)
    (writes : cells dst start (start + na + nc) ⊆ written) (rest : Safe touched written next) :
    Safe touched written (mergeAround compare src a b c d nonempty dst start recurse next) := by
  refine ⟨readsC ⟨rfl, by simp only; omega, by simp only; omega⟩, fun pivot => ?_⟩
  refine safe_findSplitPoint compare src pivot a b _
    ((cells_mono (by omega) (by omega)).trans readsA) fun s ge le => ?_
  have source : ∀ lo hi, cells src lo hi ⊆ touched →
      cells src lo hi ⊆ {cell | cell ∈ touched ∧ cell.1 = src} :=
    fun lo hi inside cell hit => ⟨inside hit, hit.1⟩
  have away : ∀ lo hi, Disjoint {cell : Cell | cell ∈ touched ∧ cell.1 = src}
      (cells dst lo hi) := by
    intro lo hi
    rw [Set.disjoint_left]
    rintro cell ⟨_, here⟩ ⟨there, _⟩
    exact apart (there.symm.trans here)
  have behind : Safe {cell | cell ∈ touched ∧ cell.1 = src}
      (cells dst (start + (s - a) + (c + (d - c) / 2 - c) + 1) (start + na + nc)) _ :=
    merges (na - (s - a).toNat) (nc - (c + (d - c) / 2 - c).toNat - 1) s b (c + (d - c) / 2 + 1) d
      (start + (s - a) + (c + (d - c) / 2 - c) + 1) (by simp only [mergeSize]; omega) _ _
      (by omega) (by omega) (source _ _ ((cells_mono (by omega) (by omega)).trans readsA))
      (source _ _ ((cells_mono (by omega) (by omega)).trans readsC))
      (cells_mono (by omega) (by omega))
  have before : Safe {cell | cell ∈ touched ∧ cell.1 = src}
      (cells dst start (start + (s - a) + (c + (d - c) / 2 - c))) _ :=
    merges (s - a).toNat (c + (d - c) / 2 - c).toNat a (s - 1) c (c + (d - c) / 2 - 1) start
      (by simp only [mergeSize]; omega) _ _ (by omega) (by omega)
      (source _ _ ((cells_mono (by omega) (by omega)).trans readsA))
      (source _ _ ((cells_mono (by omega) (by omega)).trans readsC))
      (cells_mono (by omega) (by omega))
  refine ⟨writes ⟨rfl, by simp only; omega, by simp only; omega⟩,
    ⟨_, _, _, _, behind, before, ⟨?_, ?_, ?_, ?_⟩, away _ _, (away _ _).symm, ?_⟩, rest⟩
  · exact fun cell hit => hit.1
  · exact (cells_mono (by omega) (by omega)).trans writes
  · exact fun cell hit => hit.1
  · exact (cells_mono (by omega) (by omega)).trans writes
  · exact cells_disjoint_range _ _ _ _ _ (Or.inr (by omega))

theorem safe_mergeParallelAux (src dst : Buffer) (apart : dst ≠ src) (n1 n2 : Nat)
    (l1 r1 l2 r2 start : Int) (range1 : r1 = l1 + n1 - 1) (range2 : r2 = l2 + n2 - 1)
    (next : Code) (reads1 : cells src l1 (l1 + n1) ⊆ touched)
    (reads2 : cells src l2 (l2 + n2) ⊆ touched)
    (writes : cells dst start (start + n1 + n2) ⊆ written) (rest : Safe touched written next) :
    Safe touched written (mergeParallelAux compare src l1 r1 l2 r2 dst start next) := by
  induction total : mergeSize l1 r1 l2 r2 using Nat.strong_induction_on
    generalizing n1 n2 l1 r1 l2 r2 start next touched written with
  | _ total ih =>
    rw [mergeParallelAux]
    split
    · refine safe_mergeLoop compare src dst _ _ _ _ _ _ _ next ?_ ?_ ?_ rest
      · exact (cells_mono (by omega) (by omega)).trans reads1
      · exact (cells_mono (by omega) (by omega)).trans reads2
      · exact (cells_mono (by omega) (by omega)).trans writes
    · split
      · exact rest
      · split
        · refine safe_mergeAround compare src dst apart n2 n1 l2 r2 l1 r1 start range2 range1
            _ _ ?_ next reads2 reads1
            ((cells_mono (by omega) (by omega)).trans writes) rest
          intro n1' n2' l1' r1' l2' r2' start' smaller t w range1' range2' t1 t2 w1
          refine ih _ ?_ n1' n2' l1' r1' l2' r2' start' range1' range2' .ret t1 t2 w1 trivial rfl
          simp only [mergeSize] at smaller total ⊢
          omega
        · refine safe_mergeAround compare src dst apart n1 n2 l1 r1 l2 r2 start range1 range2
            _ _ ?_ next reads1 reads2 writes rest
          intro n1' n2' l1' r1' l2' r2' start' smaller t w range1' range2' t1 t2 w1
          refine ih _ ?_ n1' n2' l1' r1' l2' r2' start' range1' range2' .ret t1 t2 w1 trivial rfl
          omega

/-- Every cell that sorting `l..r` may touch: the range itself and the buffers
of the merges inside it. -/
def owned (l r : Int) : Set Cell :=
  {cell | match cell.1 with
    | .arr => l ≤ cell.2 ∧ cell.2 ≤ r
    | .aux l' r' => l ≤ l' ∧ l' < r' ∧ r' ≤ r}

theorem owned_mono (l r l' r' : Int) (low : l' ≤ l) (high : r ≤ r') : owned l r ⊆ owned l' r' := by
  rintro ⟨buf, at'⟩ inside
  cases buf <;> simp only [owned, Set.mem_ofPred_eq] at inside ⊢ <;> omega

theorem owned_disjoint (l m m' r : Int) (apart : m < m') : Disjoint (owned l m) (owned m' r) := by
  rw [Set.disjoint_left]
  rintro ⟨buf, at'⟩ here there
  cases buf <;> simp only [owned, Set.mem_ofPred_eq] at here there <;> omega

theorem cells_arr_owned (l r lo hi : Int) (low : l ≤ lo) (high : hi ≤ r + 1) :
    cells .arr lo hi ⊆ owned l r := by
  rintro ⟨buf, at'⟩ ⟨same, low', high'⟩
  simp only at same low' high'
  subst same
  simp only [owned, Set.mem_ofPred_eq]
  omega

theorem cells_aux_owned (l r lo hi : Int) (ordered : l < r) :
    cells (.aux l r) lo hi ⊆ owned l r := by
  rintro ⟨buf, at'⟩ ⟨same, _⟩
  simp only at same
  subst same
  simp only [owned, Set.mem_ofPred_eq]
  omega

variable (nProc : Int)

theorem safe_mergeParallel (some' : 1 ≤ nProc) (l m r : Int) (inside : l ≤ m) (below : m < r)
    (next : Code) (rest : Safe (owned l r) (owned l r) next) :
    Safe (owned l r) (owned l r) (mergeParallel compare nProc l m r next) := by
  refine safe_mergeParallelAux compare .arr (.aux l r) (by simp) (m - l + 1).toNat (r - m).toNat
    l m (m + 1) r 0 (by omega) (by omega) _ ?_ ?_ ?_ ?_
  · exact cells_arr_owned _ _ _ _ (by omega) (by omega)
  · exact cells_arr_owned _ _ _ _ (by omega) (by omega)
  · exact cells_aux_owned _ _ _ _ (by omega)
  · refine safe_copyArrParallel nProc some' (.arr, l) (.aux l r, 0) (by simp) _ (by omega) next
      ?_ ?_ rest
    · exact cells_aux_owned _ _ _ _ (by omega)
    · exact cells_arr_owned _ _ _ _ (by simp) (by simp only; omega)

theorem safe_mergeSortThreaded (some' : 1 ≤ nProc) (l r : Int) (next : Code)
    (rest : Safe (owned l r) (owned l r) next) :
    Safe (owned l r) (owned l r) (mergeSortThreaded compare nProc l r next) := by
  induction total : (r - l + 1).toNat using Nat.strong_induction_on generalizing l r next with
  | _ total ih =>
    rw [mergeSortThreaded]
    split
    · by_cases empty : r < l
      · have none : (r - l + 1 - 1).toNat = 0 := by omega
        simp only [insertionSort, none, insertionLoop]
        exact rest
      · refine safe_insertionLoop compare _ _ _ _ _ ?_ ?_ rest <;>
          exact cells_arr_owned _ _ _ _ (by omega) (by push_cast; omega)
    · rename_i large
      simp only [minThreadElem] at large
      split
      · have spawned := ih (r - (l + (r - l) / 2 + 1) + 1).toNat (by omega)
          (l + (r - l) / 2 + 1) r .ret trivial rfl
        have main := ih (l + (r - l) / 2 - l + 1).toNat (by omega)
          l (l + (r - l) / 2) .ret trivial rfl
        -- the halves own different parts of `arr` and buffers of their own
        have apart := owned_disjoint l (l + (r - l) / 2) (l + (r - l) / 2 + 1) r (by omega)
        refine ⟨⟨_, _, _, _, spawned, main, ⟨?_, ?_, ?_, ?_⟩, apart.symm, apart.symm,
          apart.symm⟩, ?_⟩
        · exact owned_mono _ _ _ _ (by omega) (by omega)
        · exact owned_mono _ _ _ _ (by omega) (by omega)
        · exact owned_mono _ _ _ _ (by omega) (by omega)
        · exact owned_mono _ _ _ _ (by omega) (by omega)
        · exact safe_mergeParallel compare nProc some' l _ r (by omega) (by omega) next rest
      · exact rest

theorem run_mergeParallel (some' : 1 ≤ nProc) (l m r : Int) (left right : Nat)
    (range1 : m = l + left - 1) (range2 : r = m + right) (mem : Mem Cell Elem) :
    slice (run (mergeParallel compare nProc l m r .ret) mem) .arr l (left + right) =
      pivotMerge compare (slice mem .arr l left) (slice mem .arr (m + 1) right) := by
  rw [mergeParallel, run_mergeParallelAux compare .arr (.aux l r) (by simp) left right l m (m + 1)
    r 0 range1 (by omega), run_copyArrParallel nProc some' (.arr, l) (.aux l r, 0) (by simp) _
    (by omega)]
  have count : (r - l + 1).toNat = left + right := by omega
  have filled := slice_store_same mem (.aux l r) 0
    (pivotMerge compare (slice mem .arr l left) (slice mem .arr (m + 1) right))
  simp only [pivotMerge_length, slice_length] at filled
  simp only [run, count, filled]
  have back := slice_store_same (store mem (.aux l r) 0
    (pivotMerge compare (slice mem .arr l left) (slice mem .arr (m + 1) right))) .arr l
    (pivotMerge compare (slice mem .arr l left) (slice mem .arr (m + 1) right))
  simpa only [pivotMerge_length, slice_length] using back

theorem slice_run_kept (some' : 1 ≤ nProc) (l r lo : Int) (count : Nat)
    (apart : r < lo ∨ lo + count ≤ l) (mem : Mem Cell Elem) :
    slice (run (mergeSortThreaded compare nProc l r .ret) mem) .arr lo count =
      slice mem .arr lo count := by
  apply slice_congr
  intro index inside
  apply run_frame (safe_mergeSortThreaded compare nProc some' l r .ret trivial)
  simp only [owned, Set.mem_ofPred_eq]
  omega

theorem run_mergeSortThreaded (some' : 1 ≤ nProc) (l r : Int) (n : Nat) (range : r = l + n - 1)
    (mem : Mem Cell Elem) :
    slice (run (mergeSortThreaded compare nProc l r .ret) mem) .arr l n =
      sortList compare (slice mem .arr l n) := by
  induction n using Nat.strong_induction_on generalizing l r mem with
  | _ n ih =>
    rw [mergeSortThreaded, sortList]
    by_cases small : n ≤ 16
    · have fits : r - l + 1 ≤ minThreadElem := by simp only [minThreadElem]; omega
      have count : r - l + 1 = (n : Int) := by omega
      simp only [fits, small, slice_length, ↓reduceDIte, ↓reduceIte]
      rw [count, run_insertionSort]
      have same := slice_store_same mem .arr l (insertionList compare (slice mem .arr l n))
      rwa [(insertionList_perm compare _).length_eq, slice_length] at same
    · have large : ¬ r - l + 1 ≤ minThreadElem := by simp only [minThreadElem]; omega
      have ordered : l < r := by omega
      simp only [large, small, ordered, slice_length, middle, ↓reduceDIte, ↓reduceIte, run]
      generalize cut : (n - 1) / 2 + 1 = k
      have half : l + (r - l) / 2 = l + (k : Int) - 1 := by omega
      have total : n = k + (n - k) := by omega
      rw [half]
      conv => lhs; rw [total]
      rw [run_mergeParallel compare nProc some' l _ r k (n - k) (by omega) (by omega)]
      have left := ih k (by omega) l (l + k - 1) rfl
        (run (mergeSortThreaded compare nProc (l + k - 1 + 1) r .ret) mem)
      have right := ih (n - k) (by omega) (l + k - 1 + 1) r (by omega) mem
      rw [left, slice_run_kept compare nProc some' _ r l k (by omega),
        slice_run_kept compare nProc some' l _ _ (n - k) (by omega), right,
        slice_take _ _ _ _ _ (by omega), slice_drop _ _ _ _ _ (by omega)]
      congr 3
      omega
end Threads

end OsProjects.SortRefinement
