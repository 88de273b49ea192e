import OsProjects.ForkJoin
import OsProjects.ByteStore

/-!
`parallel-sort/mergesort.c` as fork-join programs. Every `copy_elem` and every
`compare_elem` argument is a separate memory action, threads are `fork`s, and
the locals of a function are arguments of its loop. The comparison is a
parameter: `compare_elem` subtracts two `int`s, and C leaves an overflowing
subtraction open. `merge_parallel` for l..r allocates its own `B`, named
`aux l r`; `malloc` keeps live blocks apart. Timing and debug output are left
out.
-/

namespace OsProjects.ParallelSort

open ForkJoin

structure Elem where
  carr : Vector UInt8 100
  deriving DecidableEq

def Elem.key (elem : Elem) : Int :=
  ByteStore.signed (ByteStore.wordAt (fun index => (elem.carr[index]?).getD 0) 0)

def compareElem (a b : Elem) : Int :=
  ByteStore.signed (ByteStore.wrap (a.key - b.key))

def minThreadElem : Int := 16

inductive Buffer where
  | arr
  | aux (l r : Int)
  deriving DecidableEq

abbrev Cell := Buffer × Int
abbrev Code := Prog Cell Elem

def copyElem (dest src : Cell) (next : Code) : Code :=
  .read src fun value => .write dest value next

def copyLoop (dest src : Cell) : Nat → Int → Code → Code
  | 0, _, next => next
  | left + 1, i, next =>
    copyElem (dest.1, dest.2 + i) (src.1, src.2 + i) (copyLoop dest src left (i + 1) next)

def copyArrSerial (dest src : Cell) (n : Int) (next : Code) : Code :=
  copyLoop dest src n.toNat 0 next

def copyThreads (dst src : Cell) (n chunkSize : Int) : Nat → Int → Code → Code
  | 0, i, next =>
    copyArrSerial (dst.1, dst.2 + i * chunkSize) (src.1, src.2 + i * chunkSize)
      (n - chunkSize * i) next
  | left + 1, i, next =>
    .fork (copyArrSerial (dst.1, dst.2 + i * chunkSize) (src.1, src.2 + i * chunkSize)
        chunkSize .ret)
      (copyThreads dst src n chunkSize left (i + 1) .ret) next

def copyArrParallel (nProc : Int) (dst src : Cell) (n : Int) (next : Code) : Code :=
  copyThreads dst src n (n / nProc) (nProc - 1).toNat 0 next

section Sorting
variable (compare : Elem → Elem → Int)

def insertLoop (buf : Buffer) (base : Int) (temp : Elem) : Nat → Code → Code
  | 0, next => .write (buf, base) temp next
  | j + 1, next => .read (buf, base + j) fun value =>
    if compare value temp > 0 then
      copyElem (buf, base + (j + 1)) (buf, base + j) (insertLoop buf base temp j next)
    else .write (buf, base + (j + 1)) temp next

def insertionLoop (buf : Buffer) (base : Int) : Nat → Nat → Code → Code
  | 0, _, next => next
  | left + 1, i, next => .read (buf, base + i) fun temp =>
    insertLoop compare buf base temp i (insertionLoop buf base left (i + 1) next)

def insertionSort (buf : Buffer) (base n : Int) (next : Code) : Code :=
  insertionLoop compare buf base (n - 1).toNat 1 next

def mergeLoop (src dst : Buffer) (l1 l2 : Int) :
    (left1 left2 : Nat) → (i j k : Int) → Code → Code
  | 0, left2, _, j, k, next => copyLoop (dst, k) (src, l2 + j) left2 0 next
  | left1 + 1, 0, i, _, k, next => copyLoop (dst, k) (src, l1 + i) (left1 + 1) 0 next
  | left1 + 1, left2 + 1, i, j, k, next =>
    .read (src, l1 + i) fun x => .read (src, l2 + j) fun y =>
      if compare x y ≤ 0 then
        copyElem (dst, k) (src, l1 + i)
          (mergeLoop src dst l1 l2 left1 (left2 + 1) (i + 1) j (k + 1) next)
      else
        copyElem (dst, k) (src, l2 + j)
          (mergeLoop src dst l1 l2 (left1 + 1) left2 i (j + 1) (k + 1) next)
termination_by left1 left2 => left1 + left2

def mergeSerial2 (src : Buffer) (l1 r1 l2 r2 : Int) (dst : Buffer) (start : Int)
    (next : Code) : Code :=
  mergeLoop compare src dst l1 l2 (r1 - l1 + 1).toNat (r2 - l2 + 1).toNat 0 0 start next

/-- The loop of `find_split_point`; the bounds on the returned index are what
its recursive caller terminates by. -/
def findSplitPoint (src : Buffer) (p : Elem) (low high : Int)
    (next : (s : Int) → low ≤ s → s ≤ max low high → Code) : Code :=
  if loop : low < high then
    .read (src, low + (high - low) / 2) fun value =>
      if compare p value ≤ 0 then
        findSplitPoint src p low (low + (high - low) / 2)
          fun s ge le => next s ge (by omega)
      else
        findSplitPoint src p (low + (high - low) / 2 + 1) high
          fun s ge le => next s (by omega) (by omega)
  else next low (le_refl low) (le_max_left low high)
termination_by (high - low).toNat

def mergeSize (l1 r1 l2 r2 : Int) : Nat := (r1 - l1 + 1).toNat + (r2 - l2 + 1).toNat

/-- The pivot step of `merge_parallel_aux` once `c..d` is the longer range: the
middle of `c..d` goes to its final slot, one thread merges what is before it
and a spawned one what is behind it. -/
def mergeAround (src : Buffer) (a b c d : Int) (nonempty : c ≤ d) (dst : Buffer) (start : Int)
    (recurse : (l1 r1 l2 r2 start : Int) → mergeSize l1 r1 l2 r2 < mergeSize a b c d → Code)
    (next : Code) : Code :=
  .read (src, c + (d - c) / 2) fun pivot =>
    findSplitPoint compare src pivot a b fun s ge le =>
      .write (dst, start + (s - a) + (c + (d - c) / 2 - c)) pivot <|
        .fork
          (recurse s b (c + (d - c) / 2 + 1) d (start + (s - a) + (c + (d - c) / 2 - c) + 1)
            (by simp only [mergeSize]; omega))
          (recurse a (s - 1) c (c + (d - c) / 2 - 1) start (by simp only [mergeSize]; omega))
          next

def mergeParallelAux (src : Buffer) (l1 r1 l2 r2 : Int) (dst : Buffer) (start : Int)
    (next : Code) : Code :=
  if small : r1 - l1 + 1 ≤ minThreadElem then
    mergeSerial2 compare src l1 r1 l2 r2 dst start next
  else if l1 > r1 ∧ l2 > r2 then next
  else if swap : r2 - l2 < r1 - l1 then
    mergeAround compare src l2 r2 l1 r1 (by simp only [minThreadElem] at small; omega) dst start
      (fun l1' r1' l2' r2' start' smaller =>
        mergeParallelAux src l1' r1' l2' r2' dst start' .ret) next
  else
    mergeAround compare src l1 r1 l2 r2 (by simp only [minThreadElem] at small; omega) dst start
      (fun l1' r1' l2' r2' start' smaller =>
        mergeParallelAux src l1' r1' l2' r2' dst start' .ret) next
termination_by mergeSize l1 r1 l2 r2
decreasing_by
  all_goals
    simp only [mergeSize] at *
    omega

variable (nProc : Int)

def mergeParallel (l m r : Int) (next : Code) : Code :=
  mergeParallelAux compare .arr l m (m + 1) r (.aux l r) 0
    (copyArrParallel nProc (.arr, l) (.aux l r, 0) (r - l + 1) next)

def mergeSortThreaded (l r : Int) (next : Code) : Code :=
  if small : r - l + 1 ≤ minThreadElem then insertionSort compare .arr l (r - l + 1) next
  else if l < r then
    .fork (mergeSortThreaded (l + (r - l) / 2 + 1) r .ret)
      (mergeSortThreaded l (l + (r - l) / 2) .ret)
      (mergeParallel compare nProc l (l + (r - l) / 2) r next)
  else next
termination_by (r - l + 1).toNat
decreasing_by
  all_goals
    simp only [minThreadElem] at small
    omega

def mergeSortParallel (l r : Int) : Code :=
  mergeSortThreaded compare nProc l r .ret
end Sorting

end OsProjects.ParallelSort
