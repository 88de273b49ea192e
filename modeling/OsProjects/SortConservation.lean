import OsProjects.SortOrder
import Mathlib.Data.Multiset.Range
import Mathlib.Data.Multiset.MapFold

/-!
No record is lost or duplicated by the parallel sort, whatever `compare_elem`
answers. The comparison only decides where a merge is cut; every cut leaves two
merges and a pivot slot that fill the destination exactly once.
-/

namespace OsProjects.SortConservation

open ForkJoin ParallelSort SortLists SortRefinement SortOrder

def slots (buf : Buffer) (lo : Int) (count : Nat) : Multiset Cell :=
  (Multiset.range count).map fun index : Nat => (buf, lo + (index : Int))

section
variable (buf : Buffer) (lo : Int)

@[simp] theorem slots_zero : slots buf lo 0 = 0 := rfl

theorem slots_add (left right : Nat) :
    slots buf lo (left + right) = slots buf lo left + slots buf (lo + left) right := by
  simp only [slots, Multiset.range_add, Multiset.map_add, Multiset.map_map]
  congr 2
  funext index
  simp [Int.add_assoc]

theorem slots_succ (count : Nat) :
    slots buf lo (count + 1) = (buf, lo) ::ₘ slots buf (lo + 1) count := by
  rw [Nat.add_comm, slots_add]
  simp [slots]

theorem slots_around (before after : Nat) :
    slots buf lo (before + 1 + after) =
      (buf, lo + before) ::ₘ (slots buf (lo + before + 1) after + slots buf lo before) := by
  rw [Nat.add_assoc, slots_add, Nat.add_comm 1 after, slots_succ, Multiset.add_cons,
    Multiset.add_comm]

theorem slots_nodup (count : Nat) : (slots buf lo count).Nodup := by
  refine (Multiset.nodup_range count).map ?_
  intro first second same
  have position : lo + (first : Int) = lo + second := congrArg Prod.snd same
  omega

theorem slots_card (count : Nat) : (slots buf lo count).card = count := by
  simp [slots]
end

section Code
variable (compare : Elem → Elem → Int)

theorem writes_copyLoop (dest src : Cell) (left : Nat) (i : Int) (next : Code)
    {rest : Multiset Cell} (later : Writes rest next) :
    Writes (slots dest.1 (dest.2 + i) left + rest) (copyLoop dest src left i next) := by
  induction left generalizing i with
  | zero =>
    rw [slots_zero, Multiset.zero_add]
    exact later
  | succ left ih =>
    intro value
    refine ⟨_, ?_, ih (i + 1)⟩
    rw [slots_succ, Multiset.cons_add, Int.add_assoc]

theorem writes_mergeLoop (src dst : Buffer) (l1 l2 : Int) (left1 left2 : Nat) (i j k : Int)
    (next : Code) {rest : Multiset Cell} (later : Writes rest next) :
    Writes (slots dst k (left1 + left2) + rest)
      (mergeLoop compare src dst l1 l2 left1 left2 i j k next) := by
  fun_induction mergeLoop compare src dst l1 l2 left1 left2 i j k next with
  | case1 i left2 j k next =>
    have copied := writes_copyLoop (dst, k) (src, l2 + j) left2 0 next later
    simpa using copied
  | case2 j left1 i k next =>
    have copied := writes_copyLoop (dst, k) (src, l1 + i) (left1 + 1) 0 next later
    simpa using copied
  | case3 left1 left2 i j k next ihLeft ihRight =>
    intro x y
    dsimp only
    split
    · intro value
      refine ⟨_, ?_, ihLeft later⟩
      rw [show left1 + 1 + (left2 + 1) = left1 + (left2 + 1) + 1 by omega, slots_succ,
        Multiset.cons_add]
    · intro value
      refine ⟨_, ?_, ihRight later⟩
      rw [show left1 + 1 + (left2 + 1) = left1 + 1 + left2 + 1 by omega, slots_succ,
        Multiset.cons_add]

/-- `find_split_point` only reads: what holds of every way to go on, and is not
disturbed by a read, holds of the whole. -/
theorem findSplitPoint_reads (holds : Code → Prop)
    (reads : ∀ cell next, (∀ value, holds (next value)) → holds (.read cell next))
    (src : Buffer) (p : Elem) (low high : Int)
    (next : (s : Int) → low ≤ s → s ≤ max low high → Code)
    (later : ∀ s ge le, holds (next s ge le)) :
    holds (findSplitPoint compare src p low high next) := by
  induction size : (high - low).toNat using Nat.strong_induction_on generalizing low high next with
  | _ size ih =>
    rw [findSplitPoint]
    split
    · refine reads _ _ fun value => ?_
      split
      · exact ih _ (by omega) _ _ _ (fun s ge le => later s _ _) rfl
      · exact ih _ (by omega) _ _ _ (fun s ge le => later s _ _) rfl
    · exact later _ _ _

structure MergeArgs where
  arr : Buffer
  l1 : Int
  r1 : Int
  l2 : Int
  r2 : Int
  B : Buffer
  start : Int
  range1 : l1 ≤ r1 + 1
  range2 : l2 ≤ r2 + 1

namespace MergeArgs

def count (args : MergeArgs) : Nat := mergeSize args.l1 args.r1 args.l2 args.r2

def slots (args : MergeArgs) : Multiset Cell :=
  SortConservation.slots args.B args.start args.count

def call (args : MergeArgs) (next : Code) : Code :=
  mergeParallelAux compare args.arr args.l1 args.r1 args.l2 args.r2 args.B args.start next

/-- After reading, the call writes one pivot slot and then runs two smaller
calls; the slot and what the two write make up its own slots. -/
def Divides (args : MergeArgs) (next : Code) : Code → Prop
  | .read _ later => ∀ value, Divides args next (later value)
  | .write slot _ (.fork spawned main later) => later = next ∧ ∃ behind before : MergeArgs,
      spawned = behind.call compare .ret ∧ main = before.call compare .ret ∧
      slot ∉ behind.slots ∧ slot ∉ before.slots ∧ Disjoint behind.slots before.slots ∧
      slot ::ₘ (behind.slots + before.slots) = args.slots
  | _ => False

theorem slots_nodup (args : MergeArgs) : args.slots.Nodup := SortConservation.slots_nodup _ _ _

/-- The parts are disjoint because no slot occurs twice in the whole. -/
theorem divides_of_cover (args behind before : MergeArgs) (next : Code) (slot : Cell)
    (value : Elem) (cover : slot ::ₘ (behind.slots + before.slots) = args.slots) :
    Divides compare args next
      (.write slot value (.fork (behind.call compare .ret) (before.call compare .ret) next)) := by
  have once := args.slots_nodup
  rw [← cover, Multiset.nodup_cons, Multiset.nodup_add, Multiset.mem_add, not_or] at once
  exact ⟨rfl, behind, before, rfl, rfl, once.1.1, once.1.2, once.2.2.2, cover⟩

theorem divides_mergeAround (args : MergeArgs) (next : Code) (a b c d : Int) (nonempty : c ≤ d)
    (rangeA : a ≤ b + 1) (total : mergeSize a b c d = args.count) :
    Divides compare args next (mergeAround compare args.arr a b c d nonempty args.B args.start
      (fun l1 r1 l2 r2 start _ =>
        mergeParallelAux compare args.arr l1 r1 l2 r2 args.B start .ret) next) := by
  intro pivot
  refine findSplitPoint_reads compare (Divides compare args next)
    (fun _ _ each => each) _ _ _ _ _ fun s ge le => ?_
  refine divides_of_cover compare args ⟨args.arr, s, b, c + (d - c) / 2 + 1, d, args.B,
      args.start + (s - a) + (c + (d - c) / 2 - c) + 1, by omega, by omega⟩
    ⟨args.arr, a, s - 1, c, c + (d - c) / 2 - 1, args.B, args.start, by omega, by omega⟩
    next _ pivot ?_
  have sizes : mergeSize a (s - 1) c (c + (d - c) / 2 - 1) + 1 +
      mergeSize s b (c + (d - c) / 2 + 1) d = args.count := by
    rw [← total]
    simp only [mergeSize]
    omega
  have place : args.start + (s - a) + (c + (d - c) / 2 - c) =
      args.start + (mergeSize a (s - 1) c (c + (d - c) / 2 - 1) : Int) := by
    simp only [mergeSize]
    omega
  simp only [slots, count]
  rw [place, ← slots_around, sizes, count]

theorem divides_call (args : MergeArgs) (next : Code)
    (large : minThreadElem < args.r1 - args.l1 + 1) :
    Divides compare args next (args.call compare next) := by
  have range1 := args.range1
  have range2 := args.range2
  rw [call, mergeParallelAux]
  split
  · omega
  · split
    · simp only [minThreadElem] at large
      omega
    · split
      · refine divides_mergeAround compare args next _ _ _ _ _ range2 ?_
        simp only [count, mergeSize]
        omega
      · exact divides_mergeAround compare args next _ _ _ _ _ range1 rfl

theorem Divides.writes {args : MergeArgs} {next prog : Code}
    (divides : Divides compare args next prog)
    (smaller : ∀ part : MergeArgs, part.count < args.count →
      Writes part.slots (part.call compare .ret))
    {rest : Multiset Cell} (later : Writes rest next) : Writes (args.slots + rest) prog := by
  induction prog with
  | ret | fork => exact divides.elim
  | read cell onward ih => exact fun value => ih value (divides value)
  | write slot value onward =>
    cases onward with
    | ret | read | write => exact divides.elim
    | fork spawned main onward =>
      obtain ⟨rfl, behind, before, rfl, rfl, _, _, _, cover⟩ := divides
      have sizes := congrArg Multiset.card cover
      simp only [slots, Multiset.card_cons, Multiset.card_add, slots_card] at sizes
      refine ⟨behind.slots + before.slots + rest, ?_, behind.slots, before.slots, rest, rfl,
        smaller behind (by omega), smaller before (by omega), later⟩
      rw [← cover, Multiset.cons_add]

/-- A call fills its slots exactly once, whatever the comparison answers. -/
theorem writes_call (args : MergeArgs) (next : Code) {rest : Multiset Cell}
    (later : Writes rest next) : Writes (args.slots + rest) (args.call compare next) := by
  induction total : args.count using Nat.strong_induction_on generalizing args next rest with
  | _ total ih =>
    by_cases large : minThreadElem < args.r1 - args.l1 + 1
    · refine (divides_call compare args next large).writes compare ?_ later
      intro part smaller
      have filled := ih part.count (total ▸ smaller) part .ret rfl rfl
      rwa [Multiset.add_zero] at filled
    · rw [call, mergeParallelAux, dif_pos (by omega)]
      exact writes_mergeLoop compare _ _ _ _ _ _ _ _ _ next later

end MergeArgs
end Code

/-- Where the share of thread `i` starts in `copy_arr_parallel`, and its length;
the calling thread is the last one. -/
def chunk (nProc n i : Int) : Int × Int :=
  (i * (n / nProc), if i < nProc - 1 then n / nProc else n - n / nProc * i)

def copyChunk (nProc n : Int) (dst src : Cell) (i : Int) : Code :=
  copyArrSerial (dst.1, dst.2 + (chunk nProc n i).1) (src.1, src.2 + (chunk nProc n i).1)
    (chunk nProc n i).2 .ret

def forkAll : List Code → Code → Code
  | [], last => last
  | spawned :: rest, last => .fork spawned (forkAll rest last) .ret

theorem copyThreads_chunks (nProc n : Int) (dst src : Cell) (left i : Nat)
    (total : (i : Int) + left = nProc - 1) :
    copyThreads dst src n (n / nProc) left i .ret =
      forkAll ((List.range' i left).map fun k : Nat => copyChunk nProc n dst src k)
        (copyChunk nProc n dst src (nProc - 1)) := by
  induction left generalizing i with
  | zero =>
    have last : (i : Int) = nProc - 1 := by omega
    simp [copyThreads, forkAll, copyChunk, chunk, last]
  | succ left ih =>
    have before : (i : Int) < nProc - 1 := by omega
    have later := ih (i + 1) (by push_cast at total ⊢; omega)
    push_cast at later
    simp only [copyThreads, later, List.range'_succ, List.map_cons, forkAll]
    simp [copyChunk, chunk, before]

theorem copyArrParallel_chunks (nProc n : Int) (some' : 1 ≤ nProc) (dst src : Cell) :
    copyArrParallel nProc dst src n .ret =
      forkAll ((List.range (nProc - 1).toNat).map fun k : Nat => copyChunk nProc n dst src k)
        (copyChunk nProc n dst src (nProc - 1)) := by
  rw [List.range_eq_range']
  exact copyThreads_chunks nProc n dst src _ 0 (by omega)

def InChunk (nProc n i index : Int) : Prop :=
  (chunk nProc n i).1 ≤ index ∧ index < (chunk nProc n i).1 + (chunk nProc n i).2

theorem inChunk_spawned {nProc n i index : Int} (before : i < nProc - 1) :
    InChunk nProc n i index ↔ i * (n / nProc) ≤ index ∧ index < (i + 1) * (n / nProc) := by
  simp only [InChunk, chunk, before, if_true, Int.add_mul, Int.one_mul]

theorem inChunk_last {nProc n index : Int} :
    InChunk nProc n (nProc - 1) index ↔ (nProc - 1) * (n / nProc) ≤ index ∧ index < n := by
  simp only [InChunk, chunk, lt_irrefl, if_false, Int.mul_comm (n / nProc)]
  omega

section Chunks
variable {nProc n : Int} (some' : 1 ≤ nProc) (positive : 0 ≤ n)
include some' positive

theorem chunk_mono {i j : Int} (ordered : i ≤ j) : i * (n / nProc) ≤ j * (n / nProc) :=
  Int.mul_le_mul_of_nonneg_right ordered (Int.ediv_nonneg positive (by omega))

theorem inChunk_bounds {i index : Int} (first : 0 ≤ i) (last : i < nProc)
    (inside : InChunk nProc n i index) : 0 ≤ index ∧ index < n := by
  have low := chunk_mono some' positive first
  have high := chunk_mono some' positive (show i + 1 ≤ nProc by omega)
  have total : nProc * (n / nProc) ≤ n := Int.mul_ediv_self_le (by omega)
  by_cases before : i < nProc - 1
  · obtain ⟨ge, lt⟩ := (inChunk_spawned before).mp inside
    omega
  · obtain rfl : i = nProc - 1 := by omega
    obtain ⟨ge, lt⟩ := inChunk_last.mp inside
    omega

theorem inChunk_apart {i j index : Int} (ordered : i < j) (last : j < nProc)
    (here : InChunk nProc n i index) : ¬ InChunk nProc n j index := by
  intro there
  have upTo := ((inChunk_spawned (by omega)).mp here).2
  have between := chunk_mono some' positive (show i + 1 ≤ j by omega)
  have from' : j * (n / nProc) ≤ index := there.1
  omega

theorem inChunk_exists {index : Int} (first : 0 ≤ index) (last : index < n) :
    ∃ i, (0 ≤ i ∧ i < nProc) ∧ InChunk nProc n i index := by
  by_cases early : index < (nProc - 1) * (n / nProc)
  · have share : 0 < n / nProc := by
      refine lt_of_le_of_ne (Int.ediv_nonneg positive (by omega)) ?_
      intro none
      rw [← none, Int.mul_zero] at early
      omega
    have before : index / (n / nProc) < nProc - 1 := Int.ediv_lt_of_lt_mul share early
    have notNegative : 0 ≤ index / (n / nProc) := Int.ediv_nonneg first (le_of_lt share)
    refine ⟨index / (n / nProc), ⟨notNegative, by omega⟩, (inChunk_spawned before).mpr ?_⟩
    exact ⟨Int.ediv_mul_le index (ne_of_gt share), Int.lt_ediv_add_one_mul_self index share⟩
  · exact ⟨nProc - 1, ⟨by omega, by omega⟩, inChunk_last.mpr ⟨by omega, last⟩⟩

/-- Every index below `n` is in the share of exactly one thread. -/
theorem chunk_partition (index : Int) :
    (0 ≤ index ∧ index < n) ↔ ∃! i, (0 ≤ i ∧ i < nProc) ∧ InChunk nProc n i index := by
  constructor
  · rintro ⟨first, last⟩
    obtain ⟨i, range, inside⟩ := inChunk_exists some' positive first last
    refine ⟨i, ⟨range, inside⟩, ?_⟩
    rintro j ⟨range', inside'⟩
    rcases lt_trichotomy i j with before | same | after
    · exact absurd inside' (inChunk_apart some' positive before range'.2 inside)
    · exact same.symm
    · exact absurd inside (inChunk_apart some' positive after range.2 inside')
  · rintro ⟨i, ⟨range, inside⟩, _⟩
    exact inChunk_bounds some' positive range.1 range.2 inside
end Chunks

/-- One result for every schedule: the records of `l..r` in some order, and the
rest of the array as it was. -/
def Conserves (prog : Code) (l r : Int) (mem : Mem Cell Elem) : Prop :=
  ∃ result, Ensures prog mem (· = result) ∧
    (records l r result).Perm (records l r mem) ∧
    ∀ index, index < l ∨ r < index → result (.arr, index) = mem (.arr, index)

theorem conserves_mergeSortParallel (compare : Elem → Elem → Int) (nProc : Int)
    (some' : 1 ≤ nProc) (l r : Int) (mem : Mem Cell Elem) :
    Conserves (mergeSortParallel compare nProc l r) l r mem := by
  have safe : Safe (owned l r) (owned l r) (mergeSortParallel compare nProc l r) :=
    safe_mergeSortThreaded compare nProc some' l r .ret trivial
  refine ⟨run (mergeSortParallel compare nProc l r) mem, (ensures_iff safe mem _).mpr rfl, ?_, ?_⟩
  · rw [run_mergeSortParallel compare nProc some']
    exact sortList_perm compare _
  · intro index outside
    apply run_frame safe
    simp only [owned, Set.mem_ofPred_eq]
    omega

theorem parallel_sort_loses_and_duplicates_nothing (compare : Elem → Elem → Int) (nProc : Int)
    (some' : 1 ≤ nProc) :
    (∀ (l r : Int) (mem : Mem Cell Elem), l ≤ r →
      Conserves (mergeSortParallel compare nProc l r) l r mem) ∧
    (∀ args : MergeArgs, Writes args.slots (args.call compare .ret) ∧
      (∀ mem result, Finishes (args.call compare .ret) mem result →
        ∀ cell, cell ∉ args.slots → result cell = mem cell) ∧
      (minThreadElem < args.r1 - args.l1 + 1 →
        args.Divides compare .ret (args.call compare .ret))) ∧
    ∀ (dst src : Cell) (n : Int), 0 ≤ n → copyArrParallel nProc dst src n .ret =
        forkAll ((List.range (nProc - 1).toNat).map fun k : Nat => copyChunk nProc n dst src k)
          (copyChunk nProc n dst src (nProc - 1)) ∧
      ∀ index, (0 ≤ index ∧ index < n) ↔ ∃! i, (0 ≤ i ∧ i < nProc) ∧ InChunk nProc n i index := by
  refine ⟨?_, ?_, ?_⟩
  · intro l r mem _
    exact conserves_mergeSortParallel compare nProc some' l r mem
  · intro args
    have filled := args.writes_call compare .ret rfl
    rw [Multiset.add_zero] at filled
    exact ⟨filled, fun _ _ => writes_frame filled, args.divides_call compare .ret⟩
  · intro dst src n positive
    exact ⟨copyArrParallel_chunks nProc n some' dst src, chunk_partition some' positive⟩

/-- Four processors and the comparison of the source. -/
theorem four_processors_lose_nothing :
    Conserves (mergeSortParallel compareElem 4 0 99) 0 99 risingRecords :=
  (parallel_sort_loses_and_duplicates_nothing compareElem 4 (by decide)).1 0 99 risingRecords
    (by decide)

end OsProjects.SortConservation
