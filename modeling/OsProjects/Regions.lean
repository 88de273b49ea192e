import Mathlib.Data.Set.Card
import Mathlib.Order.CompletePartialOrder
import Mathlib.Order.Interval.Set.Basic
import Mathlib.Order.Interval.Set.Nat

/-!
Regions of an address space that tile a larger one: no two share an address
and together they have every address. Regions that follow each other without a
gap tile, and the sizes of a tiling add up.
-/

namespace OsProjects.Regions

structure Region where
  start : Nat
  size : Nat

namespace Region

def stop (region : Region) : Nat := region.start + region.size

def cells (region : Region) : Set Nat := Set.Ico region.start region.stop

theorem mem_cells {region : Region} {addr : Nat} :
    addr ∈ region.cells ↔ region.start ≤ addr ∧ addr < region.start + region.size := Iff.rfl

theorem cells_subset {inner outer : Region} (low : outer.start ≤ inner.start)
    (high : inner.stop ≤ outer.stop) : inner.cells ⊆ outer.cells :=
  Set.Ico_subset_Ico low high

theorem cells_disjoint {first second : Region} (order : first.stop ≤ second.start) :
    Disjoint first.cells second.cells :=
  Set.disjoint_left.mpr fun _ inFirst inSecond =>
    absurd (lt_of_lt_of_le inFirst.2 (le_trans order inSecond.1)) (lt_irrefl _)

theorem cells_ncard (region : Region) : region.cells.ncard = region.size := by
  rw [cells, stop, Set.ncard_eq_toFinset_card', Set.toFinset_Ico, Nat.card_Ico,
    Nat.add_sub_cancel_left]

theorem cells_finite (region : Region) : region.cells.Finite := Set.finite_Ico _ _

end Region

structure Tile (regions : List Region) (whole : Region) : Prop where
  disjoint : regions.Pairwise fun first second => Disjoint first.cells second.cells
  covers : ∀ addr, addr ∈ whole.cells ↔ ∃ region ∈ regions, addr ∈ region.cells

def Consecutive : List Region → Nat → Nat → Prop
  | [], start, stop => start = stop
  | region :: rest, start, stop => region.start = start ∧ Consecutive rest region.stop stop

section
variable {regions : List Region} {start stop : Nat} (row : Consecutive regions start stop)
include row

theorem Consecutive.le : start ≤ stop := by
  induction regions generalizing start with
  | nil => exact le_of_eq row
  | cons region rest ih =>
    have := ih row.2
    have := row.1
    simp only [Region.stop] at *
    omega

theorem Consecutive.start_le {region : Region} (member : region ∈ regions) :
    start ≤ region.start := by
  induction regions generalizing start with
  | nil => cases member
  | cons first rest ih =>
    have begins := row.1
    rcases List.mem_cons.mp member with rfl | later
    · exact le_of_eq begins.symm
    · have := ih row.2 later
      simp only [Region.stop] at this
      omega

theorem Consecutive.covers (addr : Nat) :
    start ≤ addr ∧ addr < stop ↔ ∃ region ∈ regions, addr ∈ region.cells := by
  induction regions generalizing start with
  | nil =>
    have empty : start = stop := row
    simp only [List.not_mem_nil, false_and, exists_false, iff_false]
    omega
  | cons first rest ih =>
    have begins := row.1
    have ends := row.2.le
    have later := ih row.2
    rw [List.exists_mem_cons_iff, ← later, Region.mem_cells]
    simp only [Region.stop] at *
    omega
end

theorem Consecutive.tile {regions : List Region} {start size : Nat}
    (row : Consecutive regions start (start + size)) : Tile regions ⟨start, size⟩ where
  disjoint := by
    generalize start + size = stop at row
    induction regions generalizing start with
    | nil => exact List.Pairwise.nil
    | cons first rest ih =>
      exact List.pairwise_cons.mpr
        ⟨fun _ later => Region.cells_disjoint (row.2.start_le later), ih row.2⟩
  covers addr := row.covers addr

theorem ncard_union (regions : List Region)
    (disjoint : regions.Pairwise fun first second => Disjoint first.cells second.cells) :
    {addr | ∃ region ∈ regions, addr ∈ region.cells}.ncard = (regions.map Region.size).sum ∧
      {addr | ∃ region ∈ regions, addr ∈ region.cells}.Finite := by
  induction regions with
  | nil => simp
  | cons first rest ih =>
    obtain ⟨apart, later⟩ := List.pairwise_cons.mp disjoint
    obtain ⟨count, finite⟩ := ih later
    have split : {addr | ∃ region ∈ first :: rest, addr ∈ region.cells} =
        first.cells ∪ {addr | ∃ region ∈ rest, addr ∈ region.cells} := by
      ext addr
      simp
    have separate : Disjoint first.cells {addr | ∃ region ∈ rest, addr ∈ region.cells} := by
      rw [Set.disjoint_left]
      rintro addr here ⟨region, member, there⟩
      exact Set.disjoint_left.mp (apart region member) here there
    rw [split, List.map_cons, List.sum_cons]
    refine ⟨?_, first.cells_finite.union finite⟩
    rw [Set.ncard_union_eq separate first.cells_finite finite, first.cells_ncard, count]

theorem Tile.sum_sizes {regions : List Region} {whole : Region} (tile : Tile regions whole) :
    (regions.map Region.size).sum = whole.size := by
  have same : whole.cells = {addr | ∃ region ∈ regions, addr ∈ region.cells} :=
    Set.ext tile.covers
  rw [← (ncard_union regions tile.disjoint).1, ← same, whole.cells_ncard]

theorem Tile.subset {regions : List Region} {whole : Region} (tile : Tile regions whole)
    {region : Region} (member : region ∈ regions) : region.cells ⊆ whole.cells :=
  fun addr inside => (tile.covers addr).mpr ⟨region, member, inside⟩

end OsProjects.Regions
