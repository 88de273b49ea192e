import OsProjects.Regions
import OsProjects.FileContents

/-!
The layout of an image: where `mkfs` puts the regions and where the server
looks for a bitmap word, an inode slot or a data block. The regions tile the
image and everything the server addresses lies in its own region exactly when
the sizes, added up without wrap-around, stay below 2^31 bytes.
-/

namespace OsProjects.ImageRegions

open ByteStore UfsLayout FileServer Volume VolumeRefinement MkfsImage Regions ServerRuns
  FileContents

section Places
variable (super : Super)

def blocks (addr len : UInt32) : Region := ⟨4096 * addr.toNat, 4096 * len.toNat⟩

def superBlock : Region := ⟨0, 4096⟩

def inodeBitmap : Region := blocks super.inodeBitmapAddr super.inodeBitmapLen

def dataBitmap : Region := blocks super.dataBitmapAddr super.dataBitmapLen

def inodeTable : Region := blocks super.inodeRegionAddr super.inodeRegionLen

def dataRegion : Region := blocks super.dataRegionAddr super.dataRegionLen

def regions : List Region :=
  [superBlock, inodeBitmap super, dataBitmap super, inodeTable super, dataRegion super]

def bitmapWord (start n : UInt32) : Region := ⟨(bmaddr start n).toNat, 4⟩

def inodeSlot (inum : UInt32) : Region :=
  ⟨(super.inodeRegionAddr * 4096 + inum * 128).toNat, 128⟩

def dataBlock (k : UInt32) : Region := ⟨((super.dataRegionAddr + k) * 4096).toNat, 4096⟩

structure CollisionFree (image : Image) : Prop where
  tile : Tile (regions super) ⟨0, image.length⟩
  inodeWord : ∀ n < super.numInodes,
    (bitmapWord super.inodeBitmapAddr n).cells ⊆ (inodeBitmap super).cells
  dataWord : ∀ k < super.numData,
    (bitmapWord super.dataBitmapAddr k).cells ⊆ (dataBitmap super).cells
  slot : ∀ inum < super.numInodes, (inodeSlot super inum).cells ⊆ (inodeTable super).cells
  block : ∀ k < super.numData, (dataBlock super k).cells ⊆ (dataRegion super).cells
  inodeBits : ∀ n < super.numInodes, ∀ m < super.numInodes,
    bmaddr super.inodeBitmapAddr n = bmaddr super.inodeBitmapAddr m → mask n = mask m → n = m
  dataBits : ∀ k < super.numData, ∀ m < super.numData,
    bmaddr super.dataBitmapAddr k = bmaddr super.dataBitmapAddr m → mask k = mask m → k = m
  slots : ∀ n < super.numInodes, ∀ m < super.numInodes, n ≠ m →
    Disjoint (inodeSlot super n).cells (inodeSlot super m).cells
  firstInode : wordAt image.bytes (bmaddr super.inodeBitmapAddr 0).toNat = mask 0
  firstBlock : wordAt image.bytes (bmaddr super.dataBitmapAddr 0).toNat = mask 0

theorem inodeSlot_size (inum : UInt32) : (inodeSlot super inum).size = 128 := rfl

theorem dataBlock_size (k : UInt32) : (dataBlock super k).size = 4096 := rfl

end Places

theorem inodeAddr_slot (s : Serv) (inum : UInt32) :
    (inodeAddr s inum).toNat = (inodeSlot s.super inum).start := rfl

section Addresses
variable (g : Geometry)

theorem bmaddr_toNat {start n : UInt32} {base : Nat} (place : start.toNat = base)
    (small : 4096 * base + 4 * (n.toNat / 32) < 4294967296) :
    (bmaddr start n).toNat = 4096 * base + 4 * (n.toNat / 32) := by
  simp only [bmaddr, UInt32.toNat_add, UInt32.toNat_mul, UInt32.toNat_div, UInt32.toNat_ofNat,
    Nat.reducePow, Nat.reduceMod, place]
  omega

theorem mask_injective {n m : UInt32} (same : mask n = mask m) : n.toNat % 32 = m.toNat % 32 := by
  have powers := congrArg UInt32.toNat same
  rw [toNat_mask, toNat_mask] at powers
  have := Nat.pow_right_injective (le_refl 2) powers
  omega

theorem bit_injective {start n m : UInt32} {base : Nat} (place : start.toNat = base)
    (smallN : 4096 * base + 4 * (n.toNat / 32) < 4294967296)
    (smallM : 4096 * base + 4 * (m.toNat / 32) < 4294967296)
    (words : bmaddr start n = bmaddr start m) (masks : mask n = mask m) : n = m := by
  have addresses := congrArg UInt32.toNat words
  rw [bmaddr_toNat place smallN, bmaddr_toNat place smallM] at addresses
  have offsets := mask_injective masks
  apply UInt32.toNat_inj.mp
  omega

theorem super_numbers : g.super.numInodes.toNat = g.numInodes ∧
    g.super.numData.toNat = g.numData ∧ g.super.dataRegionLen.toNat = g.numData := by
  have layout := g.layout
  refine ⟨toNat_ofNat_lt (by omega), toNat_ofNat_lt (by omega), toNat_ofNat_lt (by omega)⟩

theorem super_addresses : g.super.inodeBitmapAddr.toNat = 1 ∧
    g.super.dataBitmapAddr.toNat = g.dataBitmapAddr ∧
    g.super.inodeRegionAddr.toNat = g.inodeRegionAddr ∧
    g.super.dataRegionAddr.toNat = g.dataRegionAddr := by
  have layout := g.layout
  refine ⟨rfl, toNat_ofNat_lt (by omega), toNat_ofNat_lt (by omega), toNat_ofNat_lt (by omega)⟩

theorem super_lengths : g.super.inodeBitmapLen.toNat = g.inodeBitmapLen ∧
    g.super.dataBitmapLen.toNat = g.dataBitmapLen ∧
    g.super.inodeRegionLen.toNat = g.inodeRegionLen := by
  have layout := g.layout
  refine ⟨toNat_ofNat_lt (by omega), toNat_ofNat_lt (by omega), toNat_ofNat_lt (by omega)⟩

theorem regions_consecutive : Consecutive (regions g.super) 0 (4096 * g.totalBlocks) := by
  obtain ⟨_, _, len3⟩ := super_numbers g
  obtain ⟨addr1, addr2, addr3, addr4⟩ := super_addresses g
  obtain ⟨len1, len2, len4⟩ := super_lengths g
  have layout := g.layout
  simp only [regions, Consecutive, superBlock, inodeBitmap, dataBitmap, inodeTable, dataRegion,
    blocks, Region.stop, addr1, addr2, addr3, addr4, len1, len2, len3, len4, true_and]
  omega

theorem inodeSlot_start {inum : UInt32} (inside : inum.toNat < g.numInodes) :
    (inodeSlot g.super inum).start = 4096 * g.inodeRegionAddr + 128 * inum.toNat := by
  obtain ⟨_, _, addr, _⟩ := super_addresses g
  have layout := g.layout
  simp only [inodeSlot, UInt32.toNat_add, UInt32.toNat_mul, UInt32.toNat_ofNat, addr]
  omega

theorem inodeSlots_disjoint {n m : UInt32} (inside : n.toNat < g.numInodes)
    (inside' : m.toNat < g.numInodes) (before : n.toNat < m.toNat) :
    Disjoint (inodeSlot g.super n).cells (inodeSlot g.super m).cells := by
  apply Region.cells_disjoint
  rw [Region.stop, inodeSlot_start g inside, inodeSlot_start g inside', inodeSlot_size]
  omega

theorem dataBlock_start {k : UInt32} (inside : k.toNat < g.numData) :
    (dataBlock g.super k).start = 4096 * (g.dataRegionAddr + k.toNat) := by
  obtain ⟨_, _, _, addr⟩ := super_addresses g
  have layout := g.layout
  simp only [dataBlock, UInt32.toNat_add, UInt32.toNat_mul, UInt32.toNat_ofNat, addr]
  omega

theorem subset_blocks {region : Region} {addr len : UInt32} {start base count : Nat}
    (starts : region.start = start) (place : addr.toNat = base) (length : len.toNat = count)
    (low : 4096 * base ≤ start) (high : start + region.size ≤ 4096 * base + 4096 * count) :
    region.cells ⊆ (blocks addr len).cells := by
  subst starts place length
  exact Region.cells_subset low high

/-- A bitmap word lies in the bitmap when the bitmap has a bit for each number. -/
theorem bitmapWord_subset {addr len n : UInt32} (bits : n.toNat < 32768 * len.toNat)
    (small : 4096 * addr.toNat + 4096 * len.toNat ≤ 2147483648) :
    (bitmapWord addr n).cells ⊆ (blocks addr len).cells := by
  exact subset_blocks (bmaddr_toNat rfl (by omega)) rfl rfl (by omega)
    (by simp only [bitmapWord]; omega)

theorem wordAt_first {bytes : Bytes} {base : Nat}
    (first : ∀ index < 4096, bytes (base + index) = firstAllocated index) :
    wordAt bytes base = mask 0 := by
  calc wordAt bytes base = wordAt firstAllocated 0 :=
        wordAt_congr _ _ _ _ fun index small => by rw [first index (by omega), Nat.zero_add]
    _ = 2147483648 := wordAt_putWord_same _ _ _
    _ = mask 0 := rfl

theorem geometry_collision_free {junk : Junk} {image : Image}
    (made : mkfs g.numInodes g.numData junk = some image) : CollisionFree g.super image := by
  obtain ⟨numInodes, numData, len4⟩ := super_numbers g
  obtain ⟨addr1, addr2, addr3, addr4⟩ := super_addresses g
  obtain ⟨len1, len2, len3⟩ := super_lengths g
  have layout := g.layout
  obtain ⟨blank, fresh, formatted⟩ := mkfs_eq g junk
  obtain rfl : format g junk blank = image := Option.some.inj (formatted.symm.trans made)
  have inodes : ∀ {n : UInt32}, n < g.super.numInodes → n.toNat < g.numInodes :=
    fun less => numInodes ▸ UInt32.lt_iff_toNat_lt.mp less
  have data : ∀ {k : UInt32}, k < g.super.numData → k.toNat < g.numData :=
    fun less => numData ▸ UInt32.lt_iff_toNat_lt.mp less
  constructor
  case tile =>
    rw [format_length g junk blank fresh]
    apply Consecutive.tile
    simpa using regions_consecutive g
  case inodeWord =>
    intro n less
    exact bitmapWord_subset (by have := inodes less; omega) (by omega)
  case dataWord =>
    intro k less
    exact bitmapWord_subset (by have := data less; omega) (by omega)
  case slot =>
    intro inum less
    have := inodes less
    exact subset_blocks (inodeSlot_start g this) addr3 len3 (by omega)
      (by rw [inodeSlot_size]; omega)
  case block =>
    intro k less
    have := data less
    exact subset_blocks (dataBlock_start g this) addr4 len4 (by omega)
      (by rw [dataBlock_size]; omega)
  case inodeBits =>
    intro n less m less' words masks
    have := inodes less
    have := inodes less'
    exact bit_injective addr1 (by omega) (by omega) words masks
  case dataBits =>
    intro k less m less' words masks
    have := data less
    have := data less'
    exact bit_injective addr2 (by omega) (by omega) words masks
  case slots =>
    intro n less m less' differ
    have distinct : n.toNat ≠ m.toNat := fun same => differ (UInt32.toNat_inj.mp same)
    rcases lt_or_gt_of_ne distinct with before | after
    · exact inodeSlots_disjoint g (inodes less) (inodes less') before
    · exact (inodeSlots_disjoint g (inodes less') (inodes less) after).symm
  case firstInode =>
    rw [bmaddr_toNat addr1 (by simp), UInt32.toNat_zero, Nat.zero_div, Nat.mul_zero, Nat.add_zero]
    exact wordAt_first (format_inodeBitmap g junk blank)
  case firstBlock =>
    rw [bmaddr_toNat addr2 (by simp; omega), UInt32.toNat_zero, Nat.zero_div, Nat.mul_zero,
      Nat.add_zero]
    exact wordAt_first (format_dataBitmap g junk blank)

end Addresses

def exactBytes (numInodes numData : Int) : Int :=
  4096 * (1 + (numInodes + 32767) / 32768 + (numData + 32767) / 32768 +
    (128 * numInodes + 4095) / 4096 + numData)

theorem toNat_wrap {value : Int} (low : 0 ≤ value) (high : value < 4294967296) :
    ((wrap value).toNat : Int) = value := by
  obtain ⟨n, rfl⟩ := Int.eq_ofNat_of_zero_le low
  rw [wrap_natCast n (by omega), toNat_ofNat_lt (by omega)]

/-- The table has a slot for each inode: the first inode without one would have
its slot right behind the table. -/
theorem CollisionFree.slots_fit {super : Super} {image : Image} (free : CollisionFree super image)
    (short : 4096 * super.inodeRegionLen.toNat ≤ image.length) (small : image.length < 2147483648) :
    super.numInodes.toNat ≤ 32 * super.inodeRegionLen.toNat := by
  by_contra more
  have number : (UInt32.ofNat (32 * super.inodeRegionLen.toNat)).toNat =
      32 * super.inodeRegionLen.toNat := toNat_ofNat_lt (by omega)
  generalize UInt32.ofNat (32 * super.inodeRegionLen.toNat) = inum at number
  have first : (inodeSlot super inum).start ∈ (inodeSlot super inum).cells :=
    Region.mem_cells.mpr ⟨le_refl _, by rw [inodeSlot_size]; omega⟩
  have inside := free.slot inum (UInt32.lt_iff_toNat_lt.mpr (by omega)) first
  have bounded := free.tile.subset (by simp [regions]) inside
  simp only [Region.mem_cells, inodeTable, blocks, inodeSlot, UInt32.toNat_add, UInt32.toNat_mul,
    UInt32.toNat_ofNat, Nat.reducePow, Nat.reduceMod, number] at inside bounded
  omega

/-- Sizes that tile an image are exact, and the inode table has every slot. -/
theorem CollisionFree.exact {numInodes numData : Int} {image : Image}
    (enoughInodes : 32 ≤ numInodes) (enoughData : 32 ≤ numData)
    (intInodes : numInodes < 2147483648) (intData : numData < 2147483648)
    (small : image.length < 2147483648) (free : CollisionFree (mkfsSuper numInodes numData) image) :
    exactBytes numInodes numData ≤ image.length := by
  have inodeBits : ((mkfsSuper numInodes numData).inodeBitmapLen.toNat : Int) =
      (numInodes + 32767) / 32768 := by
    have whole : inodeBitmapLen numInodes = (numInodes + 32767) / 32768 := by
      simp only [inodeBitmapLen]
      split <;> omega
    exact (toNat_wrap (by omega) (by omega)).trans whole
  have dataBits : ((mkfsSuper numInodes numData).dataBitmapLen.toNat : Int) =
      (numData + 32767) / 32768 := by
    have whole : dataBitmapLen numData = (numData + 32767) / 32768 := by
      simp only [dataBitmapLen]
      split <;> omega
    exact (toNat_wrap (by omega) (by omega)).trans whole
  have inodes : ((mkfsSuper numInodes numData).numInodes.toNat : Int) = numInodes :=
    toNat_wrap (by omega) (by omega)
  have data : ((mkfsSuper numInodes numData).dataRegionLen.toNat : Int) = numData :=
    toNat_wrap (by omega) (by omega)
  have sum := free.tile.sum_sizes
  simp only [regions, List.map_cons, List.map_nil, List.sum_cons, List.sum_nil, superBlock,
    inodeBitmap, dataBitmap, inodeTable, dataRegion, blocks] at sum
  generalize mkfsSuper numInodes numData = super at *
  have slots := free.slots_fit (by omega) small
  simp only [exactBytes]
  omega

theorem layout_is_collision_free_iff (numInodes numData : Int) (enoughInodes : 32 ≤ numInodes)
    (enoughData : 32 ≤ numData) (intInodes : numInodes < 2147483648)
    (intData : numData < 2147483648) (junk : Junk) (image : Image)
    (made : mkfs numInodes numData junk = some image) (small : image.length < 2147483648) :
    CollisionFree (mkfsSuper numInodes numData) image ↔
      exactBytes numInodes numData < 2147483648 := by
  constructor
  · intro free
    have := free.exact enoughInodes enoughData intInodes intData small
    omega
  · intro fits
    obtain ⟨n, rfl⟩ := Int.eq_ofNat_of_zero_le (show 0 ≤ numInodes by omega)
    obtain ⟨m, rfl⟩ := Int.eq_ofNat_of_zero_le (show 0 ≤ numData by omega)
    let g : Geometry := ⟨n, m, by omega, by omega, by simp only [exactBytes] at fits; omega⟩
    have same : mkfsSuper n m = g.super := mkfsSuper_eq g
    rw [same]
    exact geometry_collision_free g made

/-- The smallest image: 32 inodes and 32 data blocks in 36 blocks. -/
theorem smallest_image_is_collision_free : ∃ image, mkfs 32 32 noJunk = some image ∧
    image.length < 2147483648 ∧ CollisionFree (mkfsSuper 32 32) image := by
  obtain ⟨image, made, shown, _⟩ := mkfs_initial smallest noJunk
  have small : image.length < 2147483648 := by
    rw [shown.length]
    decide
  exact ⟨image, made, small, (layout_is_collision_free_iff 32 32 (by decide) (by decide)
    (by decide) (by decide) noJunk image made small).mpr (by decide)⟩

/-- An image of 4 MB whose data blocks start on the data bitmap. -/
theorem wrapped_layout_collides : ∃ image, mkfs 33554400 32 noJunk = some image ∧
    image.length < 2147483648 ∧
    ¬ Disjoint (dataBitmap (mkfsSuper 33554400 32)).cells
      (dataRegion (mkfsSuper 33554400 32)).cells ∧
    ¬ CollisionFree (mkfsSuper 33554400 32) image := by
  obtain ⟨image, made, length, _⟩ := mkfs_wrapped
  have overlap : ¬ Disjoint (dataBitmap (mkfsSuper 33554400 32)).cells
      (dataRegion (mkfsSuper 33554400 32)).cells := by
    rw [mkfsSuper_wrapped]
    exact Set.not_disjoint_iff.mpr
      ⟨4198400, Region.mem_cells.mpr (by decide), Region.mem_cells.mpr (by decide)⟩
  refine ⟨image, made, by omega, overlap, fun free => overlap ?_⟩
  have apart := free.tile.disjoint
  simp only [regions, List.pairwise_cons, List.mem_cons, List.not_mem_nil, or_false] at apart
  exact apart.2.2.1 _ (Or.inr rfl)

end OsProjects.ImageRegions
