import OsProjects.VolumeRefinement

/-!
The image `mkfs` writes, for every geometry: it succeeds, and the image shows a
sound volume with the root directory as the only inode, its block as the only
data block, and nothing but zeros in the other data blocks.
-/

namespace OsProjects.MkfsImage

open ByteStore UfsLayout FileServer Volume VolumeSound VolumeRefinement

section Arithmetic
variable (g : Geometry)

theorem int_small {value : Int} (low : -2147483648 ≤ value) (high : value < 2147483648) :
    int value = value := signed_wrap value low high

theorem inodeBitmapLen_eq : inodeBitmapLen g.numInodes = g.inodeBitmapLen := by
  simp only [UfsLayout.inodeBitmapLen, Geometry.inodeBitmapLen]
  split <;> omega

theorem dataBitmapLen_eq : dataBitmapLen g.numData = g.dataBitmapLen := by
  simp only [UfsLayout.dataBitmapLen, Geometry.dataBitmapLen]
  split <;> omega

theorem inodeRegionLen_eq : inodeRegionLen g.numInodes = g.inodeRegionLen := by
  have layout := g.layout
  have bytes : totalInodeBytes g.numInodes = 128 * g.numInodes := by
    rw [totalInodeBytes, int_small (by omega) (by omega)]
    omega
  have positive : (0 : Int) ≤ 128 * g.numInodes := by omega
  simp only [UfsLayout.inodeRegionLen, bytes, Int.tdiv_eq_ediv_of_nonneg positive,
    Int.tmod_eq_emod_of_nonneg positive, Geometry.inodeRegionLen]
  split <;> omega

theorem dataBitmapAddr_eq : dataBitmapAddr g.numInodes = g.dataBitmapAddr := by
  have layout := g.layout
  rw [UfsLayout.dataBitmapAddr, inodeBitmapLen_eq, int_small (by omega) (by omega)]
  omega

theorem inodeRegionAddr_eq : inodeRegionAddr g.numInodes g.numData = g.inodeRegionAddr := by
  have layout := g.layout
  rw [UfsLayout.inodeRegionAddr, dataBitmapAddr_eq, dataBitmapLen_eq,
    int_small (by omega) (by omega)]
  omega

theorem dataRegionAddr_eq : dataRegionAddr g.numInodes g.numData = g.dataRegionAddr := by
  have layout := g.layout
  rw [UfsLayout.dataRegionAddr, inodeRegionAddr_eq, inodeRegionLen_eq,
    int_small (by omega) (by omega)]
  omega

theorem totalBlocks_eq : totalBlocks g.numInodes g.numData = g.totalBlocks := by
  have layout := g.layout
  rw [UfsLayout.totalBlocks, inodeBitmapLen_eq, dataBitmapLen_eq, inodeRegionLen_eq,
    int_small (by omega) (by omega)]
  omega

theorem wrap_natCast (value : Nat) (small : value < 4294967296) :
    wrap (value : Int) = UInt32.ofNat value := by
  apply UInt32.toNat_inj.mp
  rw [toNat_wrap_natCast _ small, toNat_ofNat_lt small]

theorem mkfsSuper_eq : mkfsSuper g.numInodes g.numData = g.super := by
  have layout := g.layout
  simp only [mkfsSuper, Geometry.super, inodeBitmapLen_eq, dataBitmapLen_eq, inodeRegionLen_eq,
    dataBitmapAddr_eq, inodeRegionAddr_eq, dataRegionAddr_eq]
  rw [wrap_natCast _ (by omega), wrap_natCast _ (by omega), wrap_natCast _ (by omega),
    wrap_natCast _ (by omega), wrap_natCast _ (by omega), wrap_natCast _ (by omega),
    wrap_natCast _ (by omega), wrap_natCast _ (by omega)]
end Arithmetic

theorem pwrite_nat (image : Image) (source : Bytes) (count offset : Nat) :
    pwrite image source count (offset : Int) = some (image.put offset count source) := by
  have positive : ¬ (offset : Int) < 0 := by omega
  simp [pwrite, positive]

/-- The zeroing loop clears its blocks, keeps the rest and ends the file behind
the last of them. -/
theorem zeroOut_spec (left index : Nat) (image : Image) (inside : index + left ≤ 524288)
    (upTo : image.length ≤ 4096 * index) :
    ∃ image', zeroOut left (index : Int) image = some image' ∧
      (left ≠ 0 → image'.length = 4096 * (index + left)) ∧
      ∀ k, image'.bytes k =
        if 4096 * index ≤ k ∧ k < 4096 * (index + left) then 0 else image.bytes k := by
  induction left generalizing index image with
  | zero =>
    refine ⟨image, rfl, fun none => absurd rfl none, fun k => ?_⟩
    have empty : ¬ (4096 * index ≤ k ∧ k < 4096 * (index + 0)) := by omega
    rw [if_neg empty]
  | succ left ih =>
    have addr : int ((index : Int) * 4096) = ((4096 * index : Nat) : Int) := by
      rw [int_small (by omega) (by omega)]
      omega
    have length : (image.put (4096 * index) 4096 fun _ => 0).length = 4096 * (index + 1) := by
      simp only [Image.put]
      split <;> omega
    obtain ⟨image', rest, size, bytes⟩ := ih (index + 1)
      (image.put (4096 * index) 4096 fun _ => 0) (by omega) (by omega)
    refine ⟨image', ?_, fun _ => ?_, fun k => ?_⟩
    · rw [zeroOut, addr, pwrite_nat, Option.bind_some]
      exact rest
    · cases left with
      | zero =>
        simp only [zeroOut, Option.some.injEq] at rest
        rw [← rest, length]
      | succ left =>
        rw [size (Nat.succ_ne_zero left)]
        omega
    · rw [bytes k, Image.put_bytes]
      by_cases here : 4096 * index ≤ k ∧ k < 4096 * index + 4096
      · rw [overwrite_inside here.1 here.2]
        have all : 4096 * index ≤ k ∧ k < 4096 * (index + (left + 1)) := by omega
        simp [all]
      · rw [overwrite_outside (by omega)]
        by_cases later : 4096 * (index + 1) ≤ k ∧ k < 4096 * (index + 1 + left)
        · have all : 4096 * index ≤ k ∧ k < 4096 * (index + (left + 1)) := by omega
          simp [later, all]
        · have none : ¬ (4096 * index ≤ k ∧ k < 4096 * (index + (left + 1))) := by omega
          simp [later, none]

def Blank (g : Geometry) (image : Image) : Prop :=
  image.length = 4096 * g.totalBlocks ∧
    ∀ k, image.bytes k = if k < 40 then g.super.encode k else 0

/-- The block with the root inode; the other 31 inodes in it are stack memory. -/
def rootTable (g : Geometry) (junk : Junk) : Bytes :=
  overwrite (junk.call 0).here 0 128 (rootInode g.numInodes g.numData).encode

def rootDir (junk : Junk) : Bytes := freshDir (junk.call 1).here 0 0

def format (g : Geometry) (junk : Junk) (blank : Image) : Image :=
  (((blank.put 4096 4096 firstAllocated).put (4096 * g.dataBitmapAddr) 4096 firstAllocated).put
    (4096 * g.inodeRegionAddr) 4096 (rootTable g junk)).put (4096 * g.dataRegionAddr) 4096
      (rootDir junk)

theorem mkfs_eq (g : Geometry) (junk : Junk) :
    ∃ blank, Blank g blank ∧ mkfs g.numInodes g.numData junk = some (format g junk blank) := by
  have layout := g.layout
  have enough : ¬ ((g.numInodes : Int) < 32 ∨ (g.numData : Int) < 32) := by omega
  have length : (Image.empty.put 0 40 g.super.encode).length = 40 := by
    simp [Image.put, Image.empty]
  obtain ⟨blank, zeroed, size, bytes⟩ := zeroOut_spec (g.totalBlocks - 1) 1
    (Image.empty.put 0 40 g.super.encode) (by omega) (by omega)
  refine ⟨blank, ⟨?_, ?_⟩, ?_⟩
  · rw [size (by omega)]
    omega
  · intro k
    rw [bytes k, Image.put_bytes]
    by_cases first : k < 40
    · have before : ¬ (4096 * 1 ≤ k ∧ k < 4096 * (1 + (g.totalBlocks - 1))) := by omega
      rw [if_neg before, overwrite_inside (by omega) (by omega), if_pos first]
      rfl
    · rw [if_neg first, overwrite_outside (by omega)]
      simp [Image.empty]
  · have count : ((g.totalBlocks : Int) - 1).toNat = g.totalBlocks - 1 := by
      clear layout
      omega
    have addr : ∀ block : Nat, block < 524288 → int ((block : Int) * 4096) =
        ((4096 * block : Nat) : Int) := by
      intro block small
      rw [int_small (by omega) (by omega)]
      omega
    simp only [mkfs, enough, ↓reduceIte, mkfsSuper_eq, totalBlocks_eq, dataBitmapAddr_eq,
      inodeRegionAddr_eq, dataRegionAddr_eq, count]
    rw [show (0 : Int) = ((0 : Nat) : Int) from rfl, show (1 : Int) = ((1 : Nat) : Int) from rfl,
      pwrite_nat, Option.bind_eq_bind, Option.bind_some, zeroed, Option.bind_some,
      addr 1 (by decide), pwrite_nat, Option.bind_some, addr _ (by omega), pwrite_nat,
      Option.bind_some, addr _ (by omega), pwrite_nat, Option.bind_some, addr _ (by omega),
      pwrite_nat]
    rfl

def volOf (g : Geometry) (image : Image) : Vol where
  boot := image.bytes
  inodeBit n := decide (n < 32768 * g.inodeBitmapLen) && bitAt image.bytes 4096 n
  dataBit n := decide (n < 32768 * g.dataBitmapLen) &&
    bitAt image.bytes (4096 * g.dataBitmapAddr) n
  node n := view (nodeAt image.bytes (4096 * g.inodeRegionAddr + 128 * n))
  block b index := image.bytes (4096 * b + index)
  highestInode := 0
  hghstAllocDblk := 0

theorem volOf_shows {g : Geometry} {image : Image} (length : image.length = 4096 * g.totalBlocks) :
    Shows g image (volOf g image) := by
  refine ⟨length, fun _ _ => rfl, ?_, ?_, fun _ _ => rfl, fun _ _ _ _ _ => rfl⟩
  · intro n bound
    simp [volOf, bound]
  · intro n bound
    simp [volOf, bound]

structure Initial (g : Geometry) (v : Vol) : Prop where
  boot : ∀ index, index < 40 → v.boot index = g.super.encode index
  inodeBit : ∀ n, v.inodeBit n = decide (n = 0)
  dataBit : ∀ k, v.dataBit k = decide (k = 0)
  root : v.node 0 = ⟨ufsDirectory, 64, fun i => if i = 0 then some g.dataRegionAddr else none⟩
  entries : ∃ junk, ∀ index, index < 4096 → v.block g.dataRegionAddr index = freshDir junk 0 0 index
  zero : ∀ b, g.dataRegionAddr < b → b < g.totalBlocks → ∀ index, index < 4096 →
    v.block b index = 0
  highestInode : v.highestInode = 0
  hghstAllocDblk : v.hghstAllocDblk = 0

theorem bitAt_first {bytes : Bytes} {base blocks : Nat}
    (first : ∀ index < 4096, bytes (base + index) = firstAllocated index)
    (rest : ∀ index, 4096 ≤ index → index < 4096 * blocks → bytes (base + index) = 0) (n : Nat)
    (inside : n < 32768 * blocks) : bitAt bytes base n = decide (n = 0) := by
  have word : wordAt bytes (base + 4 * (n / 32)) = if n / 32 = 0 then 2147483648 else 0 := by
    by_cases start : n / 32 = 0
    · rw [if_pos start, start]
      apply wordAt_of_bytes
      intro index small
      rw [Nat.mul_zero, Nat.add_zero, first index (by omega), firstAllocated, putWord,
        overwrite_inside (by omega) (by omega), Nat.sub_zero]
    · rw [if_neg start]
      apply wordAt_of_bytes
      intro index small
      have zero : byteAt 0 index = 0 := by simp [byteAt]
      rw [zero, Nat.add_assoc]
      by_cases near : 4 * (n / 32) + index < 4096
      · rw [first _ near, firstAllocated, putWord_outside (by omega)]
      · exact rest _ (by omega) (by omega)
  rw [bitAt, word]
  by_cases start : n / 32 = 0
  · rw [if_pos start, show (2147483648 : UInt32).toNat = 2 ^ 31 from rfl, Nat.testBit_two_pow,
      decide_eq_decide]
    omega
  · have later : n ≠ 0 := by omega
    simp [start, later]

/-- The same with the bits behind the bitmap, which count as clear. -/
theorem bitmap_first {bytes : Bytes} {base blocks : Nat} (some : 0 < blocks)
    (first : ∀ index < 4096, bytes (base + index) = firstAllocated index)
    (rest : ∀ index, 4096 ≤ index → index < 4096 * blocks → bytes (base + index) = 0) (n : Nat) :
    (decide (n < 32768 * blocks) && bitAt bytes base n) = decide (n = 0) := by
  by_cases inside : n < 32768 * blocks
  · rw [bitAt_first first rest n inside]
    simp [inside]
  · have later : n ≠ 0 := by omega
    simp [inside, later]

section Format
variable (g : Geometry) (junk : Junk) (blank : Image)

section
variable (index : Nat) (inside : index < 4096)
include inside

theorem format_inodeBitmap :
    (format g junk blank).bytes (4096 + index) = firstAllocated index := by
  have layout := g.layout
  simp only [format, Image.put_bytes]
  rw [overwrite_outside (by omega), overwrite_outside (by omega),
    overwrite_outside (by omega), overwrite_inside (by omega) (by omega),
    Nat.add_sub_cancel_left]

theorem format_dataBitmap :
    (format g junk blank).bytes (4096 * g.dataBitmapAddr + index) = firstAllocated index := by
  have layout := g.layout
  simp only [format, Image.put_bytes]
  rw [overwrite_outside (by omega), overwrite_outside (by omega),
    overwrite_inside (by omega) (by omega), Nat.add_sub_cancel_left]

theorem format_table :
    (format g junk blank).bytes (4096 * g.inodeRegionAddr + index) = rootTable g junk index := by
  have layout := g.layout
  simp only [format, Image.put_bytes]
  rw [overwrite_outside (by omega), overwrite_inside (by omega) (by omega), Nat.add_sub_cancel_left]

theorem format_root :
    (format g junk blank).bytes (4096 * g.dataRegionAddr + index) = rootDir junk index := by
  simp only [format, Image.put_bytes]
  rw [overwrite_inside (by omega) (by omega), Nat.add_sub_cancel_left]
end

theorem format_other (index : Nat) (inodeBits : index < 4096 ∨ 8192 ≤ index)
    (dataBits : index < 4096 * g.dataBitmapAddr ∨ 4096 * g.dataBitmapAddr + 4096 ≤ index)
    (table : index < 4096 * g.inodeRegionAddr ∨ 4096 * g.inodeRegionAddr + 4096 ≤ index)
    (root : index < 4096 * g.dataRegionAddr ∨ 4096 * g.dataRegionAddr + 4096 ≤ index) :
    (format g junk blank).bytes index = blank.bytes index := by
  simp only [format, Image.put_bytes]
  rw [overwrite_outside root, overwrite_outside table,
    overwrite_outside dataBits, overwrite_outside (by omega)]

theorem view_rootInode :
    view (rootInode g.numInodes g.numData) =
      ⟨ufsDirectory, 64, fun i => if i = 0 then some g.dataRegionAddr else none⟩ := by
  have layout := g.layout
  have addr : (wrap (dataRegionAddr g.numInodes g.numData)).toNat = g.dataRegionAddr := by
    rw [dataRegionAddr_eq, toNat_wrap_natCast _ (by omega)]
  have real : wrap (dataRegionAddr g.numInodes g.numData) ≠ minusOne := by
    intro same
    rw [same] at addr
    simp only [minusOne, UInt32.reduceToNat] at addr
    omega
  apply Node.ext
  · rfl
  · rfl
  · funext i
    rw [view_direct]
    by_cases first : i = 0
    · simp [first, Inode.ptr, rootInode, real, addr]
    · by_cases inside : i < 30
      · simp [first, Inode.ptr, rootInode, inside]
      · simp [first, Inode.ptr, inside]

theorem format_length (fresh : Blank g blank) :
    (format g junk blank).length = 4096 * g.totalBlocks := by
  have layout := g.layout
  have length := fresh.1
  have length1 := Image.put_length blank 4096 4096 firstAllocated (by omega)
  have length2 := Image.put_length (blank.put 4096 4096 firstAllocated)
    (4096 * g.dataBitmapAddr) 4096 firstAllocated (by omega)
  have length3 := Image.put_length ((blank.put 4096 4096 firstAllocated).put
    (4096 * g.dataBitmapAddr) 4096 firstAllocated) (4096 * g.inodeRegionAddr) 4096
    (rootTable g junk) (by omega)
  rw [format, Image.put_length _ _ _ _ (by omega), length3, length2, length1, length]

variable {g blank} in
theorem format_zero (fresh : Blank g blank) {index : Nat} (inodeBits : 8192 ≤ index)
    (dataBits : index < 4096 * g.dataBitmapAddr ∨ 4096 * g.dataBitmapAddr + 4096 ≤ index)
    (table : index < 4096 * g.inodeRegionAddr ∨ 4096 * g.inodeRegionAddr + 4096 ≤ index)
    (root : index < 4096 * g.dataRegionAddr ∨ 4096 * g.dataRegionAddr + 4096 ≤ index) :
    (format g junk blank).bytes index = 0 := by
  rw [format_other _ _ _ _ (Or.inr inodeBits) dataBits table root, fresh.2, if_neg (by omega)]

theorem format_rootInode :
    nodeAt (format g junk blank).bytes (4096 * g.inodeRegionAddr) =
      rootInode g.numInodes g.numData := by
  have layout := g.layout
  rw [nodeAt, ← Inode.decode_encode (rootInode g.numInodes g.numData)]
  apply Inode.decode_congr
  intro index small
  rw [format_table _ _ _ _ (by omega), rootTable, overwrite_inside (by omega)
    (by omega), Nat.sub_zero]

theorem format_initial (fresh : Blank g blank) :
    (format g junk blank).length = 4096 * g.totalBlocks ∧
      Initial g (volOf g (format g junk blank)) := by
  have layout := g.layout
  refine ⟨format_length g junk blank fresh, {
    boot := ?_, inodeBit := ?_, dataBit := ?_, root := ?_
    entries := ?_, zero := ?_, highestInode := rfl, hghstAllocDblk := rfl }⟩
  · intro index small
    simp only [volOf]
    rw [format_other _ _ _ _ (by omega) (by omega) (by omega) (by omega), fresh.2, if_pos small]
  · intro n
    refine bitmap_first (by omega) (format_inodeBitmap g junk blank) ?_ n
    intro index low high
    exact format_zero junk fresh (by omega) (by omega) (by omega) (by omega)
  · intro n
    refine bitmap_first (by omega) (format_dataBitmap g junk blank) ?_ n
    intro index low high
    exact format_zero junk fresh (by omega) (by omega) (by omega) (by omega)
  · have place : 4096 * g.inodeRegionAddr + 128 * 0 = 4096 * g.inodeRegionAddr := Nat.add_zero _
    have node : (volOf g (format g junk blank)).node 0 = view (nodeAt (format g junk blank).bytes
      (4096 * g.inodeRegionAddr + 128 * 0)) := rfl
    rw [node, place, format_rootInode, view_rootInode]
  · exact ⟨(junk.call 1).here, fun index small => format_root g junk blank index small⟩
  · intro b low high index small
    exact format_zero junk fresh (by omega) (by omega) (by omega) (by omega)
end Format

theorem mkfs_initial (g : Geometry) (junk : Junk) :
    ∃ image, mkfs g.numInodes g.numData junk = some image ∧ Shows g image (volOf g image) ∧
      Initial g (volOf g image) := by
  obtain ⟨blank, fresh, made⟩ := mkfs_eq g junk
  obtain ⟨length, initial⟩ := format_initial g junk blank fresh
  exact ⟨_, made, volOf_shows length, initial⟩

theorem Initial.sound {g : Geometry} {v : Vol} (initial : Initial g v) : Sound g v := by
  have layout := g.layout
  refine {
    highestInode_lt := ?_, hghstAllocDblk_lt := ?_, inodeBit_le := ?_, inodeBit_lt := ?_
    dataBit_le := ?_, node := ?_, boot := initial.boot }
  · rw [initial.highestInode]
    omega
  · rw [initial.hghstAllocDblk]
    omega
  · intro n bound
    rw [initial.highestInode] at bound
    simp [initial.inodeBit, Nat.le_zero.mp bound]
  · intro n bit
    simp only [initial.inodeBit, decide_eq_true_eq] at bit
    omega
  · intro k bound
    rw [initial.hghstAllocDblk] at bound
    simp [initial.dataBit, Nat.le_zero.mp bound]
  · intro n bit
    simp only [initial.inodeBit, decide_eq_true_eq] at bit
    subst bit
    rw [initial.root]
    refine ⟨?_, show 64 ≤ 122880 by decide, fun _ => show 32 ∣ 64 by decide, ?_⟩
    · intro i b here
      simp only at here
      split at here
      · rename_i first
        refine ⟨by omega, 0, by omega, by simp [initial.dataBit], ?_⟩
        exact (Option.some.inj here).symm
      · cases here
    · intro _ i before
      have first : i = 0 := by simp only at before; omega
      simp [first]

/-- A process that starts on the image of a sound volume. -/
theorem initializeServ_sim {g : Geometry} {image : Image} {v : Vol} (shown : Shows g image v)
    (boot : ∀ index, index < 40 → v.boot index = g.super.encode index) (junk : Junk) :
    Sim g (initializeServ image junk) { v with highestInode := 0, hghstAllocDblk := 0 } := by
  have layout := g.layout
  refine ⟨?_, ⟨shown.length, shown.boot, shown.inodeBit, shown.dataBit, shown.node, shown.block⟩,
    rfl, rfl⟩
  rw [initializeServ, ← Super.decode_encode g.super]
  apply Super.decode_congr
  intro index small
  have reached : index < image.length := by
    rw [shown.length]
    omega
  simp only [fsread, Nat.zero_add, small, reached, and_self, ↓reduceIte]
  rw [shown.boot index (by omega), boot index small]

end OsProjects.MkfsImage
