import OsProjects.VolumeSound

/-!
The server refines the volume. `Shows` says that an image of the right length
holds a volume region by region: super block, two bitmaps, inode table, data
blocks. Each kind of `fswrite` is matched once, by the write to its region with
all others unchanged; the functions of the server follow by composing these.
-/

namespace OsProjects.VolumeRefinement

open ByteStore UfsLayout FileServer Volume VolumeSteps VolumeSound Function

section Views

def view (ind : Inode) : Node :=
  ⟨ind.type, ind.size.toNat,
    fun index => if ind.ptr index = minusOne then none else some (ind.ptr index).toNat⟩

theorem view_direct (ind : Inode) (index : Nat) :
    (view ind).direct index =
      if ind.ptr index = minusOne then none else some (ind.ptr index).toNat := rfl

@[simp] theorem view_type (ind : Inode) : (view ind).type = ind.type := rfl

@[simp] theorem view_size (ind : Inode) : (view ind).size = ind.size.toNat := rfl

@[simp] theorem view_fresh (type : UInt32) : view (Inode.fresh type) = Node.fresh type := by
  simp [view, Node.fresh]

theorem view_resize (ind : Inode) (size : UInt32) :
    view { ind with size := size } = { view ind with size := size.toNat } := rfl

theorem view_setPtr (ind : Inode) (index : Nat) (addr : UInt32) (inside : index < 30)
    (real : addr ≠ minusOne) : view (ind.setPtr index addr) = (view ind).setPtr index addr.toNat := by
  apply Node.ext
  · rfl
  · rfl
  · funext other
    by_cases bound : other < 30
    · by_cases same : other = index
      · subst same
        rw [Node.setPtr_same, view_direct, Inode.ptr_setPtr _ _ _ _ bound]
        simp [real]
      · rw [Node.setPtr_other same, view_direct, view_direct, Inode.ptr_setPtr _ _ _ _ bound]
        simp [same]
    · have apart : other ≠ index := by omega
      rw [Node.setPtr_other apart, view_direct, view_direct,
        Inode.ptr_beyond _ _ (by omega), Inode.ptr_beyond _ _ (by omega)]

theorem view_injective {ind other : Inode} (same : view ind = view other) : ind = other := by
  have types := congrArg Node.type same
  have sizes := congrArg Node.size same
  apply Inode.ext_ptr
  · exact types
  · exact UInt32.toNat_inj.mp sizes
  · intro index _
    have pointers := congrFun (congrArg Node.direct same) index
    rw [view_direct, view_direct] at pointers
    split at pointers <;> split at pointers <;> rename_i left right
    · rw [left, right]
    · cases pointers
    · cases pointers
    · exact UInt32.toNat_inj.mp (Option.some.inj pointers)
end Views

section Bits

/-- Bit `n` of the bitmap at `base`; bit 0 is the leftmost one of the first word. -/
def bitAt (bytes : Bytes) (base n : Nat) : Bool :=
  (wordAt bytes (base + 4 * (n / 32))).toNat.testBit (31 - n % 32)

theorem toNat_mask (num : UInt32) : (mask num).toNat = 2 ^ (31 - num.toNat % 32) := by
  have small : num.toNat % 32 < 32 := Nat.mod_lt _ (by decide)
  have shift : (31 - num % 32).toNat = 31 - num.toNat % 32 := by
    rw [UInt32.toNat_sub_of_le]
    · simp
    · rw [UInt32.le_iff_toNat_le]
      simp only [UInt32.toNat_mod, UInt32.reduceToNat]
      omega
  rw [mask, UInt32.toNat_shiftLeft, shift]
  have power : 2 ^ (31 - num.toNat % 32) < 4294967296 :=
    lt_of_le_of_lt (Nat.pow_le_pow_right (by decide) (show 31 - num.toNat % 32 ≤ 31 by omega))
      (by decide)
  rw [Nat.mod_eq_of_lt (show 31 - num.toNat % 32 < 32 by omega)]
  simp only [UInt32.reduceToNat, Nat.shiftLeft_eq, Nat.one_mul]
  exact Nat.mod_eq_of_lt power

theorem mask_ne_zero (num : UInt32) : mask num ≠ 0 := by
  intro zero
  have value := toNat_mask num
  rw [zero] at value
  exact absurd value (Nat.ne_of_lt (Nat.two_pow_pos _))

theorem testBit_or_mask (word num : UInt32) (n : Nat) :
    (word ||| mask num).toNat.testBit (31 - n % 32) =
      (word.toNat.testBit (31 - n % 32) || decide (n % 32 = num.toNat % 32)) := by
  rw [UInt32.toNat_or, Nat.testBit_or, toNat_mask, Nat.testBit_two_pow]
  congr 1
  rw [decide_eq_decide]
  omega

theorem word_of_bits {word other : UInt32}
    (same : ∀ n < 32, word.toNat.testBit (31 - n % 32) = other.toNat.testBit (31 - n % 32)) :
    word = other := by
  apply UInt32.toNat_inj.mp
  apply Nat.eq_of_testBit_eq
  intro index
  by_cases small : index < 32
  · have bit := same (31 - index) (by omega)
    rwa [show 31 - (31 - index) % 32 = index by omega] at bit
  · have high : ∀ value : UInt32, value.toNat.testBit index = false := by
      intro value
      apply Nat.testBit_lt_two_pow
      exact lt_of_lt_of_le value.toNat_lt (Nat.pow_le_pow_right (by decide) (by omega))
    rw [high, high]

theorem bitAt_outside {bytes source : Bytes} {addr count base n : Nat}
    (apart : base + 4 * (n / 32) + 4 ≤ addr ∨ addr + count ≤ base + 4 * (n / 32)) :
    bitAt (overwrite bytes addr count source) base n = bitAt bytes base n := by
  rw [bitAt, wordAt_overwrite_outside apart, bitAt]

theorem bitAt_set (bytes : Bytes) (base n : Nat) (num : UInt32) :
    bitAt (overwrite bytes (base + 4 * (num.toNat / 32)) 4
        (byteAt (wordAt bytes (base + 4 * (num.toNat / 32)) ||| mask num))) base n =
      (bitAt bytes base n || decide (n = num.toNat)) := by
  by_cases sameWord : n / 32 = num.toNat / 32
  · have word : wordAt (putWord bytes (base + 4 * (num.toNat / 32))
        (wordAt bytes (base + 4 * (num.toNat / 32)) ||| mask num))
        (base + 4 * (num.toNat / 32)) = wordAt bytes (base + 4 * (num.toNat / 32)) ||| mask num :=
      wordAt_putWord_same _ _ _
    rw [bitAt, sameWord, ← putWord, word, testBit_or_mask, bitAt, sameWord]
    congr 1
    rw [decide_eq_decide]
    omega
  · have different : n ≠ num.toNat := fun same => sameWord (by rw [same])
    rw [bitAt_outside (by omega)]
    simp [different]
end Bits

def nodeAt (bytes : Bytes) (addr : Nat) : Inode := Inode.decode fun index => bytes (addr + index)

theorem nodeAt_outside {bytes source : Bytes} {addr count target : Nat}
    (apart : target + 128 ≤ addr ∨ addr + count ≤ target) :
    nodeAt (overwrite bytes addr count source) target = nodeAt bytes target := by
  apply Inode.decode_congr
  intro index inside
  exact overwrite_outside (by omega)

theorem nodeAt_written (bytes : Bytes) (addr : Nat) (ind : Inode) :
    nodeAt (overwrite bytes addr 128 ind.encode) addr = ind := by
  rw [nodeAt, ← Inode.decode_encode ind]
  apply Inode.decode_congr
  intro index inside
  rw [overwrite_inside (by omega) (by omega), Nat.add_sub_cancel_left, Inode.decode_encode]

structure Shows (g : Geometry) (image : Image) (v : Vol) : Prop where
  length : image.length = 4096 * g.totalBlocks
  boot : ∀ index < 4096, image.bytes index = v.boot index
  inodeBit : ∀ n < 32768 * g.inodeBitmapLen, bitAt image.bytes 4096 n = v.inodeBit n
  dataBit : ∀ n < 32768 * g.dataBitmapLen,
    bitAt image.bytes (4096 * g.dataBitmapAddr) n = v.dataBit n
  node : ∀ n < 32 * g.inodeRegionLen,
    view (nodeAt image.bytes (4096 * g.inodeRegionAddr + 128 * n)) = v.node n
  block : ∀ b, g.dataRegionAddr ≤ b → b < g.totalBlocks →
    ∀ index < 4096, image.bytes (4096 * b + index) = v.block b index

structure Sim (g : Geometry) (s : Serv) (v : Vol) : Prop where
  super : s.super = g.super
  shows' : Shows g s.image v
  highestInode : s.highestInode.toNat = v.highestInode
  hghstAllocDblk : s.hghstAllocDblk.toNat = v.hghstAllocDblk

variable {addr count : Nat}

section Regions
variable {g : Geometry} {image : Image} {v : Vol}

section
variable (shows' : Shows g image v)
include shows'

/-- A store behind the boot block keeps it, and every region it does not reach. -/
theorem Shows.put_boot (low : 4096 ≤ addr)
    (source : Bytes) : ∀ index < 4096, (image.put addr count source).bytes index = v.boot index := by
  intro index bound
  rw [Image.put_bytes, overwrite_outside (by omega)]
  exact shows'.boot index bound

theorem Shows.put_length  (high : addr + count ≤ 4096 * g.totalBlocks) (source : Bytes) :
    (image.put addr count source).length = 4096 * g.totalBlocks := by
  rw [Image.put_length _ _ _ _ (by rwa [shows'.length]), shows'.length]

theorem Shows.put_inodeBit  (apart : 4096 * g.dataBitmapAddr ≤ addr) (source : Bytes) :
    ∀ n < 32768 * g.inodeBitmapLen,
      bitAt (image.put addr count source).bytes 4096 n = v.inodeBit n := by
  intro n bound
  have place : g.dataBitmapAddr = 1 + g.inodeBitmapLen := rfl
  rw [Image.put_bytes, bitAt_outside (by omega)]
  exact shows'.inodeBit n bound

theorem Shows.put_dataBit
    (apart : addr + count ≤ 4096 * g.dataBitmapAddr ∨ 4096 * g.inodeRegionAddr ≤ addr)
    (source : Bytes) :
    ∀ n < 32768 * g.dataBitmapLen,
      bitAt (image.put addr count source).bytes (4096 * g.dataBitmapAddr) n = v.dataBit n := by
  intro n bound
  have place : g.inodeRegionAddr = g.dataBitmapAddr + g.dataBitmapLen := rfl
  rw [Image.put_bytes, bitAt_outside (by omega)]
  exact shows'.dataBit n bound

theorem Shows.put_node
    (apart : addr + count ≤ 4096 * g.inodeRegionAddr ∨ 4096 * g.dataRegionAddr ≤ addr)
    (source : Bytes) :
    ∀ n < 32 * g.inodeRegionLen,
      view (nodeAt (image.put addr count source).bytes (4096 * g.inodeRegionAddr + 128 * n)) =
        v.node n := by
  intro n bound
  have place : g.dataRegionAddr = g.inodeRegionAddr + g.inodeRegionLen := rfl
  rw [Image.put_bytes, nodeAt_outside (by omega)]
  exact shows'.node n bound

theorem Shows.put_block (apart : addr + count ≤ 4096 * g.dataRegionAddr) (source : Bytes) :
    ∀ b, g.dataRegionAddr ≤ b → b < g.totalBlocks → ∀ index < 4096,
      (image.put addr count source).bytes (4096 * b + index) = v.block b index := by
  intro b low high index bound
  rw [Image.put_bytes, overwrite_outside (by omega)]
  exact shows'.block b low high index bound

theorem shows_putNode (n : Nat) (inside : n < 32 * g.inodeRegionLen) (ind : Inode) :
    Shows g (image.put (4096 * g.inodeRegionAddr + 128 * n) 128 ind.encode)
      (v.setNode n (view ind)) := by
  have layout := g.layout
  refine ⟨shows'.put_length (by omega) _, shows'.put_boot (by omega) _,
    shows'.put_inodeBit (by omega) _, shows'.put_dataBit (by omega) _, ?_,
    shows'.put_block (by omega) _⟩
  intro m bound
  by_cases same : m = n
  · subst same
    simp only [Image.put_bytes, nodeAt_written, Vol.setNode, update_self]
  · rw [Image.put_bytes, nodeAt_outside (by omega), shows'.node m bound]
    simp [Vol.setNode, same]

theorem shows_putBlock (b offset count : Nat)
    (low : g.dataRegionAddr ≤ b) (high : b < g.totalBlocks) (inside : offset + count ≤ 4096)
    (source : Bytes) :
    Shows g (image.put (4096 * b + offset) count source) (v.putBlock b offset count source) := by
  have layout := g.layout
  refine ⟨shows'.put_length (by omega) _, shows'.put_boot (by omega) _,
    shows'.put_inodeBit (by omega) _, shows'.put_dataBit (by omega) _,
    shows'.put_node (by omega) _, ?_⟩
  intro other low' high' index bound
  by_cases same : other = b
  · subst same
    by_cases hit : offset ≤ index ∧ index < offset + count
    · rw [Image.put_bytes, overwrite_inside (by omega) (by omega)]
      simp only [Vol.putBlock, update_self]
      rw [overwrite_inside hit.1 hit.2]
      congr 1
      omega
    · rw [Image.put_bytes, overwrite_outside (by omega)]
      simp only [Vol.putBlock, update_self]
      rw [overwrite_outside (by omega)]
      exact shows'.block other low' high' index bound
  · rw [Image.put_bytes, overwrite_outside (by omega), shows'.block other low' high' index bound]
    simp [Vol.putBlock, same]

theorem shows_setInodeBit (num : UInt32) (inside : num.toNat < 32768 * g.inodeBitmapLen) :
    Shows g (image.put (4096 + 4 * (num.toNat / 32)) 4
        (byteAt (wordAt image.bytes (4096 + 4 * (num.toNat / 32)) ||| mask num)))
      { v with inodeBit := update v.inodeBit num.toNat true } := by
  have layout := g.layout
  refine ⟨shows'.put_length (by omega) _, shows'.put_boot (by omega) _, ?_,
    shows'.put_dataBit (by omega) _, shows'.put_node (by omega) _, shows'.put_block (by omega) _⟩
  intro m bound
  rw [Image.put_bytes, bitAt_set, shows'.inodeBit m bound]
  by_cases same : m = num.toNat <;> simp [same]

theorem shows_setDataBit (num : UInt32) (inside : num.toNat < 32768 * g.dataBitmapLen) :
    Shows g (image.put (4096 * g.dataBitmapAddr + 4 * (num.toNat / 32)) 4
        (byteAt (wordAt image.bytes (4096 * g.dataBitmapAddr + 4 * (num.toNat / 32)) ||| mask num)))
      { v with dataBit := update v.dataBit num.toNat true } := by
  have layout := g.layout
  refine ⟨shows'.put_length (by omega) _, shows'.put_boot (by omega) _,
    shows'.put_inodeBit (by omega) _, ?_, shows'.put_node (by omega) _,
    shows'.put_block (by omega) _⟩
  intro m bound
  rw [Image.put_bytes, bitAt_set, shows'.dataBit m bound]
  by_cases same : m = num.toNat <;> simp [same]
end
end Regions

variable {inum : UInt32}

section Primitives
variable {g : Geometry} {s : Serv} {v : Vol}

theorem toNat_ofNat_lt {value : Nat} (small : value < 4294967296) :
    (UInt32.ofNat value).toNat = value := by
  rw [UInt32.toNat_ofNat']
  omega

theorem toNat_pred {len : UInt32} {count : Nat} (length : len.toNat = count) (some' : 0 < count) :
    (len - 1).toNat = count - 1 := by
  rw [UInt32.toNat_sub_of_le]
  · rw [length]
    rfl
  · rw [UInt32.le_iff_toNat_le, length]
    simp only [UInt32.reduceToNat]
    omega

theorem inodeAddr_toNat (sim : Sim g s v) (inum : UInt32) (inside : inum.toNat < g.numInodes) :
    (inodeAddr s inum).toNat = 4096 * g.inodeRegionAddr + 128 * inum.toNat := by
  have layout := g.layout
  have region : g.super.inodeRegionAddr.toNat = g.inodeRegionAddr := toNat_ofNat_lt (by omega)
  simp only [inodeAddr, sim.super, UInt32.toNat_add, UInt32.toNat_mul, region, UInt32.reduceToNat]
  omega

theorem inodeBmaddr_toNat (sim : Sim g s v) (inum : UInt32) (inside : inum.toNat < g.numInodes) :
    (bmaddr s.super.inodeBitmapAddr inum).toNat = 4096 + 4 * (inum.toNat / 32) := by
  have layout := g.layout
  have region : g.super.inodeBitmapAddr.toNat = 1 := rfl
  simp only [bmaddr, sim.super, UInt32.toNat_add, UInt32.toNat_mul, UInt32.toNat_div, region,
    UInt32.reduceToNat]
  omega

theorem dataBmaddr_toNat (sim : Sim g s v) (num : UInt32) (inside : num.toNat < g.numData) :
    (bmaddr s.super.dataBitmapAddr num).toNat = 4096 * g.dataBitmapAddr + 4 * (num.toNat / 32) := by
  have layout := g.layout
  have region : g.super.dataBitmapAddr.toNat = g.dataBitmapAddr := toNat_ofNat_lt (by omega)
  simp only [bmaddr, sim.super, UInt32.toNat_add, UInt32.toNat_mul, UInt32.toNat_div, region,
    UInt32.reduceToNat]
  omega

theorem lseek_low {addr : UInt32} (low : addr.toNat < 2147483648) (pos : Nat) :
    lseek pos addr = addr.toNat := if_pos low

theorem fsread_inside (sim : Sim g s v) {start nbytes : Nat}
    (inside : start + nbytes ≤ 4096 * g.totalBlocks) (buf : Bytes) {index : Nat}
    (bound : index < nbytes) : fsread s start buf nbytes index = s.image.bytes (start + index) := by
  have length := sim.shows'.length
  have reached : index < nbytes ∧ start + index < s.image.length := by omega
  simp [fsread, reached]

theorem wordAt_fsread (sim : Sim g s v) {start : Nat}
    (inside : start + 4 ≤ 4096 * g.totalBlocks) (buf : Bytes) :
    wordAt (fsread s start buf 4) 0 = wordAt s.image.bytes start := by
  apply wordAt_congr
  intro index small
  rw [Nat.zero_add, fsread_inside sim inside buf small]

theorem readInode_sim (sim : Sim g s v) (bit : v.inodeBit inum.toNat = true)
    (inside : inum.toNat < g.numInodes) (junk : Junk) :
    view (readInode s inum junk).2 = v.node inum.toNat := by
  have layout := g.layout
  have bmaddr := inodeBmaddr_toNat sim inum inside
  have addr := inodeAddr_toNat sim inum inside
  -- the bit of the inode keeps the whole bitmap word from being zero
  have word : wordAt (fsread s (FileServer.bmaddr s.super.inodeBitmapAddr inum).toNat
      (junk.call 0).here 4) 0 ≠ 0 := by
    rw [wordAt_fsread sim (by omega), bmaddr]
    intro zero
    have shown := sim.shows'.inodeBit inum.toNat (by omega)
    rw [bit, bitAt, zero] at shown
    simp at shown
  have valid : (wordAt (fsread s (FileServer.bmaddr s.super.inodeBitmapAddr inum).toNat
      (junk.call 0).here 4) 0 != 0 && mask inum != 0) = true := by
    simp [word, mask_ne_zero]
  simp only [readInode, valid, ↓reduceIte]
  rw [← sim.shows'.node inum.toNat (by omega)]
  congr 1
  apply Inode.decode_congr
  intro index small
  rw [lseek_low (by omega), fsread_inside sim (by omega) _ small, addr]

theorem writeInode_sim (sim : Sim g s v) (inside : inum.toNat < g.numInodes)
    (ind : Inode) : Sim g (writeInode s inum ind) (v.setNode inum.toNat (view ind)) := by
  have layout := g.layout
  refine ⟨sim.super, ?_, sim.highestInode, sim.hghstAllocDblk⟩
  have shown := shows_putNode sim.shows' inum.toNat (by omega) ind
  rw [← inodeAddr_toNat sim inum inside] at shown
  exact shown

theorem fswrite_sim (sim : Sim g s v) {addr : UInt32} {b offset nbytes : Nat}
    (low : g.dataRegionAddr ≤ b) (high : b < g.totalBlocks) (inside : offset + nbytes ≤ 4096)
    (place : addr.toNat = 4096 * b + offset) (buf : Bytes) :
    Sim g (fswrite s addr buf nbytes) (v.putBlock b offset nbytes buf) := by
  refine ⟨sim.super, ?_, sim.highestInode, sim.hghstAllocDblk⟩
  have shown := shows_putBlock sim.shows' b offset nbytes low high inside buf
  rw [← place] at shown
  exact shown

def blockWord : Option Nat → UInt32
  | none => minusOne
  | some b => UInt32.ofNat b

theorem blockWord_ne {b : Nat} (small : b < 4294967295) : blockWord (some b) ≠ minusOne := by
  intro same
  have value := congrArg UInt32.toNat same
  rw [blockWord, toNat_ofNat_lt (by omega)] at value
  simp only [minusOne, UInt32.reduceToNat] at value
  omega

/-- The test of `new_inode` and `alloc_dblk` whether everything is given out. -/
theorem counter_last {counter len : UInt32} {given count : Nat} (counted : counter.toNat = given)
    (length : len.toNat = count) (some' : 0 < count) : counter = len - 1 ↔ given = count - 1 := by
  rw [← UInt32.toNat_inj, toNat_pred length some', counted]

/-- The sizes alone, where the places of the regions do not matter. -/
theorem sizes_small (g : Geometry) : 0 < g.numInodes ∧ g.numInodes ≤ 16777216 ∧
    0 < g.numData ∧ g.dataRegionAddr + g.numData ≤ 524288 := by
  have layout := g.layout
  omega

theorem allocDblk_sim (sim : Sim g s v) (bound : v.hghstAllocDblk < g.numData) (junk : Junk) :
    (allocDblk s junk).1 = blockWord (v.allocDblk g).1 ∧
      Sim g (allocDblk s junk).2 (v.allocDblk g).2 := by
  have sizes := sizes_small g
  have counter := sim.hghstAllocDblk
  have length : s.super.dataRegionLen.toNat = g.numData := by
    rw [sim.super]
    exact toNat_ofNat_lt (by omega)
  have last := counter_last counter length (by omega)
  unfold allocDblk Vol.allocDblk
  by_cases full : v.hghstAllocDblk = g.numData - 1
  · simp only [full, last.mpr full, ↓reduceIte, blockWord, true_and]
    exact sim
  · simp only [full, last, ↓reduceIte]
    have next : (s.hghstAllocDblk + 1).toNat = v.hghstAllocDblk + 1 := by
      simp only [UInt32.toNat_add, UInt32.reduceToNat]
      omega
    have addr := dataBmaddr_toNat sim (s.hghstAllocDblk + 1) (by omega)
    have word : wordAt (fsread { s with hghstAllocDblk := s.hghstAllocDblk + 1 }
        (bmaddr s.super.dataBitmapAddr (s.hghstAllocDblk + 1)).toNat junk.here 4) 0 =
          wordAt s.image.bytes (bmaddr s.super.dataBitmapAddr (s.hghstAllocDblk + 1)).toNat :=
      wordAt_fsread sim (by have := g.layout; omega) _
    refine ⟨?_, sim.super, ?_, sim.highestInode, next⟩
    · apply UInt32.toNat_inj.mp
      have region : g.super.dataRegionAddr.toNat = g.dataRegionAddr := toNat_ofNat_lt (by omega)
      simp only [fswrite, sim.super, blockWord]
      rw [UInt32.toNat_add, region, next, toNat_ofNat_lt (by omega)]
      omega
    · have shown := shows_setDataBit sim.shows' (s.hghstAllocDblk + 1) (by have := g.layout; omega)
      rw [next] at shown
      simp only [fswrite]
      rw [word, addr, next]
      exact ⟨shown.length, shown.boot, shown.inodeBit, shown.dataBit, shown.node, shown.block⟩

theorem newInode_sim (sim : Sim g s v) (bound : v.highestInode < g.numInodes) (type : UInt32)
    (junk : Junk) :
    (newInode s type junk).1 = blockWord (v.newInode g type).1 ∧
      Sim g (newInode s type junk).2 (v.newInode g type).2 := by
  have sizes := sizes_small g
  have counter := sim.highestInode
  have length : s.super.numInodes.toNat = g.numInodes := by
    rw [sim.super]
    exact toNat_ofNat_lt (by omega)
  have last := counter_last counter length (by omega)
  unfold newInode Vol.newInode
  by_cases full : v.highestInode = g.numInodes - 1
  · simp only [full, last.mpr full, ↓reduceIte, blockWord, true_and]
    exact sim
  · simp only [full, last, ↓reduceIte]
    have next : (s.highestInode + 1).toNat = v.highestInode + 1 := by
      simp only [UInt32.toNat_add, UInt32.reduceToNat]
      omega
    have addr := inodeBmaddr_toNat sim (s.highestInode + 1) (by omega)
    have word : wordAt (fsread { s with highestInode := s.highestInode + 1 }
        (bmaddr s.super.inodeBitmapAddr (s.highestInode + 1)).toNat junk.here 4) 0 =
          wordAt s.image.bytes (bmaddr s.super.inodeBitmapAddr (s.highestInode + 1)).toNat :=
      wordAt_fsread sim (by have := g.layout; omega) _
    have marked : Sim g (fswrite { s with highestInode := s.highestInode + 1 }
        (bmaddr s.super.inodeBitmapAddr (s.highestInode + 1))
        (byteAt (wordAt s.image.bytes (bmaddr s.super.inodeBitmapAddr
          (s.highestInode + 1)).toNat ||| mask (s.highestInode + 1))) 4)
        { v with
          highestInode := v.highestInode + 1
          inodeBit := update v.inodeBit (v.highestInode + 1) true } := by
      have shown := shows_setInodeBit sim.shows' (s.highestInode + 1) (by have := g.layout; omega)
      refine ⟨sim.super, ?_, next, sim.hghstAllocDblk⟩
      rw [next] at shown
      simp only [fswrite]
      rw [addr, next]
      exact ⟨shown.length, shown.boot, shown.inodeBit, shown.dataBit, shown.node, shown.block⟩
    refine ⟨?_, ?_⟩
    · apply UInt32.toNat_inj.mp
      simp only [fswrite, blockWord]
      rw [next, toNat_ofNat_lt (by omega)]
    · have stored := @writeInode_sim (s.highestInode + 1) g _ _ marked (by omega) (Inode.fresh type)
      rw [view_fresh, next] at stored
      rw [word]
      exact stored

theorem allocated_word {v1 : Vol} (alloc : Allocates g v v1) :
    blockWord (some (g.dataRegionAddr + v1.hghstAllocDblk)) ≠ minusOne ∧
      (blockWord (some (g.dataRegionAddr + v1.hghstAllocDblk))).toNat =
        g.dataRegionAddr + v1.hghstAllocDblk := by
  have layout := g.layout
  have counter := alloc.counter_lt
  exact ⟨blockWord_ne (by omega), toNat_ofNat_lt (by omega)⟩

theorem fillHoles_sim (d : Nat) (inside : d ≤ 30) (sim : Sim g s v)
    (bound : v.hghstAllocDblk < g.numData) (fnd : Inode) (junk : Junk) :
    Sim g (fillHoles junk d s fnd).2 (Vol.fillHoles g d v (view fnd)).2 ∧
      (fillHoles junk d s fnd).1.map view = (Vol.fillHoles g d v (view fnd)).1 := by
  have layout := g.layout
  induction d generalizing s v fnd with
  | zero => exact ⟨sim, rfl⟩
  | succ d ih =>
    simp only [fillHoles, Vol.fillHoles]
    by_cases hole : fnd.ptr d = minusOne
    · have absent : (view fnd).direct d = none := by rw [view_direct, if_pos hole]
      simp only [hole, absent, ↓reduceIte]
      obtain ⟨word, sim1⟩ := allocDblk_sim sim bound (junk.call d)
      rcases allocDblk_cases bound with ⟨full, none⟩ | ⟨v1, block, alloc, next⟩
      · rw [none] at word sim1
        simp only [word, none, blockWord, ↓reduceIte]
        exact ⟨sim1, rfl⟩
      · rw [block] at word sim1
        have counter := alloc.counter_lt
        obtain ⟨real, value⟩ := allocated_word alloc
        simp only [word, block, real, ↓reduceIte]
        have rest := ih (by omega) sim1 alloc.counter_lt
          (fnd.setPtr d (blockWord (some (g.dataRegionAddr + v1.hghstAllocDblk))))
        rw [view_setPtr _ _ _ (by omega) real, value] at rest
        exact rest
    · have present : (view fnd).direct d = some (fnd.ptr d).toNat := by
        rw [view_direct, if_neg hole]
      simp only [hole, present, ↓reduceIte]
      exact ⟨sim, rfl⟩
end Primitives

section Files
variable {g : Geometry} {s : Serv} {v : Vol}

theorem growFile_sim (sim : Sim g s v) (inside : inum.toNat < g.numInodes)
    (fnd : Inode) (offset nbytes : UInt32) (small : offset.toNat + nbytes.toNat < 4294967296) :
    Sim g (growFile s inum fnd offset nbytes)
      (v.grow inum.toNat (view fnd) (offset.toNat + nbytes.toNat)) := by
  have last : (offset + nbytes).toNat = offset.toNat + nbytes.toNat := by
    rw [UInt32.toNat_add]
    omega
  have stored := writeInode_sim sim inside
    { fnd with size := if offset + nbytes > fnd.size then offset + nbytes else fnd.size }
  rw [view_resize] at stored
  have size : (if offset + nbytes > fnd.size then offset + nbytes else fnd.size).toNat =
      max (offset.toNat + nbytes.toNat) (view fnd).size := by
    rw [view_size]
    split
    · rename_i larger
      rw [gt_iff_lt, UInt32.lt_iff_toNat_lt, last] at larger
      omega
    · rename_i smaller
      rw [gt_iff_lt, UInt32.lt_iff_toNat_lt, last] at smaller
      omega
  rw [size] at stored
  exact stored

theorem ptr_place {ind : Inode} {i b : Nat} (mapped : (view ind).direct i = some b)
    (offset : UInt32) (fits : 4096 * b + offset.toNat < 4294967296) :
    (ind.ptr i * 4096 + offset).toNat = 4096 * b + offset.toNat := by
  rw [view_direct] at mapped
  split at mapped
  · cases mapped
  · have value := Option.some.inj mapped
    simp only [UInt32.toNat_add, UInt32.toNat_mul, UInt32.reduceToNat]
    omega

theorem toNat_div_block (offset : UInt32) : (offset / 4096).toNat = offset.toNat / 4096 := by
  rw [UInt32.toNat_div]
  rfl

theorem toNat_mod_block (offset : UInt32) : (offset % 4096).toNat = offset.toNat % 4096 := by
  rw [UInt32.toNat_mod]
  rfl

theorem toNat_free (offset : UInt32) :
    (4096 - offset % 4096).toNat = 4096 - offset.toNat % 4096 := by
  rw [UInt32.toNat_sub_of_le, toNat_mod_block]
  · rfl
  · rw [UInt32.le_iff_toNat_le, toNat_mod_block]
    simp only [UInt32.reduceToNat]
    omega

theorem toNat_rest {offset nbytes : UInt32}
    (long : 4096 - offset.toNat % 4096 ≤ nbytes.toNat) :
    (nbytes - (4096 - offset % 4096)).toNat = nbytes.toNat - (4096 - offset.toNat % 4096) := by
  rw [UInt32.toNat_sub_of_le, toNat_free]
  rwa [UInt32.le_iff_toNat_le, toNat_free]

theorem writeBlocks_sim (sim : Sim g s v) (bound : v.hghstAllocDblk < g.numData)
    (inside : inum.toNat < g.numInodes) (buf : Bytes) (offset nbytes : UInt32)
    (small : nbytes.toNat ≤ 4096) (first : offset.toNat / 4096 ≤ 29) (fnd : Inode) {b : Nat}
    (mapped : (view fnd).direct (offset.toNat / 4096) = some b) (low : g.dataRegionAddr ≤ b)
    (high : b < g.totalBlocks) (junk : Junk) :
    (writeBlocks s inum buf offset nbytes fnd junk).1 =
        Vol.code (v.writeBlocks g inum.toNat buf offset.toNat nbytes.toNat (view fnd)).1 ∧
      Sim g (writeBlocks s inum buf offset nbytes fnd junk).2
        (v.writeBlocks g inum.toNat buf offset.toNat nbytes.toNat (view fnd)).2 := by
  have layout := g.layout
  have stored := writeInode_sim sim inside fnd
  have block : (view fnd).at' (offset.toNat / 4096) = b := by simp [Node.at', mapped]
  have compare : nbytes ≤ 4096 - offset % 4096 ↔ nbytes.toNat ≤ 4096 - offset.toNat % 4096 := by
    rw [UInt32.le_iff_toNat_le, toNat_free]
  have place := ptr_place mapped (offset % 4096) (by rw [toNat_mod_block]; omega)
  rw [toNat_mod_block] at place
  simp only [writeBlocks, Vol.writeBlocks, toNat_div_block, compare, block]
  by_cases short : nbytes.toNat ≤ 4096 - offset.toNat % 4096
  · simp only [short, ↓reduceIte]
    have written := fswrite_sim stored low high
      (show offset.toNat % 4096 + nbytes.toNat ≤ 4096 by omega) place buf
    exact ⟨rfl, growFile_sim written inside fnd offset nbytes (by omega)⟩
  · simp only [short, ↓reduceIte]
    by_cases last : offset.toNat / 4096 = 29
    · simp only [last, ↓reduceIte]
      exact ⟨rfl, stored⟩
    · simp only [last, ↓reduceIte]
      have bound1 : (v.setNode inum.toNat (view fnd)).hghstAllocDblk < g.numData := bound
      obtain ⟨word, sim2⟩ := allocDblk_sim stored bound1 (junk.call 2)
      rcases allocDblk_cases bound1 with ⟨full, none⟩ | ⟨v2, fresh, alloc, next⟩
      · rw [none] at word sim2
        simp only [word, none, blockWord, ↓reduceIte]
        exact ⟨rfl, sim2⟩
      · rw [fresh] at word sim2
        have counter := alloc.counter_lt
        obtain ⟨real, value⟩ := allocated_word alloc
        simp only [word, fresh, real, ↓reduceIte]
        have viewed := view_setPtr fnd (offset.toNat / 4096 + 1)
          (blockWord (some (g.dataRegionAddr + v2.hghstAllocDblk))) (by omega) real
        rw [value] at viewed
        have kept : (view (fnd.setPtr (offset.toNat / 4096 + 1)
            (blockWord (some (g.dataRegionAddr + v2.hghstAllocDblk))))).direct
              (offset.toNat / 4096) = some b := by
          rw [viewed, Node.setPtr_other (by omega)]
          exact mapped
        have added : (view (fnd.setPtr (offset.toNat / 4096 + 1)
            (blockWord (some (g.dataRegionAddr + v2.hghstAllocDblk))))).direct
              (offset.toNat / 4096 + 1) = some (g.dataRegionAddr + v2.hghstAllocDblk) := by
          rw [viewed, Node.setPtr_same]
        have place1 := ptr_place kept (offset % 4096) (by rw [toNat_mod_block]; omega)
        rw [toNat_mod_block] at place1
        have place2 := ptr_place added 0 (by simp only [UInt32.reduceToNat]; omega)
        rw [UInt32.add_zero] at place2
        have rest := @toNat_rest offset nbytes (by omega)
        have written1 := fswrite_sim sim2 low high
          (show offset.toNat % 4096 + (4096 - offset.toNat % 4096) ≤ 4096 by omega) place1 buf
        have written2 := fswrite_sim written1 (by omega) (by omega)
          (show 0 + (nbytes.toNat - (4096 - offset.toNat % 4096)) ≤ 4096 by omega) place2
          (fun index => buf (4096 - offset.toNat % 4096 + index))
        have grown := growFile_sim written2 inside (fnd.setPtr (offset.toNat / 4096 + 1)
          (blockWord (some (g.dataRegionAddr + v2.hghstAllocDblk)))) offset nbytes (by omega)
        rw [viewed] at grown
        rw [toNat_free, rest]
        exact ⟨rfl, grown⟩

theorem writeFile_sim (sim : Sim g s v) (sound : Sound g v)
    (bit : v.inodeBit inum.toNat = true) (buf : Bytes) (offset nbytes type : UInt32)
    (small : nbytes.toNat ≤ 4096) (junk : Junk) :
    (writeFile s inum buf offset nbytes type junk).1 =
        Vol.code (v.writeFile g inum.toNat buf offset.toNat nbytes.toNat type).1 ∧
      Sim g (writeFile s inum buf offset nbytes type junk).2
        (v.writeFile g inum.toNat buf offset.toNat nbytes.toNat type).2 := by
  have layout := g.layout
  have inside := sound.inodeBit_lt _ bit
  have ok := sound.node _ bit
  have shown := readInode_sim sim bit inside (junk.call 0)
  have typeSame : (readInode s inum (junk.call 0)).2.type = (v.node inum.toNat).type := by
    rw [← shown, view_type]
  simp only [writeFile, Vol.writeFile, typeSame, toNat_div_block, gt_iff_lt]
  by_cases wrong : (v.node inum.toNat).type ≠ type
  · simp only [wrong, true_or, ne_eq, not_false_eq_true, ↓reduceIte]
    exact ⟨rfl, sim⟩
  · simp only [wrong, false_or, ↓reduceIte]
    by_cases beyond : 29 < offset.toNat / 4096
    · simp only [beyond, ↓reduceIte]
      exact ⟨rfl, sim⟩
    · simp only [beyond, ↓reduceIte]
      obtain ⟨sim1, same⟩ := fillHoles_sim (offset.toNat / 4096 + 1) (by omega) sim
        sound.hghstAllocDblk_lt (readInode s inum (junk.call 0)).2 (junk.call 1)
      rw [shown] at sim1 same
      rcases filled : Vol.fillHoles g (offset.toNat / 4096 + 1) v (v.node inum.toNat) with
        ⟨result, v1⟩
      rcases filled' : fillHoles (junk.call 1) (offset.toNat / 4096 + 1) s
        (readInode s inum (junk.call 0)).2 with ⟨fnd, s1⟩
      obtain ⟨alloc, found⟩ := filled_spec sound.hghstAllocDblk_lt (by omega) filled
      rw [filled, filled'] at sim1 same
      cases fnd with
      | none =>
        simp only [Option.map_none] at same
        subst same
        exact ⟨rfl, sim1⟩
      | some fnd =>
        simp only [Option.map_some] at same
        subst same
        obtain ⟨fills, size, mapped, kept⟩ := found (view fnd) rfl
        obtain ⟨_, k, bound, _, place⟩ := ok.fills alloc.toAdvances fills _ _ mapped
        exact writeBlocks_sim sim1 alloc.counter_lt inside buf offset nbytes small (by omega) fnd
          mapped (by omega) (by omega) junk
end Files

variable {name : List UInt8} {pinum : UInt32}

section Lookups
variable {g : Geometry} {s : Serv} {v : Vol}

/-- What a lookup in the volume found is what the server holds: the address of
the slot and the bytes of the entry. -/
inductive Located (v : Vol) (nd : Node) : Option (Nat × Nat) → Option (Bytes × UInt32) → Prop where
  | missing : Located v nd none none
  | present {i j : Nat} {de : Bytes} {addr : UInt32}
      (place : addr.toNat = 4096 * nd.at' i + 32 * j)
      (bytes : ∀ index < 32, de index = v.entry (nd.at' i) j index) :
      Located v nd (some (i, j)) (some (de, addr))

theorem Located.isSome {nd : Node} {slot : Option (Nat × Nat)} {found : Option (Bytes × UInt32)}
    (located : Located v nd slot found) : found.isSome = slot.isSome := by
  cases located with
  | missing | present => rfl

theorem Located.of_none {nd : Node} {found : Option (Bytes × UInt32)}
    (located : Located v nd none found) : found = none := by
  cases located
  rfl

theorem Located.of_some {nd : Node} {i j : Nat} {found : Option (Bytes × UInt32)}
    (located : Located v nd (some (i, j)) found) :
    ∃ de addr, found = some (de, addr) ∧ addr.toNat = 4096 * nd.at' i + 32 * j ∧
      ∀ index < 32, de index = v.entry (nd.at' i) j index := by
  cases located with
  | present place bytes => exact ⟨_, _, rfl, place, bytes⟩

theorem scanBlock_sim (sim : Sim g s v) {nd : Node} {i : Nat} {block : UInt32}
    (value : block.toNat = nd.at' i) (low : g.dataRegionAddr ≤ nd.at' i)
    (high : nd.at' i < g.totalBlocks) (short : name.length ≤ 28)
    (left j : Nat) (inside : j + left ≤ 128) (buf : Bytes) (pos : Nat) :
    Located v nd (((List.range' j left).find? fun j => v.hit name (nd.at' i) j).map fun j => (i, j))
      (scanBlock s block name left j buf pos).1 := by
  have layout := g.layout
  induction left generalizing j buf pos with
  | zero => exact .missing
  | succ left ih =>
    have slot : (UInt32.ofNat j).toNat = j := toNat_ofNat_lt (by omega)
    have place : (block * 4096 + UInt32.ofNat j * 32).toNat = 4096 * nd.at' i + 32 * j := by
      simp only [UInt32.toNat_add, UInt32.toNat_mul, UInt32.reduceToNat, value, slot]
      omega
    have seeks := lseek_low (show (block * 4096 + UInt32.ofNat j * 32).toNat < 2147483648 by
      omega) pos
    have bytes : ∀ index < 32, fsread s (lseek pos (block * 4096 + UInt32.ofNat j * 32)) buf 32
        index = v.entry (nd.at' i) j index := by
      intro index small
      rw [seeks, fsread_inside sim (by omega) buf small, place, Nat.add_assoc]
      exact sim.shows'.block _ low high _ (by omega)
    simp only [scanBlock, List.range'_succ, List.find?_cons]
    generalize fsread s (lseek pos (block * 4096 + UInt32.ofNat j * 32)) buf 32 = de at bytes ⊢
    have same : (streq de 0 name && wordAt de 28 != minusOne) = v.hit name (nd.at' i) j := by
      have named : streq de 0 name = streq (v.entry (nd.at' i) j) 0 name := by
        apply streq_congr
        intro index bound
        rw [Nat.zero_add]
        exact bytes index (by omega)
      have inum : wordAt de 28 = wordAt (v.entry (nd.at' i) j) 28 :=
        wordAt_congr _ _ _ _ fun index small => bytes _ (by omega)
      rw [Vol.hit, Vol.entryInum, named, inum]
    simp only [same]
    cases hit : v.hit name (nd.at' i) j with
    | true => exact .present place bytes
    | false => exact ih (j + 1) (by omega) _ _

theorem scanDir_sim (sim : Sim g s v) {ind : Inode}
    (short : name.length ≤ 28) (junk : Junk) (left i pos : Nat) (inside : i + left ≤ 30)
    (good : ∀ k, i ≤ k → k < i + left → (view ind).direct k = some ((view ind).at' k) ∧
      g.dataRegionAddr ≤ (view ind).at' k ∧ (view ind).at' k < g.totalBlocks) :
    Located v (view ind)
      (((List.range' i left).flatMap fun i => (List.range 128).map fun j => (i, j)).find?
        fun slot => v.hit name ((view ind).at' slot.1) slot.2)
      (scanDir s ind name junk left i pos) := by
  induction left generalizing i pos with
  | zero => exact .missing
  | succ left ih =>
    obtain ⟨mapped, low, high⟩ := good i (le_refl i) (by omega)
    have value : (directPtr ind (junk.call 0) i).toNat = (view ind).at' i := by
      have first : i < 30 := by omega
      rw [directPtr, if_pos first]
      rw [view_direct] at mapped
      split at mapped
      · cases mapped
      · exact Option.some.inj mapped
    have here := scanBlock_sim sim value low high short 128 0 (by omega)
      ((junk.call 1).call i).here pos
    have rest := fun pos => ih (i + 1) pos (by omega) fun k above below =>
      good k (by omega) (by omega)
    simp only [scanDir, List.range'_succ, List.flatMap_cons, List.find?_append, List.find?_map]
    rw [← List.range_eq_range'] at here
    generalize scanBlock s (directPtr ind (junk.call 0) i) name 128 0
      ((junk.call 1).call i).here pos = scanned at here ⊢
    obtain ⟨result, pos'⟩ := scanned
    simp only [comp_def]
    cases found : (List.range 128).find? fun j => v.hit name ((view ind).at' i) j with
    | none =>
      rw [found] at here
      cases here
      simpa using rest pos'
    | some j =>
      rw [found] at here
      cases here with
      | present place bytes => exact .present place bytes

theorem toNat_maxBlocks (size : UInt32) (small : size.toNat ≤ 122880) :
    (maxBlocks size).toNat = (size.toNat + 4095) / 4096 := by
  have rounded : -(-signed size / 4096) = (((size.toNat + 4095) / 4096 : Nat) : Int) := by
    simp only [signed]
    split <;> omega
  rw [maxBlocks, rounded, toNat_wrap_natCast _ (by omega)]

theorem lookupFile_sim (sim : Sim g s v) (sound : Sound g v)
    (bit : v.inodeBit pinum.toNat = true) (short : name.length ≤ 28)
    (junk : Junk) :
    Located v (v.node pinum.toNat) (v.lookup pinum.toNat name) (lookupFile s pinum name junk) := by
  have layout := g.layout
  have ok := sound.node _ bit
  have shown := readInode_sim sim bit (sound.inodeBit_lt _ bit) (junk.call 0)
  have typeSame : (readInode s pinum (junk.call 0)).2.type = (v.node pinum.toNat).type := by
    rw [← shown, view_type]
  have sizeSame : (readInode s pinum (junk.call 0)).2.size.toNat = (v.node pinum.toNat).size := by
    rw [← shown, view_size]
  simp only [lookupFile, Vol.lookup, typeSame]
  by_cases dir : (v.node pinum.toNat).type = ufsDirectory
  · simp only [dir, ne_eq, not_true, ↓reduceIte]
    have size := ok.size
    have blocks := toNat_maxBlocks (readInode s pinum (junk.call 0)).2.size (by omega)
    rw [sizeSame] at blocks
    have good : ∀ k, 0 ≤ k → k < 0 + (maxBlocks (readInode s pinum (junk.call 0)).2.size).toNat →
        (view (readInode s pinum (junk.call 0)).2).direct k =
            some ((view (readInode s pinum (junk.call 0)).2).at' k) ∧
          g.dataRegionAddr ≤ (view (readInode s pinum (junk.call 0)).2).at' k ∧
          (view (readInode s pinum (junk.call 0)).2).at' k < g.totalBlocks := by
      intro k _ below
      rw [shown]
      have mapped := ok.scanned dir (i := k) (by simp only [Node.blocksUsed]; omega)
      obtain ⟨_, block, bound, _, place⟩ := ok.pointer _ _ mapped
      exact ⟨mapped, by omega, by omega⟩
    have scanned := scanDir_sim sim short junk
      (maxBlocks (readInode s pinum (junk.call 0)).2.size).toNat 0
      (readInodeEnd s pinum (junk.call 0)) (by omega) good
    rw [shown, ← List.range_eq_range', blocks] at scanned
    rw [blocks]
    exact scanned
  · simp only [dir, ne_eq, not_false_eq_true, ↓reduceIte]
    exact .missing
end Lookups

section Creating
variable {g : Geometry} {s : Serv} {v : Vol}

theorem makeDir_sim (sim : Sim g s v) (sound : Sound g v) {ninum : UInt32}
    (bit : v.inodeBit ninum.toNat = true) (pinum : UInt32) (junk : Junk) :
    (makeDir s ninum pinum junk).1.isSome =
        (v.makeDir g ninum.toNat pinum.toNat (junk.call 2).here).1 ∧
      Sim g (makeDir s ninum pinum junk).2
        (v.makeDir g ninum.toNat pinum.toNat (junk.call 2).here).2 := by
  have layout := g.layout
  have inside := sound.inodeBit_lt _ bit
  have shown := readInode_sim sim bit inside (junk.call 0)
  obtain ⟨word, sim1⟩ := allocDblk_sim sim sound.hghstAllocDblk_lt (junk.call 1)
  simp only [makeDir, Vol.makeDir]
  rcases allocDblk_cases sound.hghstAllocDblk_lt with ⟨full, none⟩ | ⟨v1, fresh, alloc, next⟩
  · rw [none] at word sim1
    simp only [word, none, blockWord, ↓reduceIte]
    exact ⟨rfl, sim1⟩
  · rw [fresh] at word sim1
    have counter := alloc.counter_lt
    obtain ⟨real, value⟩ := allocated_word alloc
    simp only [word, fresh, real, ↓reduceIte]
    have place : (blockWord (some (g.dataRegionAddr + v1.hghstAllocDblk)) * 4096).toNat =
        4096 * (g.dataRegionAddr + v1.hghstAllocDblk) + 0 := by
      rw [UInt32.toNat_mul, value]
      simp only [UInt32.reduceToNat]
      omega
    have written := fswrite_sim sim1 (by omega) (by omega) (show 0 + 4096 ≤ 4096 by decide) place
      (freshDir (junk.call 2).here ninum pinum)
    have stored := writeInode_sim written inside { (readInode s ninum (junk.call 0)).2.setPtr 0
          (blockWord (some (g.dataRegionAddr + v1.hghstAllocDblk))) with size := 64 }
    rw [view_resize, view_setPtr _ _ _ (by decide) real, shown, value] at stored
    rw [UInt32.ofNat_toNat, UInt32.ofNat_toNat, alloc.node]
    exact ⟨rfl, stored⟩

theorem addEntry_sim (sim : Sim g s v) (sound : Sound g v)
    (bit : v.inodeBit pinum.toNat = true) (ninum : UInt32) (name : List UInt8) (junk : Junk) :
    Sim g (addEntry s pinum ninum name junk)
      (v.addEntry g pinum.toNat ninum.toNat name (junk.call 1).here) := by
  have shown := readInode_sim sim bit (sound.inodeBit_lt _ bit) (junk.call 0)
  have size : (readInode s pinum (junk.call 0)).2.size.toNat = (v.node pinum.toNat).size := by
    rw [← shown, view_size]
  have written := (writeFile_sim sim sound bit (strcpy (putWord (junk.call 1).here 28 ninum) 0 name)
    (readInode s pinum (junk.call 0)).2.size 32 ufsDirectory (by decide) (junk.call 2)).2
  rw [size] at written
  rw [Vol.addEntry, Vol.newEntry, UInt32.ofNat_toNat]
  exact written

def creatChance (junk : Junk) (refuse : Bool) : Chance :=
  ⟨((junk.call 4).call 1).here, ((junk.call 3).call 2).here, refuse⟩

theorem creatFile_sim (sim : Sim g s v) (sound : Sound g v)
    (bit : v.inodeBit pinum.toNat = true) (type : UInt32)
    (short : name.length ≤ 28) (junk : Junk) (refuse : Bool) :
    (creatFile s pinum type name junk).1 =
        Vol.code (v.creatFile g pinum.toNat type name (creatChance junk refuse)).1 ∧
      Sim g (creatFile s pinum type name junk).2
        (v.creatFile g pinum.toNat type name (creatChance junk refuse)).2 := by
  have layout := g.layout
  have shown := readInode_sim sim bit (sound.inodeBit_lt _ bit) (junk.call 0)
  have typeSame : (readInode s pinum (junk.call 0)).2.type = (v.node pinum.toNat).type := by
    rw [← shown, view_type]
  have located := lookupFile_sim sim sound bit short (junk.call 1)
  have found := located.isSome
  simp only [creatFile, Vol.creatFile, typeSame, found]
  by_cases file : (v.node pinum.toNat).type ≠ ufsDirectory
  · simp only [file, ne_eq, not_false_eq_true, ↓reduceIte]
    exact ⟨rfl, sim⟩
  · by_cases present : (v.lookup pinum.toNat name).isSome = true
    · simp only [file, present, ↓reduceIte]
      exact ⟨rfl, sim⟩
    · simp only [file, present, ↓reduceIte, Bool.false_eq_true]
      obtain ⟨word, sim1⟩ := newInode_sim sim sound.highestInode_lt type (junk.call 2)
      rcases newInode_cases sound type with ⟨full, none⟩ | ⟨room, taken⟩
      · rw [none] at word sim1
        simp only [word, none, blockWord, ↓reduceIte]
        exact ⟨rfl, sim1⟩
      · have sound1 := newInode_sound sound room type
        have result : v.newInode g type = (some (v.highestInode + 1), (v.newInode g type).2) := by
          rw [taken]
        have bits : (v.newInode g type).2.inodeBit pinum.toNat = true ∧
            (v.newInode g type).2.inodeBit (v.highestInode + 1) = true := by
          rw [taken]
          by_cases new : pinum.toNat = v.highestInode + 1
          · simp [new]
          · simp [new, bit]
        rw [result] at word
        have real : blockWord (some (v.highestInode + 1)) ≠ minusOne := blockWord_ne (by omega)
        have value : (blockWord (some (v.highestInode + 1))).toNat = v.highestInode + 1 :=
          toNat_ofNat_lt (by omega)
        rw [result]
        simp only [word, real, ↓reduceIte]
        by_cases isDir : type = ufsDirectory
        · simp only [isDir, ↓reduceIte]
          rw [isDir] at sim1 sound1 bits
          have made := @makeDir_sim g _ _ sim1 sound1 (blockWord (some (v.highestInode + 1)))
            (by rw [value]; exact bits.2) pinum (junk.call 3)
          have sound2 := makeDir_sound sound1 bits.2 pinum.toNat ((junk.call 3).call 2).here
          have bit2 : ((v.newInode g ufsDirectory).2.makeDir g (v.highestInode + 1) pinum.toNat
              ((junk.call 3).call 2).here).2.inodeBit pinum.toNat = true := by
            rw [makeDir_inodeBit sound1]
            exact bits.1
          rw [value] at made
          simp only [creatChance]
          -- from here on only the two results of `makeDir` matter
          generalize (v.newInode g ufsDirectory).2.makeDir g (v.highestInode + 1) pinum.toNat
            ((junk.call 3).call 2).here = made' at made sound2 bit2 ⊢
          generalize makeDir (newInode s ufsDirectory (junk.call 2)).2
            (blockWord (some (v.highestInode + 1))) pinum (junk.call 3) = result at made ⊢
          obtain ⟨same, sim2⟩ := made
          obtain ⟨done, v2⟩ := made'
          obtain ⟨made, s2⟩ := result
          cases made with
          | none =>
            simp only [Option.isSome_none] at same
            subst same
            exact ⟨rfl, sim2⟩
          | some _ =>
            simp only [Option.isSome_some] at same
            subst same
            have added := addEntry_sim sim2 sound2 bit2 (blockWord (some (v.highestInode + 1)))
              name (junk.call 4)
            rw [value] at added
            dsimp only
            exact ⟨rfl, added⟩
        · simp only [isDir, ↓reduceIte, creatChance]
          have added := addEntry_sim sim1 sound1 bits.1 (blockWord (some (v.highestInode + 1)))
            name (junk.call 4)
          rw [value] at added
          exact ⟨rfl, added⟩
end Creating

section Unlinking
variable {g : Geometry} {s : Serv} {v : Vol}

theorem overwrite_congr (store source source' : Bytes) (addr count : Nat)
    (same : ∀ index < count, source index = source' index) :
    overwrite store addr count source = overwrite store addr count source' := by
  funext index
  by_cases hit : addr ≤ index ∧ index < addr + count
  · rw [overwrite_inside hit.1 hit.2, overwrite_inside hit.1 hit.2]
    exact same _ (by omega)
  · rw [overwrite_outside (by omega), overwrite_outside (by omega)]

theorem clearedEntry_congr {de de' : Bytes} (same : ∀ index < 32, de index = de' index)
    (index : Nat) (small : index < 32) :
    Vol.clearedEntry de index = Vol.clearedEntry de' index := by
  by_cases inum : 28 ≤ index
  · simp only [Vol.clearedEntry, putWord]
    rw [overwrite_inside inum (by omega), overwrite_inside inum (by omega)]
  · simp only [Vol.clearedEntry]
    rw [putWord_outside (by omega), putWord_outside (by omega)]
    simp only [strcpy]
    split
    · rfl
    · exact same index small

/-- The loop that assigns stops at once when the first pointer is there. -/
theorem fixDirect_first {pnd : Inode} {block : UInt32} (mapped : pnd.ptr 0 ≠ minusOne)
    (real : block ≠ 0) : fixDirect block 30 0 pnd = (0, pnd.setPtr 0 block) := by
  simp [fixDirect, mapped, real]

theorem shrinkDir_sim (sim : Sim g s v) {pinum addr : UInt32}
    (bit : v.inodeBit pinum.toNat = true) (inside : pinum.toNat < g.numInodes) {b j : Nat}
    (low : g.dataRegionAddr ≤ b) (high : b < g.totalBlocks) (slot : j < 128)
    (place : addr.toNat = 4096 * b + 32 * j) (mapped : (v.node pinum.toNat).direct 0 ≠ none)
    (junk : Junk) :
    Sim g (shrinkDir s pinum addr junk) (v.setNode pinum.toNat
      { (v.node pinum.toNat).setPtr 0 b with size := min (32 * j) (v.node pinum.toNat).size }) := by
  have layout := g.layout
  have shown := readInode_sim sim bit inside junk
  have block : (addr / 4096).toNat = b := by
    rw [toNat_div_block]
    omega
  have real : addr / 4096 ≠ 0 := by
    intro zero
    rw [zero] at block
    simp only [UInt32.reduceToNat] at block
    omega
  have notMinus : addr / 4096 ≠ minusOne := by
    intro same
    rw [same] at block
    simp only [minusOne, UInt32.reduceToNat] at block
    omega
  have first : (readInode s pinum junk).2.ptr 0 ≠ minusOne := by
    intro same
    apply mapped
    rw [← shown, view_direct, if_pos same]
  have offset : (UInt32.ofNat 0 * 4096 + addr % 4096).toNat = 32 * j := by
    rw [UInt32.toNat_add, UInt32.toNat_mul, toNat_mod_block]
    simp only [UInt32.reduceOfNat, UInt32.reduceToNat]
    omega
  simp only [shrinkDir, fixDirect_first first real]
  have stored := writeInode_sim sim inside { (readInode s pinum junk).2.setPtr 0 (addr / 4096) with
      size := if UInt32.ofNat 0 * 4096 + addr % 4096 <
          ((readInode s pinum junk).2.setPtr 0 (addr / 4096)).size
        then UInt32.ofNat 0 * 4096 + addr % 4096
        else ((readInode s pinum junk).2.setPtr 0 (addr / 4096)).size }
  have size : (if UInt32.ofNat 0 * 4096 + addr % 4096 <
      ((readInode s pinum junk).2.setPtr 0 (addr / 4096)).size
        then UInt32.ofNat 0 * 4096 + addr % 4096
        else ((readInode s pinum junk).2.setPtr 0 (addr / 4096)).size).toNat =
      min (32 * j) (v.node pinum.toNat).size := by
    rw [← shown, view_size, Inode.setPtr_size]
    split
    · rename_i smaller
      rw [UInt32.lt_iff_toNat_lt, offset] at smaller
      omega
    · rename_i larger
      rw [UInt32.lt_iff_toNat_lt, offset] at larger
      omega
  rw [view_resize, size, view_setPtr _ _ _ (by decide) notMinus, shown, block] at stored
  exact stored

theorem unlinkFile_sim (sim : Sim g s v) (sound : Sound g v)
    (bit : v.inodeBit pinum.toNat = true) (short : name.length ≤ 28)
    (junk : Junk) :
    ∃ refuse, (unlinkFile s pinum name junk).1 = Vol.code (v.unlinkFile pinum.toNat name refuse).1 ∧
      Sim g (unlinkFile s pinum name junk).2 (v.unlinkFile pinum.toNat name refuse).2 ∧
      ∀ inum, v.lookupInum pinum.toNat name = some inum → v.inodeBit inum.toNat = true →
        refuse = decide ((v.node inum.toNat).type = ufsDirectory ∧
          64 < (v.node inum.toNat).size) := by
  have inside := sound.inodeBit_lt _ bit
  have ok := sound.node _ bit
  have located := lookupFile_sim sim sound bit short (junk.call 0)
  cases slot : v.lookup pinum.toNat name with
  | none =>
    rw [slot] at located
    have result := located.of_none
    have answer : unlinkFile s pinum name junk = (minusOne, s) := by
      unfold unlinkFile
      rw [result]
    have same : v.unlinkFile pinum.toNat name false = (false, v) := by
      simp only [Vol.unlinkFile, slot]
    refine ⟨false, ?_⟩
    rw [answer, same]
    refine ⟨rfl, sim, ?_⟩
    intro inum impossible
    simp [Vol.lookupInum, slot] at impossible
  | some found =>
    obtain ⟨i, j⟩ := found
    rw [slot] at located
    obtain ⟨dir, scanned, small, hit⟩ := lookup_found slot
    have mapped := ok.scanned dir scanned
    obtain ⟨_, k, bound, _, data⟩ := ok.pointer _ _ mapped
    have low : g.dataRegionAddr ≤ (v.node pinum.toNat).at' i := by omega
    have high : (v.node pinum.toNat).at' i < g.totalBlocks := by
      have layout := g.layout
      omega
    have firstMapped : (v.node pinum.toNat).direct 0 ≠ none := by
      rw [ok.scanned dir (i := 0) (by omega)]
      exact Option.some_ne_none _
    obtain ⟨de, addr, result, place, bytes⟩ := located.of_some
    have inum : wordAt de 28 = v.entryInum ((v.node pinum.toNat).at' i) j := by
      rw [Vol.entryInum]
      apply wordAt_congr
      intro index inside
      exact bytes _ (by omega)
    have used : wordAt de 28 ≠ minusOne := by
      rw [inum]
      simp only [Vol.hit, Bool.and_eq_true, bne_iff_ne, ne_eq] at hit
      exact hit.2
    -- an entry may name a free inode, whose node the volume does not have: then the
    -- refusal is a choice, and `known` fixes it for all others
    refine ⟨decide ((readInode s (wordAt de 28) (junk.call 1)).2.type = ufsDirectory ∧
      (readInode s (wordAt de 28) (junk.call 1)).2.size > 64), ?_⟩
    have known : ∀ inum, v.lookupInum pinum.toNat name = some inum → v.inodeBit inum.toNat = true →
        decide ((readInode s (wordAt de 28) (junk.call 1)).2.type = ufsDirectory ∧
          (readInode s (wordAt de 28) (junk.call 1)).2.size > 64) =
        decide ((v.node inum.toNat).type = ufsDirectory ∧ 64 < (v.node inum.toNat).size) := by
      intro other named allocated
      simp only [Vol.lookupInum, slot, Option.map_some, Option.some.injEq] at named
      rw [← inum] at named
      subst named
      have node := readInode_sim sim allocated (sound.inodeBit_lt _ allocated) (junk.call 1)
      rw [← node, view_type, view_size]
      simp only [gt_iff_lt, UInt32.lt_iff_toNat_lt, UInt32.reduceToNat]
    have answer : unlinkFile s pinum name junk = unlinkEntry s pinum de addr junk := by
      unfold unlinkFile
      rw [result]
    rw [answer]
    simp only [unlinkEntry, Vol.unlinkFile, slot, used, ne_eq, not_false_eq_true, ↓reduceIte]
    by_cases refuse : (readInode s (wordAt de 28) (junk.call 1)).2.type = ufsDirectory ∧
      (readInode s (wordAt de 28) (junk.call 1)).2.size > 64
    · simp only [refuse] at known ⊢
      exact ⟨rfl, sim, known⟩
    · simp only [refuse, decide_false, ↓reduceIte, Bool.false_eq_true] at known ⊢
      have cleared := fswrite_sim sim low high
        (show 32 * j + 32 ≤ 4096 by omega) place (Vol.clearedEntry de)
      have same : v.putBlock ((v.node pinum.toNat).at' i) (32 * j) 32 (Vol.clearedEntry de) =
          v.putBlock ((v.node pinum.toNat).at' i) (32 * j) 32
            (Vol.clearedEntry (v.entry ((v.node pinum.toNat).at' i) j)) := by
        rw [Vol.putBlock, Vol.putBlock, overwrite_congr _ _ _ _ _ (clearedEntry_congr bytes)]
      rw [same] at cleared
      refine ⟨rfl, ?_, known⟩
      exact shrinkDir_sim cleared bit inside low high small place firstMapped (junk.call 2)
end Unlinking

section Serving
variable {g : Geometry} {s : Serv} {v : Vol}

theorem toNat_readBlock (offset : UInt32) :
    29 < (wrap (signed offset / 4096)).toNat ↔ 29 < offset.toNat / 4096 := by
  have bound := offset.toNat_lt
  simp only [signed, wrap, UInt32.toNat_ofNat']
  split <;> omega

theorem toNat_readBlock_small (offset : UInt32) (small : offset.toNat / 4096 ≤ 29) :
    (wrap (signed offset / 4096)).toNat = offset.toNat / 4096 := by
  simp only [signed, wrap, UInt32.toNat_ofNat']
  split <;> omega

/-- A pointer of the inode and the optional block of the volume. -/
theorem ptr_eq_minusOne {ind : Inode} {i : Nat} :
    ind.ptr i = minusOne ↔ (view ind).direct i = none := by
  rw [view_direct]
  split
  · simp [*]
  · simp [*]

/-- `read_file` fails where the volume has nothing to read, and returns its
bytes where it has. -/
theorem readFile_sim (sim : Sim g s v) (sound : Sound g v)
    (bit : v.inodeBit inum.toNat = true) (buf : Bytes) (offset nbytes : UInt32)
    (small : nbytes.toNat ≤ 4096) (junk : Junk) :
    match v.readFile inum.toNat offset.toNat nbytes.toNat with
    | none => readFile s inum buf offset nbytes junk = (minusOne, buf)
    | some bytes => (readFile s inum buf offset nbytes junk).1 = 0 ∧
        ∀ index < nbytes.toNat, (readFile s inum buf offset nbytes junk).2 index = bytes index := by
  have layout := g.layout
  have ok := sound.node _ bit
  have shown := readInode_sim sim bit (sound.inodeBit_lt _ bit) (junk.call 0)
  have compare : nbytes ≤ 4096 - offset % 4096 ↔ nbytes.toNat ≤ 4096 - offset.toNat % 4096 := by
    rw [UInt32.le_iff_toNat_le, toNat_free]
  -- reading from a mapped block gives the bytes of the volume
  have block : ∀ i b (start : UInt32) pos count (into : Bytes),
      (v.node inum.toNat).direct i = some b → start.toNat + count ≤ 4096 →
      ∀ index < count,
        fsread s (lseek pos ((readInode s inum (junk.call 0)).2.ptr i * 4096 + start)) into
          count index = v.block b (start.toNat + index) := by
    intro i b start pos count into mapped fits index bound
    obtain ⟨_, k, inside, _, data⟩ := ok.pointer i b mapped
    have place := ptr_place (shown ▸ mapped) start (by omega)
    rw [lseek_low (by omega), fsread_inside sim (by omega) into bound, place, Nat.add_assoc]
    exact sim.shows'.block b (by omega) (by omega) _ (by omega)
  simp only [readFile, Vol.readFile, gt_iff_lt, toNat_readBlock]
  by_cases beyond : 29 < offset.toNat / 4096
  · simp only [beyond, ↓reduceIte]
  · simp only [beyond, ↓reduceIte, toNat_readBlock_small offset (by omega), compare,
      ptr_eq_minusOne, shown]
    by_cases short : nbytes.toNat ≤ 4096 - offset.toNat % 4096
    · simp only [short, ↓reduceIte]
      cases mapped : (v.node inum.toNat).direct (offset.toNat / 4096) with
      | none => simp only [Option.map_none, ↓reduceIte]
      | some b =>
        simp only [Option.map_some, reduceCtorEq, ↓reduceIte, true_and]
        intro index bound
        have bytes := fun pos => block _ b (offset % 4096) pos nbytes.toNat buf mapped
          (by rw [toNat_mod_block]; omega) index bound
        rw [toNat_mod_block] at bytes
        exact bytes _
    · simp only [short, ↓reduceIte]
      by_cases last : offset.toNat / 4096 = 29
      · simp only [last, ↓reduceIte]
      · simp only [last, ↓reduceIte]
        cases mapped : (v.node inum.toNat).direct (offset.toNat / 4096) with
        | none => simp only [Option.bind_none, true_or, ↓reduceIte]
        | some b =>
          cases mapped' : (v.node inum.toNat).direct (offset.toNat / 4096 + 1) with
          | none => simp only [Option.bind_some, Option.map_none, or_true, ↓reduceIte]
          | some b' =>
            simp only [Option.bind_some, Option.map_some, reduceCtorEq, or_self, ↓reduceIte,
              true_and]
            intro index bound
            have rest := @toNat_rest offset nbytes (by omega)
            rw [toNat_free]
            split
            · rename_i first
              have bytes := fun pos => block _ b (offset % 4096) pos
                (4096 - offset.toNat % 4096) buf mapped (by rw [toNat_mod_block]; omega) index
                first
              rw [toNat_mod_block] at bytes
              exact bytes _
            · rename_i second
              have bytes := fun pos into => block _ b' 0 pos
                (nbytes.toNat - (4096 - offset.toNat % 4096)) into mapped'
                (by simp only [UInt32.reduceToNat]; omega)
                (index - (4096 - offset.toNat % 4096)) (by omega)
              simp only [UInt32.add_zero, UInt32.reduceToNat, Nat.zero_add] at bytes
              rw [rest]
              exact bytes _ _

theorem Sim.answer (sim : Sim g s v) (code : UInt32) : Sim g (s.answer code) v :=
  ⟨sim.super, sim.shows', sim.highestInode, sim.hghstAllocDblk⟩

section
variable (sim : Sim g s v) (sound : Sound g v) (bit : v.inodeBit pinum.toNat = true)
  (short : name.length ≤ 28) (junk : Junk)
include sim sound bit short

theorem lookupFile_inum :
    (lookupFile s pinum name junk).map (fun found => wordAt found.1 28) =
      v.lookupInum pinum.toNat name := by
  have located := lookupFile_sim sim sound bit short junk
  unfold Vol.lookupInum
  cases slot : v.lookup pinum.toNat name with
  | none =>
    rw [slot] at located
    rw [located.of_none]
    rfl
  | some found =>
    obtain ⟨i, j⟩ := found
    rw [slot] at located
    obtain ⟨de, addr, result, _, bytes⟩ := located.of_some
    have inum : wordAt de 28 = v.entryInum ((v.node pinum.toNat).at' i) j :=
      wordAt_congr _ _ _ _ fun index inside => bytes _ (by omega)
    rw [result, Option.map_some, Option.map_some, inum]

theorem lookupCode_sim :
    lookupCode (lookupFile s pinum name junk) = (v.lookupInum pinum.toNat name).getD minusOne := by
  rw [← lookupFile_inum sim sound bit short junk]
  cases lookupFile s pinum name junk with
  | none | some => rfl
end

/-- Whether an unlink is refused is decided by the inode of the entry, if it is
an allocated one. -/
def Decides (v : Vol) (request : Request) (chance : Chance) : Prop :=
  ∀ pinum text inum, request = .unlink pinum text → v.lookupInum pinum.toNat text = some inum →
    v.inodeBit inum.toNat = true →
    chance.refuse = decide ((v.node inum.toNat).type = ufsDirectory ∧
      64 < (v.node inum.toNat).size)

/-- Each request on the server is the same request on the volume. -/
theorem serve_sim (sim : Sim g s v) (sound : Sound g v) {request : Request}
    (admissible : Admissible v request) (junk : Junk) :
    ∃ chance, replyCode s request junk = (v.serve g request chance).1 ∧
      Sim g (serve s request junk) (v.serve g request chance).2 ∧ Decides v request chance := by
  obtain ⟨allocated, small, short⟩ := admissible
  have any : ∀ refuse, (∀ pinum text, request ≠ .unlink pinum text) →
      Decides v request (creatChance junk refuse) := by
    intro refuse other pinum text inum unlink
    exact absurd unlink (other pinum text)
  cases request with
  | lookup pinum text =>
    simp only [inode, name] at allocated short
    refine ⟨creatChance junk false, ?_, sim.answer _, any _ (by simp)⟩
    simpa only [replyCode, serve, Vol.serve, Serv.answer] using
      lookupCode_sim sim sound allocated short junk
  | stat inum =>
    exact ⟨creatChance junk false, rfl, ⟨sim.super, sim.shows', sim.highestInode,
      sim.hghstAllocDblk⟩, any _ (by simp)⟩
  | write inum buf offset nbytes =>
    simp only [inode, length] at allocated small
    obtain ⟨code, written⟩ := writeFile_sim sim sound allocated buf offset nbytes ufsRegularFile
      small junk
    refine ⟨creatChance junk false, ?_, ?_, any _ (by simp)⟩
    · simpa only [replyCode, serve, Vol.serve, Serv.answer] using code
    · simpa only [serve, Vol.serve] using written.answer _
  | read inum offset nbytes =>
    simp only [inode, length] at allocated small
    refine ⟨creatChance junk false, ?_, ⟨sim.super, sim.shows', sim.highestInode,
      sim.hghstAllocDblk⟩, any _ (by simp)⟩
    have read := readFile_sim sim sound allocated s.rx.buf offset nbytes small junk
    change (readFile s inum s.rx.buf offset nbytes junk).1 =
      Vol.code (v.readFile inum.toNat offset.toNat nbytes.toNat).isSome
    cases bytes : v.readFile inum.toNat offset.toNat nbytes.toNat with
    | none =>
      rw [bytes] at read
      simp only [read]
      rfl
    | some content =>
      rw [bytes] at read
      exact read.1
  | creat pinum type text =>
    simp only [inode, name] at allocated short
    obtain ⟨code, created⟩ := creatFile_sim sim sound allocated type short junk false
    refine ⟨creatChance junk false, ?_, ?_, any _ (by simp)⟩
    · simpa only [replyCode, serve, Vol.serve, Serv.answer] using code
    · simpa only [serve, Vol.serve] using created.answer _
  | unlink pinum text =>
    simp only [inode, name] at allocated short
    obtain ⟨refuse, code, unlinked, known⟩ := unlinkFile_sim sim sound allocated short junk
    refine ⟨creatChance junk refuse, ?_, ?_, ?_⟩
    · simpa only [replyCode, serve, Vol.serve, Serv.answer, creatChance] using code
    · simpa only [serve, Vol.serve, creatChance] using unlinked.answer _
    · intro pinum' text' inum same named bit
      cases same
      exact known inum named bit

theorem bitmap_bytes {bytes bytes' : Bytes} {base blocks : Nat}
    (same : ∀ n < 32768 * blocks, bitAt bytes base n = bitAt bytes' base n) (index : Nat)
    (inside : index < 4096 * blocks) : bytes (base + index) = bytes' (base + index) := by
  have word : wordAt bytes (base + 4 * (index / 4)) = wordAt bytes' (base + 4 * (index / 4)) := by
    apply word_of_bits
    intro n small
    have bit := same (32 * (index / 4) + n) (by omega)
    rw [bitAt, bitAt] at bit
    rwa [show (32 * (index / 4) + n) / 32 = index / 4 by omega,
      show (32 * (index / 4) + n) % 32 = n % 32 by omega] at bit
  have split : base + index = base + 4 * (index / 4) + index % 4 := by omega
  rw [split, ← byteAt_wordAt bytes _ (index % 4) (by omega), word,
    byteAt_wordAt bytes' _ (index % 4) (by omega)]

theorem nodeAt_byte (bytes : Bytes) (addr index : Nat) (inside : index < 128) :
    bytes (addr + index) = (nodeAt bytes addr).encode index := by
  rw [nodeAt, Inode.encode_decode _ _ inside]

theorem shows_unique {image image' : Image} (shown : Shows g image v) (shown' : Shows g image' v) :
    image = image' := by
  have layout := g.layout
  apply Image.ext_bytes
  · funext index
    by_cases boot : index < 4096
    · rw [shown.boot index boot, shown'.boot index boot]
    · by_cases inodeBits : index < 4096 * g.dataBitmapAddr
      · have same := bitmap_bytes (fun n bound =>
          (shown.inodeBit n bound).trans (shown'.inodeBit n bound).symm) (index - 4096) (by omega)
        rwa [show 4096 + (index - 4096) = index by omega] at same
      · by_cases dataBits : index < 4096 * g.inodeRegionAddr
        · have same := bitmap_bytes (fun n bound =>
            (shown.dataBit n bound).trans (shown'.dataBit n bound).symm)
            (index - 4096 * g.dataBitmapAddr) (by omega)
          rwa [show 4096 * g.dataBitmapAddr + (index - 4096 * g.dataBitmapAddr) = index by
            omega] at same
        · by_cases table : index < 4096 * g.dataRegionAddr
          · have slot : (index - 4096 * g.inodeRegionAddr) / 128 < 32 * g.inodeRegionLen := by
              omega
            have same := view_injective ((shown.node _ slot).trans (shown'.node _ slot).symm)
            have place : index = 4096 * g.inodeRegionAddr +
                128 * ((index - 4096 * g.inodeRegionAddr) / 128) +
                  (index - 4096 * g.inodeRegionAddr) % 128 := by omega
            rw [place, nodeAt_byte image.bytes _ _ (by omega), same,
              ← nodeAt_byte image'.bytes _ _ (by omega)]
          · by_cases data : index < 4096 * g.totalBlocks
            · have place : index = 4096 * (index / 4096) + index % 4096 := by omega
              rw [place, shown.block _ (by omega) (by omega) _ (by omega),
                shown'.block _ (by omega) (by omega) _ (by omega)]
            · rw [image.zero_beyond index (by rw [shown.length]; omega),
                image'.zero_beyond index (by rw [shown'.length]; omega)]
  · rw [shown.length, shown'.length]
end Serving

end OsProjects.VolumeRefinement
