import OsProjects.ByteStore

/-!
The on-disk format of `ufs.h` and the image `mkfs.c` writes. C structs live in
memory as bytes; `Inode` and `Super` are read out of them and written back in
the order of their fields. A C `int` computation is an `Int` computation cut to
32 bits, so the overflows of `mkfs` are in the model. Memory that nobody wrote
is a parameter.
-/

namespace OsProjects.UfsLayout

open ByteStore

/-- What unwritten memory holds. A path names the variable by the call sites
that lead to it, so that no two variables share their contents. -/
abbrev Junk := List Nat → Bytes

def Junk.call (junk : Junk) (site : Nat) : Junk := fun path => junk (site :: path)

def Junk.here (junk : Junk) : Bytes := junk []

/-- The value -1 in an `unsigned int`: no block, no inode, an unused entry. -/
def minusOne : UInt32 := 4294967295

def ufsDirectory : UInt32 := 0

def ufsRegularFile : UInt32 := 1

structure Inode where
  type : UInt32
  size : UInt32
  direct : Fin 30 → UInt32

namespace Inode

def decode (bytes : Bytes) : Inode :=
  ⟨wordAt bytes 0, wordAt bytes 4, fun index => wordAt bytes (8 + 4 * index)⟩

def encode (ind : Inode) : Bytes := fun index =>
  if index < 4 then byteAt ind.type index
  else if index < 8 then byteAt ind.size (index - 4)
  else if inside : (index - 8) / 4 < 30 then
    byteAt (ind.direct ⟨(index - 8) / 4, inside⟩) ((index - 8) % 4)
  else 0

def ptr (ind : Inode) (index : Nat) : UInt32 :=
  if inside : index < 30 then ind.direct ⟨index, inside⟩ else minusOne

def setPtr (ind : Inode) (index : Nat) (addr : UInt32) : Inode :=
  { ind with direct := fun other => if other.val = index then addr else ind.direct other }

def fresh (type : UInt32) : Inode := ⟨type, 0, fun _ => minusOne⟩

theorem ext_ptr {ind other : Inode} (types : ind.type = other.type) (sizes : ind.size = other.size)
    (ptrs : ∀ index < 30, ind.ptr index = other.ptr index) : ind = other := by
  cases ind with
  | mk type size direct =>
    cases other with
    | mk type' size' direct' =>
      simp only at types sizes
      subst types sizes
      congr 1
      funext index
      simpa [ptr] using ptrs index.val index.isLt

@[simp] theorem setPtr_type (ind : Inode) (index : Nat) (addr : UInt32) :
    (ind.setPtr index addr).type = ind.type := rfl

@[simp] theorem setPtr_size (ind : Inode) (index : Nat) (addr : UInt32) :
    (ind.setPtr index addr).size = ind.size := rfl

theorem ptr_setPtr (ind : Inode) (index other : Nat) (addr : UInt32) (inside : other < 30) :
    (ind.setPtr index addr).ptr other = if other = index then addr else ind.ptr other := by
  simp [ptr, setPtr, inside]

@[simp] theorem ptr_size (ind : Inode) (size : UInt32) (index : Nat) :
    ({ ind with size := size } : Inode).ptr index = ind.ptr index := rfl

@[simp] theorem fresh_type (type : UInt32) : (fresh type).type = type := rfl

@[simp] theorem fresh_size (type : UInt32) : (fresh type).size = 0 := rfl

@[simp] theorem ptr_fresh (type : UInt32) (index : Nat) : (fresh type).ptr index = minusOne := by
  simp [ptr, fresh]

theorem ptr_beyond (ind : Inode) (index : Nat) (beyond : 30 ≤ index) :
    ind.ptr index = minusOne := by
  have outside : ¬ index < 30 := by omega
  simp [ptr, outside]

theorem decode_congr (bytes bytes' : Bytes) (same : ∀ index < 128, bytes index = bytes' index) :
    decode bytes = decode bytes' := by
  have words : ∀ addr, addr + 4 ≤ 128 → wordAt bytes addr = wordAt bytes' addr := by
    intro addr inside
    exact wordAt_congr _ _ _ _ fun index small => same _ (by omega)
  have pointers : (fun index : Fin 30 => wordAt bytes (8 + 4 * index)) =
      fun index : Fin 30 => wordAt bytes' (8 + 4 * index) := by
    funext index
    exact words _ (by omega)
  simp only [decode, words 0 (by omega), words 4 (by omega), pointers]

theorem decode_encode (ind : Inode) : decode (encode ind) = ind := by
  have type : wordAt (encode ind) 0 = ind.type := by
    apply wordAt_of_bytes
    intro index small
    simp [encode, small]
  have size : wordAt (encode ind) 4 = ind.size := by
    apply wordAt_of_bytes
    intro index small
    have second : ¬ 4 + index < 4 := by omega
    have inside : 4 + index < 8 := by omega
    simp [encode, inside]
  have direct : (fun index : Fin 30 => wordAt (encode ind) (8 + 4 * index)) = ind.direct := by
    funext slot
    apply wordAt_of_bytes
    intro index small
    have notType : ¬ 8 + 4 * slot.val + index < 4 := by omega
    have notSize : ¬ 8 + 4 * slot.val + index < 8 := by omega
    have position : (8 + 4 * slot.val + index - 8) / 4 = slot.val := by omega
    have offset : (8 + 4 * slot.val + index - 8) % 4 = index := by omega
    simp [encode, notType, notSize, position, offset]
  rw [decode, type, size, direct]

theorem encode_decode (bytes : Bytes) (index : Nat) (inside : index < 128) :
    encode (decode bytes) index = bytes index := by
  unfold encode decode
  split
  · rename_i first
    rw [byteAt_wordAt _ _ _ first, Nat.zero_add]
  · split
    · rw [byteAt_wordAt _ _ _ (by omega)]
      congr 1
      omega
    · split
      · rw [byteAt_wordAt _ _ _ (by omega)]
        congr 1
        dsimp only
        omega
      · omega
end Inode

structure Super where
  inodeBitmapAddr : UInt32
  inodeBitmapLen : UInt32
  dataBitmapAddr : UInt32
  dataBitmapLen : UInt32
  inodeRegionAddr : UInt32
  inodeRegionLen : UInt32
  dataRegionAddr : UInt32
  dataRegionLen : UInt32
  numInodes : UInt32
  numData : UInt32

namespace Super

def ofWords (word : Nat → UInt32) : Super :=
  ⟨word 0, word 1, word 2, word 3, word 4, word 5, word 6, word 7, word 8, word 9⟩

def decode (bytes : Bytes) : Super := ofWords fun slot => wordAt bytes (4 * slot)

def words (super : Super) : List UInt32 :=
  [super.inodeBitmapAddr, super.inodeBitmapLen, super.dataBitmapAddr, super.dataBitmapLen,
    super.inodeRegionAddr, super.inodeRegionLen, super.dataRegionAddr, super.dataRegionLen,
    super.numInodes, super.numData]

def encode (super : Super) : Bytes := fun index =>
  byteAt ((super.words[index / 4]?).getD 0) (index % 4)

theorem wordAt_encode (super : Super) (slot : Nat) :
    wordAt (encode super) (4 * slot) = (super.words[slot]?).getD 0 := by
  apply wordAt_of_bytes
  intro index small
  have position : (4 * slot + index) / 4 = slot := by omega
  have offset : (4 * slot + index) % 4 = index := by omega
  simp [encode, position, offset]

theorem decode_congr (bytes bytes' : Bytes) (same : ∀ index < 40, bytes index = bytes' index) :
    decode bytes = decode bytes' := by
  have words : ∀ slot < 10, wordAt bytes (4 * slot) = wordAt bytes' (4 * slot) := by
    intro slot inside
    exact wordAt_congr _ _ _ _ fun index small => same _ (by omega)
  simp only [decode, ofWords, words 0 (by decide), words 1 (by decide), words 2 (by decide),
    words 3 (by decide), words 4 (by decide), words 5 (by decide), words 6 (by decide),
    words 7 (by decide), words 8 (by decide), words 9 (by decide)]

theorem decode_encode (super : Super) : decode (encode super) = super := by
  simp only [decode, wordAt_encode]
  rfl
end Super

/-- An image file. Its bytes are zero behind the end, as the file system fills
the gap when a write extends it. -/
structure Image where
  bytes : Bytes
  length : Nat
  zero_beyond : ∀ index, length ≤ index → bytes index = 0

namespace Image

theorem ext_bytes {image other : Image} (bytes : image.bytes = other.bytes)
    (length : image.length = other.length) : image = other := by
  cases image
  cases other
  simp only at bytes length
  subst bytes length
  rfl

def empty : Image := ⟨fun _ => 0, 0, fun _ _ => rfl⟩

def put (image : Image) (addr count : Nat) (source : Bytes) : Image where
  bytes := overwrite image.bytes addr count source
  length := if count = 0 then image.length else max image.length (addr + count)
  zero_beyond := by
    intro index beyond
    split at beyond
    · rename_i none
      rw [overwrite_outside (by omega)]
      exact image.zero_beyond index beyond
    · rw [overwrite_outside (by omega)]
      exact image.zero_beyond index (by omega)

@[simp] theorem put_bytes (image : Image) (addr count : Nat) (source : Bytes) :
    (image.put addr count source).bytes = overwrite image.bytes addr count source := rfl

theorem put_length (image : Image) (addr count : Nat) (source : Bytes)
    (inside : addr + count ≤ image.length) :
    (image.put addr count source).length = image.length := by
  simp only [put]
  split <;> omega
end Image

/-- An `int` result: computed exactly, kept modulo 2^32. -/
def int (value : Int) : Int := signed (wrap value)

/-- A directory block with `.` and `..` only; the names of unused entries stay
as the stack has them. -/
def freshEntries (block : Bytes) : Nat → Bytes
  | 0 => block
  | left + 1 => putWord (freshEntries block left) (32 * (left + 2) + 28) minusOne

def freshDir (junk : Bytes) (self parent : UInt32) : Bytes :=
  let block := putWord (strcpy junk 0 [46]) 28 self
  let block := putWord (strcpy block 32 [46, 46]) 60 parent
  freshEntries block 126

section Mkfs
variable (numInodes numData : Int)

def inodeBitmapLen : Int := numInodes / 32768 + if numInodes % 32768 ≠ 0 then 1 else 0

def dataBitmapLen : Int := numData / 32768 + if numData % 32768 ≠ 0 then 1 else 0

def totalInodeBytes : Int := int (numInodes * 128)

def inodeRegionLen : Int :=
  (totalInodeBytes numInodes).tdiv 4096 +
    if (totalInodeBytes numInodes).tmod 4096 ≠ 0 then 1 else 0

def dataBitmapAddr : Int := int (1 + inodeBitmapLen numInodes)

def inodeRegionAddr : Int := int (dataBitmapAddr numInodes + dataBitmapLen numData)

def dataRegionAddr : Int := int (inodeRegionAddr numInodes numData + inodeRegionLen numInodes)

def totalBlocks : Int :=
  int (1 + inodeBitmapLen numInodes + dataBitmapLen numData + inodeRegionLen numInodes + numData)

def mkfsSuper : Super where
  inodeBitmapAddr := 1
  inodeBitmapLen := wrap (inodeBitmapLen numInodes)
  dataBitmapAddr := wrap (dataBitmapAddr numInodes)
  dataBitmapLen := wrap (dataBitmapLen numData)
  inodeRegionAddr := wrap (inodeRegionAddr numInodes numData)
  inodeRegionLen := wrap (inodeRegionLen numInodes)
  dataRegionAddr := wrap (dataRegionAddr numInodes numData)
  dataRegionLen := wrap numData
  numInodes := wrap numInodes
  numData := wrap numData

def pwrite (image : Image) (source : Bytes) (count : Nat) (offset : Int) : Option Image :=
  if offset < 0 then none else some (image.put offset.toNat count source)

def zeroOut : Nat → Int → Image → Option Image
  | 0, _, image => some image
  | left + 1, index, image =>
    (pwrite image (fun _ => 0) 4096 (int (index * 4096))).bind (zeroOut left (index + 1))

def firstAllocated : Bytes := putWord (fun _ => 0) 0 2147483648

def rootInode : Inode :=
  ⟨ufsDirectory, 64, fun index =>
    if index.val = 0 then wrap (dataRegionAddr numInodes numData) else minusOne⟩

/-- `none` is a failed assertion or an exit after a failed write. -/
def mkfs (junk : Junk) : Option Image :=
  if numInodes < 32 ∨ numData < 32 then none
  else do
    let image ← pwrite Image.empty (mkfsSuper numInodes numData).encode 40 0
    let image ← zeroOut (totalBlocks numInodes numData - 1).toNat 1 image
    let image ← pwrite image firstAllocated 4096 (int (1 * 4096))
    let image ← pwrite image firstAllocated 4096 (int (dataBitmapAddr numInodes * 4096))
    let itable := overwrite (junk.call 0).here 0 128 (rootInode numInodes numData).encode
    let image ← pwrite image itable 4096 (int (inodeRegionAddr numInodes numData * 4096))
    let parent := freshDir (junk.call 1).here 0 0
    pwrite image parent 4096 (int (dataRegionAddr numInodes numData * 4096))
end Mkfs

end OsProjects.UfsLayout
