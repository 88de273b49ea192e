import OsProjects.FileServer

/-!
The file system without addresses. A volume has bitmaps as predicates, inodes
with optional pointers and blocks of bytes, and the operations of the server
act on these directly. Block numbers stay absolute, as the direct pointers hold
them. What the C code takes from unwritten memory, and the answer of a check on
an inode that may not exist, is a `Chance`.
-/

namespace OsProjects.Volume

open ByteStore UfsLayout FileServer

/-- A file system whose image an `int` can address, with the numbers `mkfs`
asks for. -/
structure Geometry where
  numInodes : Nat
  numData : Nat
  enough_inodes : 32 ≤ numInodes
  enough_data : 32 ≤ numData
  fits : 4096 * (1 + (numInodes + 32767) / 32768 + (numData + 32767) / 32768 +
    (128 * numInodes + 4095) / 4096 + numData) ≤ 2147483648

namespace Geometry
variable (g : Geometry)

def inodeBitmapLen : Nat := (g.numInodes + 32767) / 32768

def dataBitmapLen : Nat := (g.numData + 32767) / 32768

def inodeRegionLen : Nat := (128 * g.numInodes + 4095) / 4096

def dataBitmapAddr : Nat := 1 + g.inodeBitmapLen

def inodeRegionAddr : Nat := g.dataBitmapAddr + g.dataBitmapLen

def dataRegionAddr : Nat := g.inodeRegionAddr + g.inodeRegionLen

def totalBlocks : Nat := g.dataRegionAddr + g.numData

/-- Everything the address computations need to know about the layout. -/
theorem layout :
    32 ≤ g.numInodes ∧ 32 ≤ g.numData ∧ g.numInodes ≤ 32768 * g.inodeBitmapLen ∧
      g.numData ≤ 32768 * g.dataBitmapLen ∧ g.numInodes ≤ 32 * g.inodeRegionLen ∧
      g.dataBitmapAddr = 1 + g.inodeBitmapLen ∧
      g.inodeRegionAddr = g.dataBitmapAddr + g.dataBitmapLen ∧
      g.dataRegionAddr = g.inodeRegionAddr + g.inodeRegionLen ∧
      g.totalBlocks = g.dataRegionAddr + g.numData ∧ 4096 * g.totalBlocks ≤ 2147483648 := by
  have fits := g.fits
  refine ⟨g.enough_inodes, g.enough_data, ?_, ?_, ?_, rfl, rfl, rfl, rfl, ?_⟩
  · simp only [inodeBitmapLen]
    omega
  · simp only [dataBitmapLen]
    omega
  · simp only [inodeRegionLen]
    omega
  · simp only [totalBlocks, dataRegionAddr, inodeRegionAddr, dataBitmapAddr, inodeBitmapLen,
      dataBitmapLen, inodeRegionLen]
    omega

def super : Super where
  inodeBitmapAddr := 1
  inodeBitmapLen := UInt32.ofNat g.inodeBitmapLen
  dataBitmapAddr := UInt32.ofNat g.dataBitmapAddr
  dataBitmapLen := UInt32.ofNat g.dataBitmapLen
  inodeRegionAddr := UInt32.ofNat g.inodeRegionAddr
  inodeRegionLen := UInt32.ofNat g.inodeRegionLen
  dataRegionAddr := UInt32.ofNat g.dataRegionAddr
  dataRegionLen := UInt32.ofNat g.numData
  numInodes := UInt32.ofNat g.numInodes
  numData := UInt32.ofNat g.numData
end Geometry

@[ext] structure Node where
  type : UInt32
  size : Nat
  direct : Nat → Option Nat

namespace Node

def setPtr (nd : Node) (index block : Nat) : Node :=
  { nd with direct := Function.update nd.direct index (some block) }

def fresh (type : UInt32) : Node := ⟨type, 0, fun _ => none⟩

def at' (nd : Node) (index : Nat) : Nat := (nd.direct index).getD 0

def blocksUsed (nd : Node) : Nat := (nd.size + 4095) / 4096

@[simp] theorem setPtr_type (nd : Node) (index block : Nat) :
    (nd.setPtr index block).type = nd.type := rfl

@[simp] theorem setPtr_size (nd : Node) (index block : Nat) :
    (nd.setPtr index block).size = nd.size := rfl

@[simp] theorem setPtr_same (nd : Node) (index block : Nat) :
    (nd.setPtr index block).direct index = some block := by
  simp [setPtr]

theorem setPtr_other {nd : Node} {index other : Nat} {block : Nat} (apart : other ≠ index) :
    (nd.setPtr index block).direct other = nd.direct other := by
  simp [setPtr, apart]
end Node

structure Vol where
  boot : Bytes
  inodeBit : Nat → Bool
  dataBit : Nat → Bool
  node : Nat → Node
  block : Nat → Bytes
  highestInode : Nat
  hghstAllocDblk : Nat

structure Chance where
  entry : Bytes
  dir : Bytes
  refuse : Bool

namespace Vol

def setNode (v : Vol) (n : Nat) (nd : Node) : Vol := { v with node := Function.update v.node n nd }

def putBlock (v : Vol) (b offset count : Nat) (source : Bytes) : Vol :=
  { v with block := Function.update v.block b (overwrite (v.block b) offset count source) }

def entry (v : Vol) (b j : Nat) : Bytes := fun index => v.block b (32 * j + index)

def entryInum (v : Vol) (b j : Nat) : UInt32 := wordAt (v.entry b j) 28

def hit (v : Vol) (name : List UInt8) (b j : Nat) : Bool :=
  streq (v.entry b j) 0 name && v.entryInum b j != minusOne

/-- Block index and entry of every slot of the first `blocks` blocks, in the
order of a scan. -/
def slots (blocks : Nat) : List (Nat × Nat) :=
  (List.range blocks).flatMap fun i => (List.range 128).map fun j => (i, j)

def findEntry (v : Vol) (nd : Node) (name : List UInt8) : Option (Nat × Nat) :=
  (slots nd.blocksUsed).find? fun slot => v.hit name (nd.at' slot.1) slot.2

def lookup (v : Vol) (p : Nat) (name : List UInt8) : Option (Nat × Nat) :=
  if (v.node p).type = ufsDirectory then v.findEntry (v.node p) name else none

def lookupInum (v : Vol) (p : Nat) (name : List UInt8) : Option UInt32 :=
  (v.lookup p name).map fun slot => v.entryInum ((v.node p).at' slot.1) slot.2

section Operations
variable (g : Geometry)

def newInode (v : Vol) (type : UInt32) : Option Nat × Vol :=
  if v.highestInode = g.numInodes - 1 then (none, v)
  else
    (some (v.highestInode + 1),
      { v with
        highestInode := v.highestInode + 1
        inodeBit := Function.update v.inodeBit (v.highestInode + 1) true
        node := Function.update v.node (v.highestInode + 1) (Node.fresh type) })

def allocDblk (v : Vol) : Option Nat × Vol :=
  if v.hghstAllocDblk = g.numData - 1 then (none, v)
  else
    (some (g.dataRegionAddr + (v.hghstAllocDblk + 1)),
      { v with
        hghstAllocDblk := v.hghstAllocDblk + 1
        dataBit := Function.update v.dataBit (v.hghstAllocDblk + 1) true })

def fillHoles : Nat → Vol → Node → Option Node × Vol
  | 0, v, nd => (some nd, v)
  | d + 1, v, nd =>
    match nd.direct d with
    | some _ => (some nd, v)
    | none =>
      match v.allocDblk g with
      | (none, v) => (none, v)
      | (some b, v) => fillHoles d v (nd.setPtr d b)

def grow (v : Vol) (n : Nat) (nd : Node) (last : Nat) : Vol :=
  v.setNode n { nd with size := max last nd.size }

def writeBlocks (v : Vol) (n : Nat) (buf : Bytes) (offset nbytes : Nat) (nd : Node) : Bool × Vol :=
  let v := v.setNode n nd
  if nbytes ≤ 4096 - offset % 4096 then
    (true, (v.putBlock (nd.at' (offset / 4096)) (offset % 4096) nbytes buf).grow n nd
      (offset + nbytes))
  else if offset / 4096 = 29 then (false, v)
  else
    match v.allocDblk g with
    | (none, v) => (false, v)
    | (some b, v) =>
      (true, ((v.putBlock (nd.at' (offset / 4096)) (offset % 4096) (4096 - offset % 4096)
        buf).putBlock b 0 (nbytes - (4096 - offset % 4096))
          fun index => buf (4096 - offset % 4096 + index)).grow n
            (nd.setPtr (offset / 4096 + 1) b) (offset + nbytes))

def writeFile (v : Vol) (n : Nat) (buf : Bytes) (offset nbytes : Nat) (type : UInt32) :
    Bool × Vol :=
  if (v.node n).type ≠ type ∨ 29 < offset / 4096 then (false, v)
  else
    match fillHoles g (offset / 4096 + 1) v (v.node n) with
    | (none, v) => (false, v)
    | (some nd, v) => v.writeBlocks g n buf offset nbytes nd

def makeDir (v : Vol) (n p : Nat) (junk : Bytes) : Bool × Vol :=
  match v.allocDblk g with
  | (none, v) => (false, v)
  | (some b, v) =>
    (true, (v.putBlock b 0 4096 (freshDir junk (UInt32.ofNat n) (UInt32.ofNat p))).setNode n
      { (v.node n).setPtr 0 b with size := 64 })

def newEntry (junk : Bytes) (n : Nat) (name : List UInt8) : Bytes :=
  strcpy (putWord junk 28 (UInt32.ofNat n)) 0 name

def addEntry (v : Vol) (p n : Nat) (name : List UInt8) (junk : Bytes) : Vol :=
  (v.writeFile g p (newEntry junk n name) (v.node p).size 32 ufsDirectory).2

def creatFile (v : Vol) (p : Nat) (type : UInt32) (name : List UInt8) (chance : Chance) :
    Bool × Vol :=
  if (v.node p).type ≠ ufsDirectory then (false, v)
  else if (v.lookup p name).isSome then (true, v)
  else
    match v.newInode g type with
    | (none, v) => (false, v)
    | (some n, v) =>
      if type = ufsDirectory then
        match v.makeDir g n p chance.dir with
        | (false, v) => (false, v)
        | (true, v) => (true, v.addEntry g p n name chance.entry)
      else (true, v.addEntry g p n name chance.entry)

def readFile (v : Vol) (n offset nbytes : Nat) : Option Bytes :=
  let nd := v.node n
  let i := offset / 4096
  let rest := 4096 - offset % 4096
  if 29 < i then none
  else if nbytes ≤ rest then
    (nd.direct i).map fun b index => v.block b (offset % 4096 + index)
  else if i = 29 then none
  else
    (nd.direct i).bind fun b => (nd.direct (i + 1)).map fun b' index =>
      if index < rest then v.block b (offset % 4096 + index) else v.block b' (index - rest)

def clearedEntry (de : Bytes) : Bytes := putWord (strcpy de 0 []) 28 minusOne

/-- Removal of the entry at slot `j` of block `b`: the first pointer of the
directory becomes `b`, and the size at most the offset of the slot in `b`. -/
def removeEntry (v : Vol) (p b j : Nat) : Vol :=
  (v.putBlock b (32 * j) 32 (clearedEntry (v.entry b j))).setNode p
    { (v.node p).setPtr 0 b with size := min (32 * j) (v.node p).size }

def unlinkFile (v : Vol) (p : Nat) (name : List UInt8) (refuse : Bool) : Bool × Vol :=
  match v.lookup p name with
  | none => (false, v)
  | some (i, j) => if refuse then (false, v) else (true, v.removeEntry p ((v.node p).at' i) j)

def code (ok : Bool) : UInt32 := if ok then 0 else minusOne

def serve (v : Vol) (request : Request) (chance : Chance) : UInt32 × Vol :=
  match request with
  | .lookup pinum name => ((v.lookupInum pinum.toNat name).getD minusOne, v)
  | .stat _ => (0, v)
  | .write inum buf offset nbytes =>
    let (ok, v) := v.writeFile g inum.toNat buf offset.toNat nbytes.toNat ufsRegularFile
    (code ok, v)
  | .read inum offset nbytes =>
    (code (v.readFile inum.toNat offset.toNat nbytes.toNat).isSome, v)
  | .creat pinum type name =>
    let (ok, v) := v.creatFile g pinum.toNat type name chance
    (code ok, v)
  | .unlink pinum name =>
    let (ok, v) := v.unlinkFile pinum.toNat name chance.refuse
    (code ok, v)
end Operations
end Vol

end OsProjects.Volume
