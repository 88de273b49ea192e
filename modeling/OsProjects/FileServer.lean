import OsProjects.UfsLayout

/-!
`filesystem/server.c`. The process globals, the open image and the reply packet
of `run_udp` are one record, and each function takes and returns it. Every
`fswrite` is also remembered in `pending` until the next `fsync`. Debug output
and the two functions that only print (`inode_dbg`, `dir_dbg`) are left out.
Numbers are `unsigned int` words: where C converts an `int` operand to
unsigned, the word is the same.

The address of an `fsread` is an `int`. Where it is negative `lseek` fails and the
file is read on from where the last call left it, so each function says where
that is. The words of the bitmaps and the super block are excepted: `mkfs` puts
them at the start of the image, where `lseek` does not fail.
-/

namespace OsProjects.FileServer

open ByteStore UfsLayout

structure FsWrite where
  addr : Nat
  count : Nat
  source : Bytes

/-- The reply packet `rx_pk`. It is never cleared between requests. -/
structure Reply where
  nodeNum : UInt32
  statType : UInt32
  statSize : UInt32
  buf : Bytes

structure Serv where
  image : Image
  super : Super
  highestInode : UInt32
  hghstAllocDblk : UInt32
  pending : List FsWrite
  rx : Reply

def lseek (pos : Nat) (addr : UInt32) : Nat := if addr.toNat < 2147483648 then addr.toNat else pos

/-- With the file at `start`; a read behind the end leaves the buffer as it was. -/
def fsread (s : Serv) (start : Nat) (buf : Bytes) (nbytes : Nat) : Bytes := fun index =>
  if index < nbytes ∧ start + index < s.image.length then s.image.bytes (start + index)
  else buf index

def fsreadEnd (s : Serv) (start nbytes : Nat) : Nat :=
  max start (min (start + nbytes) s.image.length)

def fswrite (s : Serv) (addr : UInt32) (buf : Bytes) (nbytes : Nat) : Serv :=
  -- all of a count that runs over the end of the memory behind `buf`, where `write` stops
  { s with
    image := s.image.put addr.toNat nbytes buf
    pending := s.pending ++ [⟨addr.toNat, nbytes, buf⟩] }

def mask (num : UInt32) : UInt32 := 1 <<< (31 - num % 32)

def bmaddr (start inum : UInt32) : UInt32 := start * 4096 + inum / 32 * 4

def inodeAddr (s : Serv) (inum : UInt32) : UInt32 := s.super.inodeRegionAddr * 4096 + inum * 128

/-- The check is a logical `&&`, so any bit of the bitmap word will do; and the
caller's pointer stays as it was, so a refused inode is read from fresh memory. -/
def readInode (s : Serv) (inum : UInt32) (junk : Junk) : UInt32 × Inode :=
  let word := (bmaddr s.super.inodeBitmapAddr inum).toNat
  let ibm := wordAt (fsread s word (junk.call 0).here 4) 0
  if ibm != 0 && mask inum != 0 then
    let start := lseek (fsreadEnd s word 4) (inodeAddr s inum)
    (0, Inode.decode (fsread s start junk.here 128))
  else (minusOne, Inode.decode junk.here)

def readInodeEnd (s : Serv) (inum : UInt32) (junk : Junk) : Nat :=
  let word := (bmaddr s.super.inodeBitmapAddr inum).toNat
  let pos := fsreadEnd s word 4
  if (readInode s inum junk).1 = 0 then fsreadEnd s (lseek pos (inodeAddr s inum)) 128 else pos

def writeInode (s : Serv) (inum : UInt32) (ind : Inode) : Serv :=
  fswrite s (inodeAddr s inum) ind.encode 128

def maxBlocks (size : UInt32) : UInt32 := wrap (-(-signed size / 4096))

/-- `direct[index]`; past the array C reads whatever memory follows it. -/
def directPtr (nd : Inode) (junk : Junk) (index : Nat) : UInt32 :=
  if index < 30 then nd.ptr index else wordAt junk.here (8 + 4 * index)

/-- The loop over the entries of one block; `de` is read into again and again. The
second result is where the file is left. -/
def scanBlock (s : Serv) (block : UInt32) (name : List UInt8) :
    Nat → Nat → Bytes → Nat → Option (Bytes × UInt32) × Nat
  | 0, _, _, pos => (none, pos)
  | left + 1, j, de, pos =>
    let deaddr := block * 4096 + UInt32.ofNat j * 32
    let start := lseek pos deaddr
    let de := fsread s start de 32
    let pos := fsreadEnd s start 32
    if streq de 0 name && wordAt de 28 != minusOne then (some (de, deaddr), pos)
    else scanBlock s block name left (j + 1) de pos

def scanDir (s : Serv) (nd : Inode) (name : List UInt8) (junk : Junk) :
    Nat → Nat → Nat → Option (Bytes × UInt32)
  | 0, _, _ => none
  | left + 1, i, pos =>
    match scanBlock s (directPtr nd (junk.call 0) i) name 128 0 ((junk.call 1).call i).here pos with
    | (some found, _) => some found
    | (none, pos) => scanDir s nd name junk left (i + 1) pos

def lookupFile (s : Serv) (pinum : UInt32) (name : List UInt8) (junk : Junk) :
    Option (Bytes × UInt32) :=
  let nd := (readInode s pinum (junk.call 0)).2
  if nd.type ≠ ufsDirectory then none
  else scanDir s nd name junk (maxBlocks nd.size).toNat 0 (readInodeEnd s pinum (junk.call 0))

def newInode (s : Serv) (type : UInt32) (junk : Junk) : UInt32 × Serv :=
  if s.highestInode = s.super.numInodes - 1 then (minusOne, s)
  else
    let s := { s with highestInode := s.highestInode + 1 }
    let addr := bmaddr s.super.inodeBitmapAddr s.highestInode
    let bits := wordAt (fsread s addr.toNat junk.here 4) 0
    let s := fswrite s addr (byteAt (bits ||| mask s.highestInode)) 4
    (s.highestInode, writeInode s s.highestInode (Inode.fresh type))

def allocDblk (s : Serv) (junk : Junk) : UInt32 × Serv :=
  if s.hghstAllocDblk = s.super.dataRegionLen - 1 then (minusOne, s)
  else
    let s := { s with hghstAllocDblk := s.hghstAllocDblk + 1 }
    let addr := bmaddr s.super.dataBitmapAddr s.hghstAllocDblk
    let bits := wordAt (fsread s addr.toNat junk.here 4) 0
    let s := fswrite s addr (byteAt (bits ||| mask s.hghstAllocDblk)) 4
    (s.super.dataRegionAddr + s.hghstAllocDblk, s)

/-- The loop `while (d >= 0 && direct[d] == -1)`, with `d + 1` counting down;
`none` when a block is missing. -/
def fillHoles (junk : Junk) : Nat → Serv → Inode → Option Inode × Serv
  | 0, s, fnd => (some fnd, s)
  | d + 1, s, fnd =>
    if fnd.ptr d = minusOne then
      let (ndb, s) := allocDblk s (junk.call d)
      if ndb = minusOne then (none, s) else fillHoles junk d s (fnd.setPtr d ndb)
    else (some fnd, s)

def growFile (s : Serv) (inum : UInt32) (fnd : Inode) (offset nbytes : UInt32) : Serv :=
  writeInode s inum
    { fnd with size := if offset + nbytes > fnd.size then offset + nbytes else fnd.size }

/-- The rest of `write_file` when `direct[ofd]` is there: one block, or the end
of it and the start of a new one. -/
def writeBlocks (s : Serv) (inum : UInt32) (buf : Bytes) (offset nbytes : UInt32) (fnd : Inode)
    (junk : Junk) : UInt32 × Serv :=
  let ofd := (offset / 4096).toNat
  let ofr := offset % 4096
  let offree := 4096 - ofr
  -- from here on a failure leaves the new blocks in the inode
  let s := writeInode s inum fnd
  if nbytes ≤ offree then
    let s := fswrite s (fnd.ptr ofd * 4096 + ofr) buf nbytes.toNat
    (0, growFile s inum fnd offset nbytes)
  else if ofd = 29 then (minusOne, s)
  else
    -- `direct[ofd + 1]` is not looked at: a block that was there is replaced
    let (ndb, s) := allocDblk s (junk.call 2)
    if ndb = minusOne then (minusOne, s)
    else
      let fnd := fnd.setPtr (ofd + 1) ndb
      let s := fswrite s (fnd.ptr ofd * 4096 + ofr) buf offree.toNat
      let s := fswrite s (fnd.ptr (ofd + 1) * 4096) (fun index => buf (offree.toNat + index))
        (nbytes - offree).toNat
      (0, growFile s inum fnd offset nbytes)

def writeFile (s : Serv) (inum : UInt32) (buf : Bytes) (offset nbytes type : UInt32)
    (junk : Junk) : UInt32 × Serv :=
  let fnd := (readInode s inum (junk.call 0)).2
  if fnd.type ≠ type then (minusOne, s)
  else if (offset / 4096).toNat > 29 then (minusOne, s)
  else
    match fillHoles (junk.call 1) ((offset / 4096).toNat + 1) s fnd with
    | (none, s) => (minusOne, s)
    | (some fnd, s) => writeBlocks s inum buf offset nbytes fnd junk

def makeDir (s : Serv) (ninum pinum : UInt32) (junk : Junk) : Option Unit × Serv :=
  let nnd := (readInode s ninum (junk.call 0)).2
  let (ndb, s) := allocDblk s (junk.call 1)
  if ndb = minusOne then (none, s)
  else
    let nnd := nnd.setPtr 0 ndb
    let s := fswrite s (ndb * 4096) (freshDir (junk.call 2).here ninum pinum) 4096
    (some (), writeInode s ninum { nnd with size := 64 })

/-- The entry is appended at the size of the parent. What `write_file` answers
is not looked at. -/
def addEntry (s : Serv) (pinum ninum : UInt32) (name : List UInt8) (junk : Junk) : Serv :=
  let pind := (readInode s pinum (junk.call 0)).2
  let de := strcpy (putWord (junk.call 1).here 28 ninum) 0 name
  (writeFile s pinum de pind.size 32 ufsDirectory (junk.call 2)).2

def creatFile (s : Serv) (pinum type : UInt32) (name : List UInt8) (junk : Junk) :
    UInt32 × Serv :=
  let pnd := (readInode s pinum (junk.call 0)).2
  if pnd.type ≠ ufsDirectory then (minusOne, s)
  -- a name that is there counts as created, whatever its type
  else if (lookupFile s pinum name (junk.call 1)).isSome then (0, s)
  else
    let (ninum, s) := newInode s type (junk.call 2)
    if ninum = minusOne then (minusOne, s)
    else if type = ufsDirectory then
      match makeDir s ninum pinum (junk.call 3) with
      -- the inode stays taken
      | (none, s) => (minusOne, s)
      | (some _, s) => (0, addEntry s pinum ninum name (junk.call 4))
    else (0, addEntry s pinum ninum name (junk.call 4))

/-- The reply code and the buffer. The offset is an `int` here, and its block is
converted from a `double` to unsigned. -/
def readFile (s : Serv) (inum : UInt32) (buf : Bytes) (offset nbytes : UInt32) (junk : Junk) :
    UInt32 × Bytes :=
  let fnd := (readInode s inum (junk.call 0)).2
  -- `inode_dbg` reads the inode again
  let pos := readInodeEnd s inum (junk.call 1)
  -- neither the type nor the size is looked at
  let rdb := (wrap (signed offset / 4096)).toNat
  if rdb > 29 then (minusOne, buf)
  else
    let rds := offset % 4096
    let rdf := 4096 - rds
    if nbytes ≤ rdf then
      if fnd.ptr rdb = minusOne then (minusOne, buf)
      else (0, fsread s (lseek pos (fnd.ptr rdb * 4096 + rds)) buf nbytes.toNat)
    else if rdb = 29 then (minusOne, buf)
    else if fnd.ptr rdb = minusOne ∨ fnd.ptr (rdb + 1) = minusOne then (minusOne, buf)
    else
      let start := lseek pos (fnd.ptr rdb * 4096 + rds)
      let buf := fsread s start buf rdf.toNat
      let start' := lseek (fsreadEnd s start rdf.toNat) (fnd.ptr (rdb + 1) * 4096)
      let rest := fsread s start' (fun index => buf (rdf.toNat + index)) (nbytes - rdf).toNat
      (0, fun index => if index < rdf.toNat then buf index else rest (index - rdf.toNat))

/-- The loop over `direct` in `unlink_file`. Its condition assigns: the slot is
overwritten and the loop left unless the assigned block number is zero. -/
def fixDirect (block : UInt32) : Nat → Nat → Inode → Nat × Inode
  | 0, i, pnd => (i, pnd)
  | left + 1, i, pnd =>
    if pnd.ptr i = minusOne then (i, pnd)
    else if block ≠ 0 then (i, pnd.setPtr i block)
    else fixDirect block left (i + 1) (pnd.setPtr i block)

def shrinkDir (s : Serv) (pinum addr : UInt32) (junk : Junk) : Serv :=
  let pnd := (readInode s pinum junk).2
  let (i, pnd) := fixDirect (addr / 4096) 30 0 pnd
  let offset := UInt32.ofNat i * 4096 + addr % 4096
  writeInode s pinum { pnd with size := if offset < pnd.size then offset else pnd.size }

def unlinkEntry (s : Serv) (pinum : UInt32) (de : Bytes) (addr : UInt32) (junk : Junk) :
    UInt32 × Serv :=
  if wordAt de 28 ≠ minusOne then
    let ind := (readInode s (wordAt de 28) (junk.call 1)).2
    if ind.type = ufsDirectory ∧ ind.size > 64 then (minusOne, s)
    else
      -- the inode and its blocks are not given back
      let s := fswrite s addr (putWord (strcpy de 0 []) 28 minusOne) 32
      (0, shrinkDir s pinum addr (junk.call 2))
  else (0, shrinkDir s pinum addr (junk.call 2))

def unlinkFile (s : Serv) (pinum : UInt32) (name : List UInt8) (junk : Junk) : UInt32 × Serv :=
  match lookupFile s pinum name (junk.call 0) with
  | none => (minusOne, s)
  | some (de, addr) => unlinkEntry s pinum de addr junk

/-- The super block is a zero-initialised global, the reply packet a local. -/
def initializeServ (image : Image) (junk : Junk) : Serv :=
  let start : Serv :=
    { image
      super := Super.decode fun _ => 0
      highestInode := 0
      hghstAllocDblk := 0
      pending := []
      rx := ⟨wordAt junk.here 4136, wordAt junk.here 4144, wordAt junk.here 4148, junk.here⟩ }
  { start with super := Super.decode (fsread start 0 (fun _ => 0) 40) }

inductive Request where
  | lookup (pinum : UInt32) (name : List UInt8)
  | stat (inum : UInt32)
  | write (inum : UInt32) (buf : Bytes) (offset nbytes : UInt32)
  | read (inum offset nbytes : UInt32)
  | creat (pinum type : UInt32) (name : List UInt8)
  | unlink (pinum : UInt32) (name : List UInt8)

def lookupCode : Option (Bytes × UInt32) → UInt32
  | some (de, _) => wordAt de 28
  | none => minusOne

def Serv.answer (s : Serv) (code : UInt32) : Serv := { s with rx := { s.rx with nodeNum := code } }

def serve (s : Serv) (request : Request) (junk : Junk) : Serv :=
  match request with
  | .lookup pinum name => s.answer (lookupCode (lookupFile s pinum name junk))
  | .stat inum =>
    -- the answer -1 of `read_inode` is dropped
    let ind := (readInode s inum junk).2
    { s with rx := { s.rx with nodeNum := 0, statType := ind.type, statSize := ind.size } }
  | .write inum buf offset nbytes =>
    let (code, s) := writeFile s inum buf offset nbytes ufsRegularFile junk
    s.answer code
  | .read inum offset nbytes =>
    let (code, buf) := readFile s inum s.rx.buf offset nbytes junk
    { s with rx := { s.rx with nodeNum := code, buf } }
  | .creat pinum type name =>
    let (code, s) := creatFile s pinum type name junk
    s.answer code
  | .unlink pinum name =>
    let (code, s) := unlinkFile s pinum name junk
    s.answer code

def replyCode (s : Serv) (request : Request) (junk : Junk) : UInt32 :=
  (serve s request junk).rx.nodeNum

end OsProjects.FileServer
