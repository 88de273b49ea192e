import OsProjects.FirstFiles

/-!
What a client reads. A write that succeeds is read back, whether it stays in
one block or goes on in a new one, and the other inodes and everything read from
them stay as they were. This needs an image whose regions do not overlap:
`mkfs` computes the size of the inode table in an `int`, and for some numbers of
inodes it places the data blocks on the inode table.
-/

namespace OsProjects.FileContents

open ByteStore UfsLayout FileServer Volume VolumeSteps VolumeSound VolumeRefinement MkfsImage Runs
  ServerRuns BlockOwnership DirectoryBlocks DirectorySlots FirstFiles

variable {g : Geometry} {s s' : Serv} {v v' : Vol} {n offset nbytes : Nat} {buf : Bytes}
  {type : UInt32}

structure SameFile (inum : UInt32) (s s' : Serv) : Prop where
  inode : inodeOf s' inum = inodeOf s inum
  read : ∀ buf offset nbytes junk junk', nbytes.toNat ≤ 4096 →
    (readFile s' inum buf offset nbytes junk').1 = (readFile s inum buf offset nbytes junk).1 ∧
      ∀ index < nbytes.toNat, (readFile s' inum buf offset nbytes junk').2 index =
        (readFile s inum buf offset nbytes junk).2 index

theorem Apart.readFile (apart : Apart n v v') (offset nbytes : Nat) :
    v'.readFile n offset nbytes = v.readFile n offset nbytes := by
  simp only [Vol.readFile, apart.node]
  split
  · rfl
  · split
    · cases here : (v.node n).direct (offset / 4096) with
      | none => rfl
      | some b => simp [apart.block _ b here]
    · split
      · rfl
      · cases here : (v.node n).direct (offset / 4096) with
        | none => rfl
        | some b =>
          cases there : (v.node n).direct (offset / 4096 + 1) with
          | none => rfl
          | some b' => simp [apart.block _ b here, apart.block _ b' there]

variable {inum : UInt32}

theorem Apart.sameFile (apart : Apart inum.toNat v v') (backed : Backed g s v)
    (backed' : Backed g s' v') (bit : v.inodeBit inum.toNat = true)
    (bit' : v'.inodeBit inum.toNat = true) : SameFile inum s s' := by
  have inside := backed.sound.inodeBit_lt _ bit
  constructor
  · apply view_injective
    rw [inodeOf_eq backed'.sim inum inside, inodeOf_eq backed.sim inum inside, apart.node]
  · intro buf offset nbytes junk junk' small
    have before := readFile_sim backed.sim backed.sound bit buf offset nbytes small junk
    have after := readFile_sim backed'.sim backed'.sound bit' buf offset nbytes small junk'
    rw [Apart.readFile apart] at after
    cases result : v.readFile inum.toNat offset.toNat nbytes.toNat with
    | none =>
      simp only [result] at before after
      rw [before, after]
      exact ⟨rfl, fun _ _ => rfl⟩
    | some bytes =>
      simp only [result] at before after
      refine ⟨after.1.trans before.1.symm, fun index bound => ?_⟩
      rw [after.2 index bound, before.2 index bound]

theorem readFile_oneBlock {b : Nat} (inside : offset / 4096 ≤ 29)
    (short : nbytes ≤ 4096 - offset % 4096) (mapped : (v.node n).direct (offset / 4096) = some b) :
    v.readFile n offset nbytes = some fun index => v.block b (offset % 4096 + index) := by
  have pointers : ¬ 29 < offset / 4096 := by omega
  simp [Vol.readFile, pointers, short, mapped]

theorem readFile_twoBlocks {b c : Nat} (inside : offset / 4096 < 29)
    (long : 4096 - offset % 4096 < nbytes) (mapped : (v.node n).direct (offset / 4096) = some b)
    (mapped' : (v.node n).direct (offset / 4096 + 1) = some c) :
    v.readFile n offset nbytes = some fun index =>
      if index < 4096 - offset % 4096 then v.block b (offset % 4096 + index)
      else v.block c (index - (4096 - offset % 4096)) := by
  have pointers : ¬ 29 < offset / 4096 := by omega
  have last : ¬ offset / 4096 = 29 := by omega
  have two : ¬ nbytes ≤ 4096 - offset % 4096 := by omega
  simp [Vol.readFile, pointers, last, two, mapped, mapped']

/-- A block allocated after the holes were filled is none of the file's blocks. -/
theorem filled_ne_new {nd : Node} {v1 : Vol} (sound : Sound g v) (synced : Synced v)
    (bit : v.inodeBit n = true) (inside : offset / 4096 ≤ 29)
    (filled : Vol.fillHoles g (offset / 4096 + 1) v (v.node n) = (some nd, v1)) {i b k : Nat}
    (mapped : nd.direct i = some b) (new : v1.hghstAllocDblk < k) : b ≠ g.dataRegionAddr + k := by
  obtain ⟨allocated, found⟩ := filled_spec sound.hghstAllocDblk_lt inside filled
  have below := allocated.counter_le
  rcases (found nd rfl).1.pointer i with old | ⟨_, k', _, high, here⟩
  · obtain ⟨_, k', _, used, place⟩ := (sound.node n bit).pointer i b (old ▸ mapped)
    have := synced.blocks k' used
    omega
  · have := Option.some.inj (mapped.symm.trans here)
    omega

theorem WriteOutcome.read_back (outcome : WriteOutcome g v n buf offset nbytes type true v')
    (sound : Sound g v) (synced : Synced v) (bit : v.inodeBit n = true) :
    ∃ bytes, v'.readFile n offset nbytes = some bytes ∧ ∀ index < nbytes, bytes index = buf index := by
  cases outcome with
  | oneBlock nd v1 typed inside filled short =>
    obtain ⟨_, found⟩ := filled_spec sound.hghstAllocDblk_lt inside filled
    obtain ⟨_, _, mapped, _⟩ := found nd rfl
    refine ⟨_, readFile_oneBlock inside short (b := nd.at' (offset / 4096)) ?_, ?_⟩
    · simpa [Vol.grow, Vol.setNode] using mapped
    · intro index bound
      simp only [Vol.grow, Vol.setNode, Vol.putBlock, Function.update_self]
      rw [overwrite_inside (by omega) (by omega), Nat.add_sub_cancel_left]
  | twoBlocks nd v1 v2 typed inside filled long alloc next =>
    obtain ⟨_, found⟩ := filled_spec sound.hghstAllocDblk_lt (by omega) filled
    obtain ⟨_, _, mapped, _⟩ := found nd rfl
    have distinct : nd.at' (offset / 4096) ≠ g.dataRegionAddr + v2.hghstAllocDblk :=
      filled_ne_new sound synced bit (by omega) filled mapped (by omega)
    refine ⟨_, readFile_twoBlocks inside long (b := nd.at' (offset / 4096))
      (c := g.dataRegionAddr + v2.hghstAllocDblk) ?_ ?_, ?_⟩
    · simpa [Vol.grow, Vol.setNode, Node.setPtr] using mapped
    · simp [Vol.grow, Vol.setNode]
    · intro index bound
      simp only [Vol.grow, Vol.setNode, Vol.putBlock, Function.update_self,
        Function.update_of_ne distinct]
      split
      · rw [overwrite_inside (by omega) (by omega), Nat.add_sub_cancel_left]
      · rw [overwrite_inside (by omega) (by omega)]
        congr 1
        omega

/-- A successful write of at most a block is read back, and every other inode,
with all that is read from it, stays the same. -/
theorem writes_are_read_back_and_isolated (started : Started g s) {events : List Event}
    (all : Allowed step OneRun s events) {inum : UInt32}
    (allocated : Allocated (run step s events) inum) (buf : Bytes) (offset nbytes : UInt32)
    (small : nbytes.toNat ≤ 4096) (junk : Junk)
    (success : (writeFile (run step s events) inum buf offset nbytes ufsRegularFile junk).1 = 0) :
    (∀ buf' junk',
      (readFile (writeFile (run step s events) inum buf offset nbytes ufsRegularFile junk).2 inum
          buf' offset nbytes junk').1 = 0 ∧
        ∀ index < nbytes.toNat,
          (readFile (writeFile (run step s events) inum buf offset nbytes ufsRegularFile junk).2
            inum buf' offset nbytes junk').2 index = buf index) ∧
      ∀ other, Allocated (run step s events) other → other ≠ inum →
        SameFile other (run step s events)
          (writeFile (run step s events) inum buf offset nbytes ufsRegularFile junk).2 := by
  obtain ⟨v, backed, synced⟩ := oneRun_backed started all
  have bit := (allocated_iff backed.sim backed.sound inum).mp allocated
  obtain ⟨code, sim'⟩ := writeFile_sim backed.sim backed.sound bit buf offset nbytes ufsRegularFile
    small junk
  have outcome := writeFile_outcome inum.toNat buf offset.toNat nbytes.toNat ufsRegularFile
    backed.sound.hghstAllocDblk_lt
  have respects := writeFile_respects backed.sound backed.tidy synced bit buf offset.toNat
    nbytes.toNat small
  have ok : (v.writeFile g inum.toNat buf offset.toNat nbytes.toNat ufsRegularFile).1 = true := by
    cases result : (v.writeFile g inum.toNat buf offset.toNat nbytes.toNat ufsRegularFile).1 with
    | true => rfl
    | false =>
      rw [success, result] at code
      cases code
  rw [ok] at outcome
  have backed' : Backed g _ _ := ⟨sim', respects.sound, respects.tidy⟩
  constructor
  · intro buf' junk'
    obtain ⟨bytes, result, same⟩ := WriteOutcome.read_back outcome backed.sound synced bit
    have after := readFile_sim backed'.sim backed'.sound (respects.inodeBit _ bit) buf' offset
      nbytes small junk'
    rw [result] at after
    exact ⟨after.1, fun index bound => (after.2 index bound).trans (same index bound)⟩
  · intro other allocated' different
    have bit' := (allocated_iff backed.sim backed.sound other).mp allocated'
    have apart := respects.apart other.toNat (fun same => different (UInt32.toNat_inj.mp same)) bit'
    exact Apart.sameFile apart backed backed' bit' (respects.inodeBit _ bit')

/-- The first write to the first file: its four bytes are read back. -/
theorem first_write_is_read_back : ∃ s, Allowed step OneRun s [creatA] ∧
    (writeFile (run step s [creatA]) 1 (fun _ => 7) 0 4 ufsRegularFile noJunk).1 = 0 ∧
      ∀ index < (4 : UInt32).toNat, (readFile (writeFile (run step s [creatA]) 1 (fun _ => 7) 0 4
        ufsRegularFile noJunk).2 1 (fun _ => 0) 0 4 noJunk).2 index = 7 := by
  obtain ⟨s, started⟩ := started_exists smallest
  obtain ⟨all, v, rooted⟩ := Started.creatA started
  have success := rooted.write_first 1 (by decide) (by decide) (fun _ => 7) 0 4 (by decide)
    (by decide) noJunk
  obtain ⟨back, _⟩ := writes_are_read_back_and_isolated started all (rooted.allocated 1 (by decide))
    (fun _ => 7) 0 4 (by decide) noJunk success
  exact ⟨s, all, success, (back (fun _ => 0) noJunk).2⟩

variable {s : Serv}

section Wrapped

/-- The super block for 33554400 inodes and 32 data blocks: the inode table has
`int` size -4096, so the data region starts at the data bitmap. -/
def wrappedSuper : Super := ⟨1, 1024, 1025, 1, 1026, 4294967295, 1025, 32, 33554400, 32⟩

theorem mkfsSuper_wrapped : mkfsSuper 33554400 32 = wrappedSuper := by
  rfl

structure Overlapped (s : Serv) : Prop where
  super : s.super = wrappedSuper
  length : s.image.length = 4096 * 1057
  bitmap : wordAt s.image.bytes 4096 ≠ 0

def wrappedRoot (size : UInt32) : Inode :=
  ⟨ufsDirectory, size, fun i => if i.val = 0 then 1025 else minusOne⟩

theorem rootInode_wrapped : rootInode 33554400 32 = wrappedRoot 64 := by
  rfl

theorem mkfs_wrapped : ∃ image, mkfs 33554400 32 noJunk = some image ∧ image.length = 4096 * 1057 ∧
    (∀ index < 40, image.bytes index = wrappedSuper.encode index) ∧
    wordAt image.bytes 4096 = 2147483648 ∧
    nodeAt image.bytes 4202496 = wrappedRoot 64 ∧
    ∀ index < 4096, image.bytes (4198400 + index) = freshDir (fun _ => 0) 0 0 index := by
  have length : (Image.empty.put 0 40 wrappedSuper.encode).length = 40 := by
    simp [Image.put, Image.empty]
  obtain ⟨blank, zeroed, size, bytes⟩ := zeroOut_spec 1056 1
    (Image.empty.put 0 40 wrappedSuper.encode) (by decide) (by omega)
  have made : mkfs 33554400 32 noJunk = some ((((blank.put 4096 4096 firstAllocated).put 4198400 4096
      firstAllocated).put 4202496 4096 (overwrite (fun _ => 0) 0 128
        (rootInode 33554400 32).encode)).put 4198400 4096 (freshDir (fun _ => 0) 0 0)) := by
    have enough : ¬ ((33554400 : Int) < 32 ∨ (32 : Int) < 32) := by decide
    have count : (UfsLayout.totalBlocks 33554400 32 - 1).toNat = 1056 := by rfl
    have one : int (1 * 4096) = ((4096 : Nat) : Int) := by rfl
    have two : int (UfsLayout.dataBitmapAddr 33554400 * 4096) = ((4198400 : Nat) : Int) := by rfl
    have three : int (UfsLayout.inodeRegionAddr 33554400 32 * 4096) = ((4202496 : Nat) : Int) := by
      rfl
    have four : int (UfsLayout.dataRegionAddr 33554400 32 * 4096) = ((4198400 : Nat) : Int) := by
      rfl
    have start : pwrite Image.empty wrappedSuper.encode 40 0 =
        some (Image.empty.put 0 40 wrappedSuper.encode) := by
      exact_mod_cast pwrite_nat Image.empty wrappedSuper.encode 40 0
    have clear : zeroOut 1056 1 (Image.empty.put 0 40 wrappedSuper.encode) = some blank := by
      exact_mod_cast zeroed
    rw [mkfs, if_neg enough, mkfsSuper_wrapped, start, count, one, two, three, four]
    simp only [Option.bind_eq_bind, Option.bind_some, clear, pwrite_nat]
    rfl
  refine ⟨_, made, ?_, ?_, ?_, ?_, ?_⟩
  · simp only [Image.put, size (by decide : 1056 ≠ 0)]
    rfl
  · intro index small
    simp only [Image.put_bytes]
    rw [overwrite_outside (by omega), overwrite_outside (by omega),
      overwrite_outside (by omega), overwrite_outside (by omega), bytes,
      if_neg (by omega), Image.put_bytes, overwrite_inside (by omega) (by omega)]
    rfl
  · simp only [Image.put_bytes]
    rw [wordAt_overwrite_outside (by omega), wordAt_overwrite_outside (by omega),
      wordAt_overwrite_outside (by omega),
      wordAt_overwrite_inside (by omega) (by omega)]
    rfl
  · simp only [Image.put_bytes]
    rw [nodeAt_outside (by omega), ← rootInode_wrapped,
      ← Inode.decode_encode (rootInode 33554400 32), nodeAt]
    apply Inode.decode_congr
    intro index small
    rw [overwrite_inside (by omega) (by omega), Nat.add_sub_cancel_left,
      overwrite_inside (by omega) (by omega), Inode.decode_encode]
    rfl
  · intro index small
    simp only [Image.put_bytes]
    rw [overwrite_inside (by omega) (by omega), Nat.add_sub_cancel_left]

theorem readInode_stored (junk : Junk)
    (bitmap : (bmaddr s.super.inodeBitmapAddr inum).toNat + 4 ≤ s.image.length)
    (table : (inodeAddr s inum).toNat + 128 ≤ s.image.length) (small : s.image.length ≤ 2147483648)
    (word : wordAt s.image.bytes (bmaddr s.super.inodeBitmapAddr inum).toNat ≠ 0) :
    (readInode s inum junk).2 = nodeAt s.image.bytes (inodeAddr s inum).toNat := by
  have read : wordAt (fsread s (bmaddr s.super.inodeBitmapAddr inum).toNat (junk.call 0).here 4) 0 =
      wordAt s.image.bytes (bmaddr s.super.inodeBitmapAddr inum).toNat := by
    apply wordAt_congr
    intro index bound
    rw [fsread, if_pos (by omega), Nat.zero_add]
  simp only [readInode, read, bne_iff_ne, ne_eq, word, not_false_eq_true, mask_ne_zero,
    Bool.and_eq_true, and_self, ↓reduceIte]
  apply Inode.decode_congr
  intro index bound
  rw [lseek_low (by omega), fsread, if_pos (by omega)]

/-- The one-block write to a file that has its first block. -/
theorem writeFile_mapped {inum offset nbytes type : UInt32} {buf : Bytes} {junk : Junk}
    {fnd : Inode} (read : (readInode s inum (junk.call 0)).2 = fnd) (typed : fnd.type = type)
    (first : offset / 4096 = 0) (mapped : fnd.ptr 0 ≠ minusOne)
    (short : nbytes ≤ 4096 - offset % 4096) :
    writeFile s inum buf offset nbytes type junk =
      (0, growFile (fswrite (writeInode s inum fnd) (fnd.ptr 0 * 4096 + offset % 4096) buf
        nbytes.toNat) inum fnd offset nbytes) := by
  simp [writeFile, read, typed, first, fillHoles, mapped, writeBlocks, short]

theorem writeFile_hole {s s1 : Serv} {inum offset nbytes type b : UInt32} {buf : Bytes}
    {junk : Junk} {fnd : Inode} (read : (readInode s inum (junk.call 0)).2 = fnd)
    (typed : fnd.type = type) (first : offset / 4096 = 0) (hole : fnd.ptr 0 = minusOne)
    (alloc : allocDblk s ((junk.call 1).call 0) = (b, s1)) (real : b ≠ minusOne)
    (short : nbytes ≤ 4096 - offset % 4096) :
    writeFile s inum buf offset nbytes type junk =
      (0, growFile (fswrite (writeInode s1 inum (fnd.setPtr 0 b)) (b * 4096 + offset % 4096) buf
        nbytes.toNat) inum (fnd.setPtr 0 b) offset nbytes) := by
  have pointer : (fnd.setPtr 0 b).ptr 0 = b := by simp [Inode.ptr, Inode.setPtr]
  simp [writeFile, read, typed, first, fillHoles, hole, alloc, real, writeBlocks, short, pointer]

theorem scanBlock_none (overlapped : Overlapped s) (char : UInt8) (rest : List UInt8)
    (left j : Nat) (inside : j + left ≤ 128) (de : Bytes)
    (differs : ∀ k < 128, s.image.bytes (4198400 + 32 * k) ≠ char) (pos : Nat) :
    (scanBlock s 1025 (char :: rest) left j de pos).1 = none := by
  induction left generalizing j de pos with
  | zero => rfl
  | succ left ih =>
    have addr : ((1025 : UInt32) * 4096 + UInt32.ofNat j * 32).toNat = 4198400 + 32 * j := by
      simp only [UInt32.toNat_add, UInt32.toNat_mul, UInt32.reduceToNat,
        toNat_ofNat_lt (show j < 4294967296 by omega)]
      omega
    have byte : fsread s (4198400 + 32 * j) de 32 0 = s.image.bytes (4198400 + 32 * j) := by
      rw [fsread, overlapped.length, if_pos (by omega), Nat.add_zero]
    have miss : streq (fsread s (4198400 + 32 * j) de 32) 0 (char :: rest) = false := by
      rw [streq, byte]
      simp [differs j (by omega)]
    have seeks := lseek_low (show ((1025 : UInt32) * 4096 + UInt32.ofNat j * 32).toNat <
      2147483648 by omega) pos
    simp only [scanBlock, seeks, addr, miss, Bool.false_and, Bool.false_eq_true, ↓reduceIte]
    exact ih (j + 1) (by omega) _ _

theorem bmaddr_wrapped (small : inum.toNat < 32) :
    bmaddr wrappedSuper.inodeBitmapAddr inum = 4096 := by
  apply UInt32.toNat_inj.mp
  simp only [bmaddr, wrappedSuper, UInt32.toNat_add, UInt32.toNat_mul, UInt32.toNat_div,
    UInt32.reduceToNat]
  omega

theorem Overlapped.inodeAddr (overlapped : Overlapped s)
    (small : inum.toNat < 32) : (FileServer.inodeAddr s inum).toNat = 4202496 + 128 * inum.toNat := by
  rw [FileServer.inodeAddr, overlapped.super]
  simp only [wrappedSuper, UInt32.toNat_add, UInt32.toNat_mul, UInt32.reduceToNat]
  omega

theorem Overlapped.read_inode (overlapped : Overlapped s) (small : inum.toNat < 32) (junk : Junk) :
    (readInode s inum junk).2 = nodeAt s.image.bytes (4202496 + 128 * inum.toNat) := by
  have bitmap : (bmaddr s.super.inodeBitmapAddr inum).toNat = 4096 := by
    rw [overlapped.super, bmaddr_wrapped small]
    rfl
  have table := overlapped.inodeAddr small
  have length := overlapped.length
  rw [readInode_stored junk (by omega) (by omega) (by omega) (by rw [bitmap]; exact overlapped.bitmap),
    table]

theorem Overlapped.absent (overlapped : Overlapped s) {size : UInt32}
    (root : nodeAt s.image.bytes 4202496 = wrappedRoot size) (blocks : (maxBlocks size).toNat = 1)
    {char : UInt8} (names : ∀ k < 128, s.image.bytes (4198400 + 32 * k) ≠ char) (junk : Junk) :
    lookupFile s 0 [char] junk = none := by
  have first : directPtr (wrappedRoot size) (junk.call 0) 0 = 1025 := by rfl
  rw [lookupFile, overlapped.read_inode (by decide)]
  simp only [UInt32.reduceToNat, Nat.mul_zero, Nat.add_zero, root]
  simp only [wrappedRoot, ne_eq, not_true_eq_false, ↓reduceIte]
  rw [← wrappedRoot, blocks, scanDir, first]
  have missing := scanBlock_none overlapped char [] 128 0 (by decide) ((junk.call 1).call 0).here
    names (readInodeEnd s 0 (junk.call 0))
  generalize scanBlock s 1025 [char] 128 0 ((junk.call 1).call 0).here
    (readInodeEnd s 0 (junk.call 0)) = scanned at missing ⊢
  obtain ⟨found, pos⟩ := scanned
  cases missing
  rfl

theorem Overlapped.read_word (overlapped : Overlapped s) (start : Nat) (buf : Bytes)
    (inside : start + 4 ≤ 4096 * 1057) :
    wordAt (fsread s start buf 4) 0 = wordAt s.image.bytes start := by
  apply wordAt_congr
  intro index bound
  rw [fsread, overlapped.length, if_pos (by omega), Nat.zero_add]

theorem toNat_next {k : UInt32} (few : k.toNat < 31) : (k + 1).toNat = k.toNat + 1 := by
  simp only [UInt32.toNat_add, UInt32.reduceToNat]
  omega

section
variable {s : Serv} (overlapped : Overlapped s)
include overlapped

theorem Overlapped.newInode (few : s.highestInode.toNat < 31) (type : UInt32) (junk : Junk) :
    (FileServer.newInode s type junk).1 = s.highestInode + 1 ∧
      (FileServer.newInode s type junk).2.super = wrappedSuper ∧
      (FileServer.newInode s type junk).2.highestInode = s.highestInode + 1 ∧
      (FileServer.newInode s type junk).2.hghstAllocDblk = s.hghstAllocDblk ∧
      (FileServer.newInode s type junk).2.image =
        (s.image.put 4096 4 (byteAt (wordAt s.image.bytes 4096 ||| mask (s.highestInode + 1)))).put
          (4202496 + 128 * (s.highestInode.toNat + 1)) 128 (Inode.fresh type).encode := by
  have next := toNat_next few
  have room : s.highestInode ≠ wrappedSuper.numInodes - 1 := by
    intro full
    rw [full] at few
    exact absurd few (by decide)
  have bits := overlapped.read_word 4096 junk.here (by decide)
  have place : bmaddr wrappedSuper.inodeBitmapAddr (s.highestInode + 1) = 4096 :=
    bmaddr_wrapped (by omega)
  have result : FileServer.newInode s type junk = (s.highestInode + 1, writeInode (fswrite
      { s with highestInode := s.highestInode + 1 } 4096
        (byteAt (wordAt (fsread s 4096 junk.here 4) 0 ||| mask (s.highestInode + 1))) 4)
          (s.highestInode + 1) (Inode.fresh type)) := by
    rw [FileServer.newInode, overlapped.super, if_neg room]
    simp only [place]
    rfl
  have table : (FileServer.inodeAddr (fswrite { s with highestInode := s.highestInode + 1 }
      4096 (byteAt (wordAt (fsread s 4096 junk.here 4) 0 ||| mask (s.highestInode + 1))) 4)
        (s.highestInode + 1)).toNat = 4202496 + 128 * (s.highestInode.toNat + 1) := by
    rw [← next, ← overlapped.inodeAddr (show (s.highestInode + 1).toNat < 32 by omega)]
    rfl
  rw [result]
  refine ⟨rfl, overlapped.super, rfl, rfl, ?_⟩
  rw [writeInode, fswrite, table, bits]
  rfl

theorem Overlapped.writeInode_image (small : inum.toNat < 32) (ind : Inode) :
    (writeInode s inum ind).image = s.image.put (4202496 + 128 * inum.toNat) 128 ind.encode := by
  rw [writeInode, fswrite, overlapped.inodeAddr small]

/-- Writes behind the bitmaps and inside the image keep the server going. -/
theorem Overlapped.fswrite (addr : UInt32) (source : Bytes)
    (count : Nat) (behind : 4100 ≤ addr.toNat) (inside : addr.toNat + count ≤ 4096 * 1057) :
    Overlapped (FileServer.fswrite s addr source count) := by
  refine ⟨overlapped.super, ?_, ?_⟩
  · rw [FileServer.fswrite, Image.put_length _ _ _ _ (by rw [overlapped.length]; exact inside)]
    exact overlapped.length
  · rw [FileServer.fswrite, Image.put_bytes, wordAt_overwrite_outside (by omega)]
    exact overlapped.bitmap

theorem Overlapped.writeInode (inum : UInt32) (ind : Inode)
    (small : inum.toNat < 32) : Overlapped (FileServer.writeInode s inum ind) := by
  have place := overlapped.inodeAddr small
  exact overlapped.fswrite _ _ _ (by omega) (by omega)

theorem Overlapped.answer (code : UInt32) :
    Overlapped (s.answer code) := ⟨overlapped.super, overlapped.length, overlapped.bitmap⟩

theorem Overlapped.after_newInode (few : s.highestInode.toNat < 31) (type : UInt32) (junk : Junk) :
    Overlapped (FileServer.newInode s type junk).2 := by
  obtain ⟨_, super, _, _, image⟩ := overlapped.newInode few type junk
  have first : (s.image.put 4096 4
      (byteAt (wordAt s.image.bytes 4096 ||| mask (s.highestInode + 1)))).length = 4096 * 1057 := by
    rw [Image.put_length, overlapped.length]
    rw [overlapped.length]
    decide
  refine ⟨super, ?_, ?_⟩
  · rw [image, Image.put_length, first]
    rw [first]
    omega
  · rw [image, Image.put_bytes, wordAt_overwrite_outside (by omega), Image.put_bytes,
      wordAt_overwrite_inside (by omega) (by omega)]
    intro zero
    have none : wordAt (byteAt (wordAt s.image.bytes 4096 ||| mask (s.highestInode + 1)))
        (4096 - 4096) = wordAt s.image.bytes 4096 ||| mask (s.highestInode + 1) :=
      wordAt_of_bytes _ _ _ fun index _ => by simp
    rw [none] at zero
    have bit := testBit_or_mask (wordAt s.image.bytes 4096) (s.highestInode + 1)
      (s.highestInode + 1).toNat
    rw [zero] at bit
    simp at bit
end

def listedSize (count : Nat) : UInt32 := UInt32.ofNat (64 + 32 * count)

theorem toNat_listedSize {count : Nat} (few : count < 30) :
    (listedSize count).toNat = 64 + 32 * count := toNat_ofNat_lt (by omega)

/-- A server on the wrapped layout whose root directory has these one-letter
names; the files are empty and no block was allocated. -/
structure Listed (s : Serv) (names : List UInt8) : Prop extends Overlapped s where
  highest : s.highestInode.toNat = names.length
  counter : s.hghstAllocDblk = 0
  root : nodeAt s.image.bytes 4202496 = wrappedRoot (listedSize names.length)
  file : ∀ n, 1 ≤ n → n ≤ names.length →
    nodeAt s.image.bytes (4202496 + 128 * n) = Inode.fresh ufsRegularFile
  entries : ∀ k < 128, s.image.bytes (4198400 + 32 * k) ∈ 0 :: 46 :: names
  bit : ∀ n ≤ names.length, inodeBit s n = true

namespace Listed
variable {s : Serv} {names : List UInt8}

theorem allocated (listed : Listed s names) (few : names.length < 30)
    (low : inum.toNat ≤ names.length) : Allocated s inum := by
  refine ⟨?_, listed.bit _ low⟩
  rw [listed.super]
  have many : wrappedSuper.numInodes.toNat = 33554400 := rfl
  omega

/-- The inode that is taken leaves the root directory as it was. -/
theorem newInode_root (listed : Listed s names) (few : names.length < 29) (junk : Junk) :
    nodeAt (newInode s ufsRegularFile junk).2.image.bytes 4202496 =
      wrappedRoot (listedSize names.length) := by
  have highest := listed.highest
  obtain ⟨_, _, _, _, image⟩ := listed.newInode (by omega) ufsRegularFile junk
  rw [image, Image.put_bytes, nodeAt_outside (by omega), Image.put_bytes,
    nodeAt_outside (by omega), listed.root]

section
variable (listed : Listed s names) (few : names.length < 29) {char : UInt8}
  (new : char ∉ 0 :: 46 :: names) (junk : Junk)
include listed few new

/-- A new name takes an inode, and its entry goes behind the others. -/
theorem serve_creat :
    ∃ entry : Bytes, entry 0 = char ∧ serve s (.creat 0 ufsRegularFile [char]) junk =
      (writeInode (fswrite (writeInode (newInode s ufsRegularFile (junk.call 2)).2 0
        (wrappedRoot (listedSize names.length)))
          (1025 * 4096 + listedSize names.length % 4096) entry 32) 0
            (wrappedRoot (listedSize (names.length + 1)))).answer 0 := by
  have highest := listed.highest
  have size := toNat_listedSize (show names.length < 30 by omega)
  have size' := toNat_listedSize (show names.length + 1 < 30 by omega)
  obtain ⟨number, _, _, _, image⟩ := listed.newInode (by omega) ufsRegularFile (junk.call 2)
  have opened := listed.after_newInode (by omega) ufsRegularFile (junk.call 2)
  have free : ∀ k < 128, s.image.bytes (4198400 + 32 * k) ≠ char := by
    rintro k inside rfl
    exact new (listed.entries k inside)
  have absent := listed.absent listed.root (by rw [toNat_maxBlocks _ (by omega)]; omega) free
    (junk.call 1)
  have root : (readInode s 0 (junk.call 0)).2 = wrappedRoot (listedSize names.length) :=
    (listed.read_inode (by decide) _).trans listed.root
  have root' : ∀ junk', (readInode (newInode s ufsRegularFile (junk.call 2)).2 0 junk').2 =
      wrappedRoot (listedSize names.length) := fun junk' =>
    (opened.read_inode (by decide) junk').trans (listed.newInode_root few _)
  have first : listedSize names.length / 4096 = 0 := by
    apply UInt32.toNat_inj.mp
    rw [toNat_div_block, size, UInt32.toNat_zero]
    omega
  have short : (32 : UInt32) ≤ 4096 - listedSize names.length % 4096 := by
    rw [UInt32.le_iff_toNat_le, toNat_free, size]
    simp only [UInt32.reduceToNat]
    omega
  have grown : listedSize names.length + 32 = listedSize (names.length + 1) := by
    apply UInt32.toNat_inj.mp
    rw [UInt32.toNat_add, size, size']
    simp only [UInt32.reduceToNat]
    omega
  have larger : listedSize (names.length + 1) > listedSize names.length := by
    rw [gt_iff_lt, UInt32.lt_iff_toNat_lt, size, size']
    omega
  have real : s.highestInode + 1 ≠ minusOne := by
    intro same
    have next := toNat_next (show s.highestInode.toNat < 31 by omega)
    rw [same] at next
    have value : minusOne.toNat = 4294967295 := rfl
    omega
  have taken : newInode s ufsRegularFile (junk.call 2) =
      (s.highestInode + 1, (newInode s ufsRegularFile (junk.call 2)).2) := Prod.ext number rfl
  refine ⟨strcpy (putWord ((junk.call 4).call 1).here 28 (s.highestInode + 1)) 0 [char],
    by simp [strcpy], ?_⟩
  have entry := @writeFile_mapped _ 0 (listedSize names.length) 32 ufsDirectory
    (strcpy (putWord ((junk.call 4).call 1).here 28 (s.highestInode + 1)) 0 [char])
    ((junk.call 4).call 2) _ (root' _) rfl first (show (1025 : UInt32) ≠ minusOne by decide) short
  rw [growFile, grown] at entry
  simp only [wrappedRoot, larger, ↓reduceIte] at entry
  rw [serve, creatFile, root, absent, taken]
  simp only [wrappedRoot, ne_eq, not_true_eq_false, ↓reduceIte, Option.isSome_none,
    Bool.false_eq_true, real, show ufsRegularFile ≠ ufsDirectory by decide, addEntry]
  rw [root']
  simp only [wrappedRoot]
  rw [entry]
  rfl

theorem creat_image :
    Overlapped (serve s (.creat 0 ufsRegularFile [char]) junk) ∧
      (serve s (.creat 0 ufsRegularFile [char]) junk).highestInode = s.highestInode + 1 ∧
      (serve s (.creat 0 ufsRegularFile [char]) junk).hghstAllocDblk = 0 ∧
      ∃ entry : Bytes, entry 0 = char ∧
        (serve s (.creat 0 ufsRegularFile [char]) junk).image.bytes =
          overwrite (overwrite (overwrite (overwrite (overwrite s.image.bytes 4096 4
            (byteAt (wordAt s.image.bytes 4096 ||| mask (s.highestInode + 1))))
              (4202496 + 128 * (names.length + 1)) 128 (Inode.fresh ufsRegularFile).encode)
                4202496 128 (wrappedRoot (listedSize names.length)).encode)
                  (4198464 + 32 * names.length) 32 entry)
                    4202496 128 (wrappedRoot (listedSize (names.length + 1))).encode := by
  have highest := listed.highest
  have size := toNat_listedSize (show names.length < 30 by omega)
  obtain ⟨_, _, number, counter, taken⟩ := listed.newInode (by omega) ufsRegularFile (junk.call 2)
  have opened := listed.after_newInode (by omega) ufsRegularFile (junk.call 2)
  obtain ⟨entry, initial, served⟩ := listed.serve_creat few new junk
  have place : ((1025 : UInt32) * 4096 + listedSize names.length % 4096).toNat =
      4198464 + 32 * names.length := by
    rw [UInt32.toNat_add, toNat_mod_block, size]
    simp only [UInt32.toNat_mul, UInt32.reduceToNat]
    omega
  have first := opened.writeInode 0 (wrappedRoot (listedSize names.length)) (by decide)
  have second := first.fswrite (1025 * 4096 + listedSize names.length % 4096) entry 32
    (by omega) (by omega)
  have third := second.writeInode 0 (wrappedRoot (listedSize (names.length + 1))) (by decide)
  have zero : (0 : UInt32).toNat < 32 := by decide
  rw [served]
  refine ⟨third.answer 0, number, counter.trans listed.counter, entry, initial, ?_⟩
  simp only [Serv.answer, second.writeInode_image zero]
  rw [FileServer.fswrite]
  simp only [opened.writeInode_image zero, taken, place, highest, Image.put_bytes,
    UInt32.toNat_zero, Nat.mul_zero, Nat.add_zero]

theorem creat : Listed (serve s (.creat 0 ufsRegularFile [char]) junk) (char :: names) := by
  have highest := listed.highest
  have next := toNat_next (show s.highestInode.toNat < 31 by omega)
  obtain ⟨overlapped, number, counter, entry, initial, bytes⟩ := listed.creat_image few new junk
  refine ⟨overlapped, ?_, counter, ?_, ?_, ?_, ?_⟩
  · rw [number, next, highest, List.length_cons]
  · rw [bytes, nodeAt_written, List.length_cons]
  · intro n low high
    rw [List.length_cons] at high
    rw [bytes, nodeAt_outside (by omega), nodeAt_outside (by omega), nodeAt_outside (by omega)]
    by_cases last : n = names.length + 1
    · rw [last, nodeAt_written]
    · rw [nodeAt_outside (by omega), nodeAt_outside (by omega)]
      exact listed.file n low (by omega)
  · intro k inside
    rw [bytes, overwrite_outside (by omega)]
    by_cases last : k = names.length + 2
    · rw [overwrite_inside (by omega) (by omega), last,
        show 4198400 + 32 * (names.length + 2) - (4198464 + 32 * names.length) = 0 by omega, initial]
      simp
    · rw [overwrite_outside (by omega), overwrite_outside (by omega),
        overwrite_outside (by omega), overwrite_outside (by omega)]
      have old := listed.entries k inside
      simp only [List.mem_cons] at old ⊢
      rcases old with zero | dot | known
      · exact .inl zero
      · exact .inr (.inl dot)
      · exact .inr (.inr (.inr known))
  · intro n low
    rw [List.length_cons] at low
    have base : 4096 * wrappedSuper.inodeBitmapAddr.toNat = 4096 := rfl
    have before := listed.bit
    simp only [inodeBit, listed.super, base] at before
    rw [inodeBit, overlapped.super, base, bytes, bitAt_outside (by omega),
      bitAt_outside (by omega), bitAt_outside (by omega),
      bitAt_outside (by omega)]
    have set := bitAt_set s.image.bytes 4096 n (s.highestInode + 1)
    rw [show 4096 + 4 * ((s.highestInode + 1).toNat / 32) = 4096 by omega] at set
    rw [set]
    by_cases last : n = names.length + 1
    · simp [next, highest, last]
    · simp [before n (by omega)]
end
end Listed

/-- The first block that is allocated is the block of the inode table. -/
theorem Overlapped.allocDblk (overlapped : Overlapped s) (start : s.hghstAllocDblk = 0)
    (junk : Junk) :
    (FileServer.allocDblk s junk).1 = 1026 ∧ Overlapped (FileServer.allocDblk s junk).2 ∧
      ∃ word, (FileServer.allocDblk s junk).2.image = s.image.put 4198400 4 word := by
  have room : (0 : UInt32) ≠ wrappedSuper.dataRegionLen - 1 := by decide
  have place : bmaddr wrappedSuper.dataBitmapAddr (0 + 1) = 4198400 := by rfl
  have result : FileServer.allocDblk s junk = (1026, FileServer.fswrite
      { s with hghstAllocDblk := 1 } 4198400
        (byteAt (wordAt (fsread s 4198400 junk.here 4) 0 ||| mask 1)) 4) := by
    rw [FileServer.allocDblk, start, overlapped.super, if_neg room]
    simp only [place, FileServer.fswrite]
    rfl
  have moved : Overlapped { s with hghstAllocDblk := 1 } :=
    ⟨overlapped.super, overlapped.length, overlapped.bitmap⟩
  rw [result]
  exact ⟨rfl, moved.fswrite _ _ _ (by decide) (by decide), _, rfl⟩

/-- The first write to the first file goes to the inode table; its own inode is
written again behind it. -/
theorem Listed.write {names : List UInt8} (listed : Listed s names)
    (one : 1 ≤ names.length) (buf : Bytes) {offset nbytes : UInt32}
    (inside : offset.toNat + nbytes.toNat ≤ 4096) (below : offset.toNat < 4096) (junk : Junk) :
    (writeFile s 1 buf offset nbytes ufsRegularFile junk).1 = 0 ∧
      Overlapped (writeFile s 1 buf offset nbytes ufsRegularFile junk).2 ∧
      ∃ word early, (writeFile s 1 buf offset nbytes ufsRegularFile junk).2.image.bytes =
        overwrite (overwrite (overwrite (overwrite s.image.bytes 4198400 4 word) 4202624 128 early)
          (4202496 + offset.toNat) nbytes.toNat buf) 4202624 128
          (Inode.encode { (Inode.fresh ufsRegularFile).setPtr 0 1026 with
            size := if offset + nbytes > 0 then offset + nbytes else 0 }) := by
  have small : (1 : UInt32).toNat < 32 := by decide
  have first : offset / 4096 = 0 := by
    apply UInt32.toNat_inj.mp
    rw [toNat_div_block, UInt32.toNat_zero]
    omega
  have short : nbytes ≤ 4096 - offset % 4096 := by
    rw [UInt32.le_iff_toNat_le, toNat_free]
    omega
  have place : ((1026 : UInt32) * 4096 + offset % 4096).toNat = 4202496 + offset.toNat := by
    rw [UInt32.toNat_add, toNat_mod_block]
    simp only [UInt32.toNat_mul, UInt32.reduceToNat]
    omega
  obtain ⟨block, allocated, word, image⟩ := listed.allocDblk listed.counter ((junk.call 1).call 0)
  have written := @writeFile_hole s _ 1 offset nbytes ufsRegularFile 1026 buf junk _
    ((listed.read_inode small _).trans (listed.file 1 (le_refl 1) one)) rfl first rfl
    (Prod.ext block rfl) (by decide) short
  have opened := allocated.writeInode 1 ((Inode.fresh ufsRegularFile).setPtr 0 1026) small
  have filled := opened.fswrite (1026 * 4096 + offset % 4096) buf nbytes.toNat (by omega) (by omega)
  rw [written]
  refine ⟨rfl, filled.writeInode 1 _ small, word,
    ((Inode.fresh ufsRegularFile).setPtr 0 1026).encode, ?_⟩
  simp only [growFile, filled.writeInode_image small]
  rw [FileServer.fswrite]
  simp only [allocated.writeInode_image small, image, place, Image.put_bytes, UInt32.reduceToNat]
  rfl

theorem Overlapped.inodeOf (overlapped : Overlapped s) (inum : UInt32) :
    ServerRuns.inodeOf s inum = nodeAt s.image.bytes (4202496 + 128 * inum.toNat) := by
  have table : 4096 * wrappedSuper.inodeRegionAddr.toNat = 4202496 := rfl
  rw [ServerRuns.inodeOf, overlapped.super, table]

/-- The names of the root directory start with a dot or are empty. -/
theorem freshDir_names (j : Nat) : freshDir (fun _ => 0) 0 0 (32 * j) ∈ [(0 : UInt8), 46] := by
  rw [freshDir, freshEntries_name, putWord_outside (by omega)]
  by_cases second : j = 1
  · subst second
    decide
  · rw [strcpy_outside (by simp only [List.length_cons, List.length_nil]; omega),
      putWord_outside (by omega)]
    by_cases first : j = 0
    · subst first
      decide
    · rw [strcpy_outside (by simp only [List.length_cons, List.length_nil]; omega)]
      decide

/-- `mkfs` makes the image, and the server that starts on it has no file. -/
theorem listed_wrapped : ∃ image, mkfs 33554400 32 noJunk = some image ∧
    image.length < 2147483648 ∧ Listed (initializeServ image noJunk) [] := by
  obtain ⟨image, made, length, boot, word, root, entries⟩ := mkfs_wrapped
  have super : (initializeServ image noJunk).super = wrappedSuper := by
    rw [initializeServ, ← Super.decode_encode wrappedSuper]
    apply Super.decode_congr
    intro index small
    rw [fsread, if_pos (by simp only [length]; omega), Nat.zero_add, boot index small]
  refine ⟨image, made, by rw [length]; decide, ⟨super, length, ?_⟩, rfl, rfl, root, ?_, ?_, ?_⟩
  · change wordAt image.bytes 4096 ≠ 0
    rw [word]
    decide
  · intro n low high
    exact absurd (le_trans low high) (by decide)
  · intro k inside
    change image.bytes (4198400 + 32 * k) ∈ [0, 46]
    rw [entries _ (by omega)]
    exact freshDir_names k
  · intro n low
    obtain rfl : n = 0 := Nat.le_zero.mp low
    rw [inodeBit, super]
    change bitAt image.bytes 4096 0 = true
    rw [bitAt, word]
    decide

theorem Listed.proper_creat {names : List UInt8} (listed : Listed s names)
    (few : names.length < 30) (char : UInt8) : Proper s (.creat 0 ufsRegularFile [char]) :=
  ⟨listed.allocated few (Nat.zero_le _), Nat.zero_le _, show 1 ≤ 28 by decide⟩

/-- An image of 4 MB: a write to the only file, answered 0, changes the inode of
the root directory. -/
theorem wrapped_layout_breaks_isolation : ∃ image s,
    mkfs 33554400 32 noJunk = some image ∧ image.length < 2147483648 ∧
      s = initializeServ image noJunk ∧
      Allowed step OneRun s [.request (.creat 0 ufsRegularFile [97]) noJunk] ∧
      Allocated (serve s (.creat 0 ufsRegularFile [97]) noJunk) 1 ∧
      Allocated (serve s (.creat 0 ufsRegularFile [97]) noJunk) 0 ∧
      (writeFile (serve s (.creat 0 ufsRegularFile [97]) noJunk) 1 (fun _ => 0) 0 4096
        ufsRegularFile noJunk).1 = 0 ∧
      ¬ SameFile 0 (serve s (.creat 0 ufsRegularFile [97]) noJunk)
        (writeFile (serve s (.creat 0 ufsRegularFile [97]) noJunk) 1 (fun _ => 0) 0 4096
          ufsRegularFile noJunk).2 := by
  obtain ⟨image, made, length, empty⟩ := listed_wrapped
  have listed := empty.creat (by decide) (show (97 : UInt8) ∉ [0, 46] by decide) noJunk
  obtain ⟨success, overlapped, word, early, bytes⟩ := listed.write (by decide) (fun _ => 0)
    (show (0 : UInt32).toNat + (4096 : UInt32).toNat ≤ 4096 by decide) (by decide) noJunk
  refine ⟨image, _, made, length, rfl, ⟨empty.proper_creat (by decide) 97, trivial⟩,
    listed.allocated (by decide) (by decide), listed.allocated (by decide) (by decide), success, ?_⟩
  intro same
  have before := listed.inodeOf 0
  have after := overlapped.inodeOf 0
  simp only [UInt32.toNat_zero, Nat.mul_zero, Nat.add_zero] at before after
  rw [listed.root] at before
  have cleared : (inodeOf (writeFile (serve (initializeServ image noJunk)
      (.creat 0 ufsRegularFile [97]) noJunk) 1 (fun _ => 0) 0 4096 ufsRegularFile noJunk).2
        0).size = 0 := by
    rw [after, bytes, nodeAt_outside (by decide)]
    exact (wordAt_overwrite_inside (by decide) (by decide)).trans rfl
  rw [same.inode, before] at cleared
  exact absurd cleared (by decide)
end Wrapped
end OsProjects.FileContents
