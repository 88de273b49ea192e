import OsProjects.FileContents
import Mathlib.Data.List.Nodup

/-!
What `new_inode` and `alloc_dblk` hand out over a run. The calls of a request
are listed in the order the server makes them; the results other than -1 are
the numbers the counter passes, one after the other, so none comes twice. The
bitmaps have exactly the bits up to the counters.
-/

namespace OsProjects.Allocations

open ByteStore UfsLayout FileServer Volume VolumeSound VolumeRefinement Runs ServerRuns
  DirectoryBlocks BlockOwnership FirstFiles FileContents

section Calls

def fillHolesBlocks (junk : Junk) : Nat → Serv → Inode → List UInt32
  | 0, _, _ => []
  | d + 1, s, fnd =>
    -- the loop ends at the first pointer that is mapped, or with the first -1
    if fnd.ptr d = minusOne then
      let (ndb, s) := allocDblk s (junk.call d)
      ndb :: if ndb = minusOne then [] else fillHolesBlocks junk d s (fnd.setPtr d ndb)
    else []

def writeBlocksBlocks (s : Serv) (inum offset nbytes : UInt32) (fnd : Inode) (junk : Junk) :
    List UInt32 :=
  -- only data that runs into the next block needs one more, and it is always a new one
  if nbytes ≤ 4096 - offset % 4096 then []
  else if (offset / 4096).toNat = 29 then []
  else [(allocDblk (writeInode s inum fnd) (junk.call 2)).1]

def writeFileBlocks (s : Serv) (inum offset nbytes type : UInt32) (junk : Junk) : List UInt32 :=
  let fnd := (readInode s inum (junk.call 0)).2
  if fnd.type ≠ type then []
  else if (offset / 4096).toNat > 29 then []
  else
    fillHolesBlocks (junk.call 1) ((offset / 4096).toNat + 1) s fnd ++
      match fillHoles (junk.call 1) ((offset / 4096).toNat + 1) s fnd with
      | (none, _) => []
      | (some fnd, s) => writeBlocksBlocks s inum offset nbytes fnd junk

def addEntryBlocks (s : Serv) (pinum : UInt32) (junk : Junk) : List UInt32 :=
  let pind := (readInode s pinum (junk.call 0)).2
  writeFileBlocks s pinum pind.size 32 ufsDirectory (junk.call 2)

structure Calls where
  inodes : List UInt32
  blocks : List UInt32

def Calls.none : Calls := ⟨[], []⟩

def Calls.append (first second : Calls) : Calls :=
  ⟨first.inodes ++ second.inodes, first.blocks ++ second.blocks⟩

def creatFileCalls (s : Serv) (pinum type : UInt32) (name : List UInt8) (junk : Junk) : Calls :=
  let pnd := (readInode s pinum (junk.call 0)).2
  if pnd.type ≠ ufsDirectory then .none
  else if (lookupFile s pinum name (junk.call 1)).isSome then .none
  else
    let (ninum, s) := newInode s type (junk.call 2)
    if ninum = minusOne then ⟨[ninum], []⟩
    else if type = ufsDirectory then
      -- the block of `.` and `..`, then what the entry in the parent takes
      let ndb := (allocDblk s ((junk.call 3).call 1)).1
      match makeDir s ninum pinum (junk.call 3) with
      | (none, _) => ⟨[ninum], [ndb]⟩
      | (some _, s) => ⟨[ninum], ndb :: addEntryBlocks s pinum (junk.call 4)⟩
    else ⟨[ninum], addEntryBlocks s pinum (junk.call 4)⟩

def serveCalls (s : Serv) (request : Request) (junk : Junk) : Calls :=
  match request with
  | .write inum _ offset nbytes => ⟨[], writeFileBlocks s inum offset nbytes ufsRegularFile junk⟩
  | .creat pinum type name => creatFileCalls s pinum type name junk
  | _ => .none

def stepCalls (s : Serv) : Event → Calls
  | .request request junk => serveCalls s request junk
  | .restart _ => .none

def runCalls : Serv → List Event → Calls
  | _, [] => .none
  | s, event :: rest => (stepCalls s event).append (runCalls (step s event) rest)

end Calls

def handedOut (results : List UInt32) : List UInt32 := results.filter (· ≠ minusOne)

structure Hands (g : Geometry) (s s' : Serv) (calls : Calls) : Prop where
  super : s'.super = s.super
  inode_le : s.highestInode.toNat ≤ s'.highestInode.toNat
  inode_lt : s'.highestInode.toNat < g.numInodes
  block_le : s.hghstAllocDblk.toNat ≤ s'.hghstAllocDblk.toNat
  block_lt : s'.hghstAllocDblk.toNat < g.numData
  inodes : (handedOut calls.inodes).map UInt32.toNat =
    List.range' (s.highestInode.toNat + 1) (s'.highestInode.toNat - s.highestInode.toNat)
  blocks : (handedOut calls.blocks).map UInt32.toNat =
    (List.range' (s.hghstAllocDblk.toNat + 1)
      (s'.hghstAllocDblk.toNat - s.hghstAllocDblk.toNat)).map (g.dataRegionAddr + ·)

structure Counting (g : Geometry) (s : Serv) : Prop where
  super : s.super = g.super
  inode_lt : s.highestInode.toNat < g.numInodes
  block_lt : s.hghstAllocDblk.toNat < g.numData

section Steps
variable {g : Geometry} {s s' s'' : Serv}

theorem Hands.counting {calls : Calls} (hands : Hands g s s' calls) (counting : Counting g s) :
    Counting g s' :=
  ⟨hands.super.trans counting.super, hands.inode_lt, hands.block_lt⟩

structure Still (s s' : Serv) : Prop where
  super : s'.super = s.super
  inode : s'.highestInode = s.highestInode
  block : s'.hghstAllocDblk = s.hghstAllocDblk

theorem Still.refl (s : Serv) : Still s s := ⟨rfl, rfl, rfl⟩

theorem Still.fswrite (still : Still s s') (addr : UInt32) (buf : Bytes) (nbytes : Nat) :
    Still s (FileServer.fswrite s' addr buf nbytes) :=
  ⟨still.super, still.inode, still.block⟩

theorem Still.writeInode (still : Still s s') (inum : UInt32) (ind : Inode) :
    Still s (FileServer.writeInode s' inum ind) := still.fswrite _ _ _

theorem Still.answer (still : Still s s') (code : UInt32) : Still s (s'.answer code) :=
  ⟨still.super, still.inode, still.block⟩

theorem Counting.still (counting : Counting g s) (still : Still s s') : Hands g s s' .none where
  super := still.super
  inode_le := by rw [still.inode]
  inode_lt := by rw [still.inode]; exact counting.inode_lt
  block_le := by rw [still.block]
  block_lt := by rw [still.block]; exact counting.block_lt
  inodes := by simp [still.inode, Calls.none, handedOut]
  blocks := by simp [still.block, Calls.none, handedOut]

theorem Hands.trans {first second : Calls} (one : Hands g s s' first)
    (two : Hands g s' s'' second) : Hands g s s'' (first.append second) where
  super := two.super.trans one.super
  inode_le := le_trans one.inode_le two.inode_le
  inode_lt := two.inode_lt
  block_le := le_trans one.block_le two.block_le
  block_lt := two.block_lt
  inodes := by
    have low := one.inode_le
    have high := two.inode_le
    have start : s'.highestInode.toNat + 1 =
        s.highestInode.toNat + 1 + (s'.highestInode.toNat - s.highestInode.toNat) := by omega
    rw [Calls.append, handedOut, List.filter_append, List.map_append, ← handedOut, ← handedOut,
      one.inodes, two.inodes, start, List.range'_append_1]
    congr 1
    omega
  blocks := by
    have low := one.block_le
    have high := two.block_le
    have start : s'.hghstAllocDblk.toNat + 1 =
        s.hghstAllocDblk.toNat + 1 + (s'.hghstAllocDblk.toNat - s.hghstAllocDblk.toNat) := by omega
    rw [Calls.append, handedOut, List.filter_append, List.map_append, ← handedOut, ← handedOut,
      one.blocks, two.blocks, ← List.map_append, start, List.range'_append_1]
    congr 2
    omega

theorem Hands.rest {calls : Calls} (hands : Hands g s s' calls) (still : Still s' s'') :
    Hands g s s'' calls where
  super := still.super.trans hands.super
  inode_le := by rw [still.inode]; exact hands.inode_le
  inode_lt := by rw [still.inode]; exact hands.inode_lt
  block_le := by rw [still.block]; exact hands.block_le
  block_lt := by rw [still.block]; exact hands.block_lt
  inodes := by rw [still.inode]; exact hands.inodes
  blocks := by rw [still.block]; exact hands.blocks

/-- A counter that has not reached the last number of its range. -/
theorem next_counter {counter len : UInt32} {count : Nat} (length : len.toNat = count)
    (bound : counter.toNat < count) (small : count ≤ 2147483648) (more : counter ≠ len - 1) :
    (counter + 1).toNat = counter.toNat + 1 ∧ counter.toNat + 1 < count := by
  have last := toNat_pred length (by omega)
  have different : counter.toNat ≠ count - 1 := fun same =>
    more (UInt32.toNat_inj.mp (same.trans last.symm))
  simp only [UInt32.toNat_add, UInt32.reduceToNat]
  omega

theorem handedOut_one {result : UInt32} (real : result ≠ minusOne) :
    handedOut [result] = [result] := by
  simp [handedOut, real]

theorem ne_minusOne {result : UInt32} (small : result.toNat < 2147483648) : result ≠ minusOne := by
  rintro rfl
  revert small
  decide

section
variable (counting : Counting g s)
include counting

theorem newInode_hands (type : UInt32) (junk : Junk) :
    Hands g s (newInode s type junk).2 ⟨[(newInode s type junk).1], []⟩ := by
  have layout := g.layout
  have bound := counting.inode_lt
  have length : s.super.numInodes.toNat = g.numInodes := by
    rw [counting.super]
    exact toNat_ofNat_lt (by omega)
  -- the call that fails returns -1 and is not among the numbers handed out
  by_cases full : s.highestInode = s.super.numInodes - 1
  · have same : newInode s type junk = (minusOne, s) := by simp only [newInode, full, ↓reduceIte]
    have still := counting.still (Still.refl s)
    rw [same]
    exact ⟨rfl, still.inode_le, bound, still.block_le, counting.block_lt, still.inodes,
      still.blocks⟩
  · obtain ⟨next, more⟩ := next_counter length bound (by omega) full
    have result : (newInode s type junk).1 = s.highestInode + 1 := by
      simp only [newInode, full, ↓reduceIte, writeInode, fswrite]
    have counter : (newInode s type junk).2.highestInode = s.highestInode + 1 := by
      simp only [newInode, full, ↓reduceIte, writeInode, fswrite]
    have blocks : (newInode s type junk).2.hghstAllocDblk = s.hghstAllocDblk := by
      simp only [newInode, full, ↓reduceIte, writeInode, fswrite]
    constructor
    case super => simp only [newInode, full, ↓reduceIte, writeInode, fswrite]
    case inode_le => rw [counter]; omega
    case inode_lt => rw [counter]; omega
    case block_le => rw [blocks]
    case block_lt => rw [blocks]; exact counting.block_lt
    case inodes =>
      rw [result, handedOut_one (ne_minusOne (by omega)), counter, next, Nat.add_sub_cancel_left]
      simp [next]
    case blocks => simp [blocks, handedOut]

theorem allocDblk_hands (junk : Junk) :
    Hands g s (allocDblk s junk).2 ⟨[], [(allocDblk s junk).1]⟩ := by
  have layout := g.layout
  have bound := counting.block_lt
  have length : s.super.dataRegionLen.toNat = g.numData := by
    rw [counting.super]
    exact toNat_ofNat_lt (by omega)
  by_cases full : s.hghstAllocDblk = s.super.dataRegionLen - 1
  · have same : allocDblk s junk = (minusOne, s) := by simp only [allocDblk, full, ↓reduceIte]
    have still := counting.still (Still.refl s)
    rw [same]
    exact ⟨rfl, still.inode_le, counting.inode_lt, still.block_le, bound, still.inodes,
      still.blocks⟩
  · obtain ⟨next, more⟩ := next_counter length bound (by omega) full
    have start : s.super.dataRegionAddr.toNat = g.dataRegionAddr := by
      rw [counting.super]
      exact toNat_ofNat_lt (by omega)
    have result : (allocDblk s junk).1 = s.super.dataRegionAddr + (s.hghstAllocDblk + 1) := by
      simp only [allocDblk, full, ↓reduceIte, fswrite]
    have value : (allocDblk s junk).1.toNat = g.dataRegionAddr + (s.hghstAllocDblk.toNat + 1) := by
      rw [result, UInt32.toNat_add, start, next]
      omega
    have counter : (allocDblk s junk).2.hghstAllocDblk = s.hghstAllocDblk + 1 := by
      simp only [allocDblk, full, ↓reduceIte, fswrite]
    have inodes : (allocDblk s junk).2.highestInode = s.highestInode := by
      simp only [allocDblk, full, ↓reduceIte, fswrite]
    constructor
    case super => simp only [allocDblk, full, ↓reduceIte, fswrite]
    case inode_le => rw [inodes]
    case inode_lt => rw [inodes]; exact counting.inode_lt
    case block_le => rw [counter]; omega
    case block_lt => rw [counter]; omega
    case inodes => simp [inodes, handedOut]
    case blocks =>
      rw [handedOut_one (ne_minusOne (by omega)), counter, next, Nat.add_sub_cancel_left]
      simp [value]

theorem fillHoles_hands (d : Nat) (fnd : Inode) (junk : Junk) :
    Hands g s (fillHoles junk d s fnd).2 ⟨[], fillHolesBlocks junk d s fnd⟩ := by
  -- the holes are filled downwards, with one call for each
  induction d generalizing s fnd with
  | zero => exact counting.still (Still.refl s)
  | succ d ih =>
    simp only [fillHoles, fillHolesBlocks]
    split
    · have first := allocDblk_hands counting (junk.call d)
      split
      · exact first
      · exact first.trans (ih (first.counting counting) _)
    · exact counting.still (Still.refl s)

theorem writeBlocks_hands (inum : UInt32) (buf : Bytes)
    (offset nbytes : UInt32) (fnd : Inode) (junk : Junk) :
    Hands g s (writeBlocks s inum buf offset nbytes fnd junk).2
      ⟨[], writeBlocksBlocks s inum offset nbytes fnd junk⟩ := by
  have stored := (Still.refl s).writeInode inum fnd
  have kept := counting.still stored
  simp only [writeBlocks, writeBlocksBlocks]
  split
  · exact counting.still ((stored.fswrite _ _ _).writeInode _ _)
  · split
    · exact kept
    · have second := kept.trans (allocDblk_hands (kept.counting counting) (junk.call 2))
      split
      · exact second
      -- the two transfers and the inode leave the counters alone
      · exact second.rest ((((Still.refl _).fswrite _ _ _).fswrite _ _ _).writeInode _ _)

theorem writeFile_hands (inum : UInt32) (buf : Bytes) (offset nbytes type : UInt32) (junk : Junk) :
    Hands g s (writeFile s inum buf offset nbytes type junk).2
      ⟨[], writeFileBlocks s inum offset nbytes type junk⟩ := by
  simp only [writeFile, writeFileBlocks]
  split
  · exact counting.still (Still.refl s)
  · split
    · exact counting.still (Still.refl s)
    · have filled := fillHoles_hands counting ((offset / 4096).toNat + 1)
        (readInode s inum (junk.call 0)).2 (junk.call 1)
      generalize fillHoles (junk.call 1) ((offset / 4096).toNat + 1) s
        (readInode s inum (junk.call 0)).2 = result at filled
      obtain ⟨found, after⟩ := result
      cases found with
      | none => simpa using filled
      | some fnd => exact filled.trans (writeBlocks_hands (filled.counting counting) _ _ _ _ _ _)

theorem makeDir_hands (ninum pinum : UInt32) (junk : Junk) :
    Hands g s (makeDir s ninum pinum junk).2 ⟨[], [(allocDblk s (junk.call 1)).1]⟩ := by
  have alloc := allocDblk_hands counting (junk.call 1)
  simp only [makeDir]
  split
  · exact alloc
  · exact alloc.rest (((Still.refl _).fswrite _ _ _).writeInode _ _)

theorem addEntry_hands (pinum ninum : UInt32) (name : List UInt8) (junk : Junk) :
    Hands g s (addEntry s pinum ninum name junk) ⟨[], addEntryBlocks s pinum junk⟩ :=
  writeFile_hands counting _ _ _ _ _ _

theorem creatFile_hands (pinum type : UInt32) (name : List UInt8) (junk : Junk) :
    Hands g s (creatFile s pinum type name junk).2 (creatFileCalls s pinum type name junk) := by
  simp only [creatFile, creatFileCalls]
  split
  · exact counting.still (Still.refl s)
  · split
    · exact counting.still (Still.refl s)
    · have taken := newInode_hands counting type (junk.call 2)
      have counting' := taken.counting counting
      -- from here on only what `new_inode` left matters
      generalize newInode s type (junk.call 2) = result at taken counting'
      obtain ⟨ninum, s1⟩ := result
      split
      · exact taken
      · split
        · have made := makeDir_hands counting' ninum pinum (junk.call 3)
          generalize makeDir s1 ninum pinum (junk.call 3) = result at made
          obtain ⟨found, s2⟩ := result
          cases found with
          | none => exact taken.trans made
          | some made' =>
            have added := (taken.trans made).trans
              (addEntry_hands (made.counting counting') pinum ninum name (junk.call 4))
            simpa only [Calls.append, List.append_nil, List.nil_append, List.cons_append] using
              added
        · have added := taken.trans (addEntry_hands counting' pinum ninum name (junk.call 4))
          simpa only [Calls.append, List.append_nil, List.nil_append] using added
end

theorem unlinkEntry_still (pinum : UInt32) (de : Bytes) (addr : UInt32) (junk : Junk) :
    Still s (unlinkEntry s pinum de addr junk).2 := by
  simp only [unlinkEntry, shrinkDir]
  split
  · split
    · exact Still.refl s
    · exact ((Still.refl s).fswrite _ _ _).writeInode _ _
  · exact (Still.refl s).writeInode _ _

theorem unlinkFile_still (pinum : UInt32) (name : List UInt8) (junk : Junk) :
    Still s (unlinkFile s pinum name junk).2 := by
  unfold unlinkFile
  generalize lookupFile s pinum name (junk.call 0) = found
  cases found with
  | none => exact Still.refl s
  | some entry => exact unlinkEntry_still pinum entry.1 entry.2 junk

theorem serve_hands (counting : Counting g s) (request : Request) (junk : Junk) :
    Hands g s (serve s request junk) (serveCalls s request junk) := by
  cases request with
  | lookup pinum name => exact counting.still ((Still.refl s).answer _)
  | stat | read => exact counting.still ⟨rfl, rfl, rfl⟩
  | write inum buf offset nbytes =>
    simp only [serve]
    exact (writeFile_hands counting inum buf offset nbytes _ junk).rest ((Still.refl _).answer _)
  | creat pinum type name =>
    simp only [serve]
    exact (creatFile_hands counting pinum type name junk).rest ((Still.refl _).answer _)
  | unlink pinum name =>
    simp only [serve]
    exact counting.still ((unlinkFile_still pinum name junk).answer _)

theorem run_hands (counting : Counting g s) {events : List Event}
    (all : Allowed step OneRun s events) : Hands g s (run step s events) (runCalls s events) := by
  induction events generalizing s with
  | nil => exact counting.still (Still.refl s)
  | cons event rest ih =>
    cases event with
    | request request junk =>
      have first := serve_hands counting request junk
      exact first.trans (ih (first.counting counting) all.2)
    | restart junk => exact all.1.elim

theorem Hands.inodes_nodup {calls : Calls} (hands : Hands g s s' calls) :
    (handedOut calls.inodes).Nodup := by
  apply List.Nodup.of_map
  -- what was handed out are the numbers the counter has passed, each once
  rw [hands.inodes]
  exact List.nodup_range'

theorem Hands.blocks_nodup {calls : Calls} (hands : Hands g s s' calls) :
    (handedOut calls.blocks).Nodup := by
  apply List.Nodup.of_map
  rw [hands.blocks]
  exact List.Nodup.map (fun _ _ same => Nat.add_left_cancel same) List.nodup_range'

end Steps

section Bitmaps
variable {g : Geometry} {s : Serv} {v : Vol}

theorem Backed.inodeBits (backed : Backed g s v) (synced : Synced v) (n : Nat)
    (inside : n < 32768 * s.super.inodeBitmapLen.toNat) :
    inodeBit s n = true ↔ n ≤ s.highestInode.toNat := by
  have layout := g.layout
  have length : s.super.inodeBitmapLen.toNat = g.inodeBitmapLen := by
    rw [backed.sim.super]
    exact toNat_ofNat_lt (by omega)
  have bit : inodeBit s n = v.inodeBit n := by
    rw [inodeBit, backed.sim.super]
    exact backed.sim.shows'.inodeBit n (by omega)
  rw [bit, backed.sim.highestInode]
  exact ⟨synced.inodes n, backed.sound.inodeBit_le n⟩

theorem Backed.dataBits (backed : Backed g s v) (synced : Synced v) (k : Nat)
    (inside : k < 32768 * s.super.dataBitmapLen.toNat) :
    dataBit s k = true ↔ k ≤ s.hghstAllocDblk.toNat := by
  have layout := g.layout
  have length : s.super.dataBitmapLen.toNat = g.dataBitmapLen := by
    rw [backed.sim.super]
    exact toNat_ofNat_lt (by omega)
  have start : g.super.dataBitmapAddr.toNat = g.dataBitmapAddr := toNat_ofNat_lt (by omega)
  have bit : dataBit s k = v.dataBit k := by
    rw [dataBit, backed.sim.super, start]
    exact backed.sim.shows'.dataBit k (by omega)
  rw [bit, backed.sim.hghstAllocDblk]
  exact ⟨synced.blocks k, backed.sound.dataBit_le k⟩

theorem Sim.counting (sim : Sim g s v) (sound : Sound g v) : Counting g s where
  super := sim.super
  inode_lt := by rw [sim.highestInode]; exact sound.highestInode_lt
  block_lt := by rw [sim.hghstAllocDblk]; exact sound.hghstAllocDblk_lt

theorem Counting.limits (counting : Counting g s) :
    s.highestInode < s.super.numInodes ∧ s.hghstAllocDblk < s.super.dataRegionLen := by
  have layout := g.layout
  have inodes : s.super.numInodes.toNat = g.numInodes := by
    rw [counting.super]
    exact toNat_ofNat_lt (by omega)
  have data : s.super.dataRegionLen.toNat = g.numData := by
    rw [counting.super]
    exact toNat_ofNat_lt (by omega)
  rw [UInt32.lt_iff_toNat_lt, UInt32.lt_iff_toNat_lt, inodes, data]
  exact ⟨counting.inode_lt, counting.block_lt⟩

end Bitmaps

structure BitmapsExact (s : Serv) : Prop where
  inodes : ∀ n < 32768 * s.super.inodeBitmapLen.toNat, inodeBit s n = true ↔
    n ≤ s.highestInode.toNat ∧ s.highestInode < s.super.numInodes
  blocks : ∀ k < 32768 * s.super.dataBitmapLen.toNat, dataBit s k = true ↔
    k ≤ s.hghstAllocDblk.toNat ∧ s.hghstAllocDblk < s.super.dataRegionLen

theorem bitmaps_record_allocations (g : Geometry) (s : Serv) (started : Started g s)
    (events : List Event) (all : Allowed step OneRun s events) :
    BitmapsExact (run step s events) ∧ (handedOut (runCalls s events).inodes).Nodup ∧
      (handedOut (runCalls s events).blocks).Nodup := by
  obtain ⟨v, backed, synced⟩ := oneRun_backed started all
  obtain ⟨v0, start, _⟩ := Started.backed started
  have hands := run_hands (Sim.counting start.sim start.sound) all
  obtain ⟨inodeLimit, blockLimit⟩ := (Sim.counting backed.sim backed.sound).limits
  refine ⟨⟨fun n inside => ?_, fun k inside => ?_⟩, hands.inodes_nodup, hands.blocks_nodup⟩
  · rw [Backed.inodeBits backed synced n inside]
    exact (and_iff_left inodeLimit).symm
  · rw [Backed.dataBits backed synced k inside]
    exact (and_iff_left blockLimit).symm

theorem first_file_is_recorded : ∃ s, Started smallest s ∧ Allowed step OneRun s [creatA] ∧
    BitmapsExact (run step s [creatA]) ∧ (handedOut (runCalls s [creatA]).inodes).Nodup := by
  obtain ⟨s, started⟩ := started_exists smallest
  obtain ⟨all, _⟩ := Started.creatA started
  obtain ⟨exact', distinct, _⟩ := bitmaps_record_allocations smallest s started [creatA] all
  exact ⟨s, started, all, exact', distinct⟩

/-- The first word of a directory block is its first dot. -/
theorem freshDir_first_word : wordAt (freshDir (fun _ => 0) 0 0) 0 = 46 := by
  have front : wordAt (freshDir (fun _ => 0) 0 0) 0 =
      wordAt (putWord (strcpy (putWord (strcpy (fun _ => 0) 0 [46]) 28 0) 32 [46, 46]) 60 0) 0 :=
    wordAt_congr _ _ _ _ fun index small => freshEntries_outside _ _ _ (by omega)
  rw [front]
  decide

/-- On the wrapped layout the root directory lies on the data bitmap: block 0 is
in use from the start and its bit is clear. -/
theorem wrapped_layout_loses_the_bitmap : ∃ image, mkfs 33554400 32 noJunk = some image ∧
    image.length < 2147483648 ∧ dataBit (initializeServ image noJunk) 0 = false ∧
    ¬ BitmapsExact (run step (initializeServ image noJunk) []) := by
  obtain ⟨image, made, _, _, _, _, entries⟩ := mkfs_wrapped
  obtain ⟨image', made', small, listed⟩ := listed_wrapped
  obtain rfl : image = image' := Option.some.inj (made.symm.trans made')
  have word : wordAt image.bytes 4198400 = 46 := by
    rw [← freshDir_first_word]
    exact wordAt_congr _ _ _ _ fun index inside => by rw [entries _ (by omega), Nat.zero_add]
  have clear : dataBit (initializeServ image noJunk) 0 = false := by
    rw [dataBit, listed.super]
    change (wordAt image.bytes 4198400).toNat.testBit 31 = false
    rw [word]
    decide
  refine ⟨image, made, small, clear, fun exact' => ?_⟩
  have super : (initializeServ image noJunk).super = wrappedSuper := listed.super
  have set := (exact'.blocks 0 (by rw [run_nil, super]; decide)).mpr
    ⟨Nat.zero_le _, by rw [run_nil, super, listed.counter]; decide⟩
  rw [run_nil, clear] at set
  cases set

end OsProjects.Allocations
