import OsProjects.BitMaps
import OsProjects.Ownership
import OsProjects.Runs
import OsProjects.WordArrays

/-!
Files in the blocks of a disk, from `fs.c`: the block bitmap, the twelve direct
block numbers of an inode and its indirect block, and the loops that read, write
and free the blocks of a file. The disk is the contents that `bread` returns. A
`panic` is no result.

The blocks of an inode are seen through slots: 0 to 11 are `addrs`, 12 is the
indirect block, and slot 13 + j is entry j of the indirect block. The slots of a
file are always taken in this order.
-/

namespace OsProjects.InodeFiles

open ByteStore BitMaps WordArrays Ownership Function

structure Super where
  size : Nat
  ninodes : Nat
  inodestart : Nat
  bmapstart : Nat

/-- `kind` holds `type` and `major`, `links` holds `minor` and `nlink`. -/
structure Inode where
  kind : UInt32
  links : UInt32
  size : UInt32
  addrs : Nat → UInt32

structure Fs where
  disk : Nat → Bytes
  inode : Nat → Inode

namespace Fs

def put (fs : Fs) (b : Nat) (data : Bytes) : Fs := { fs with disk := update fs.disk b data }

def setInode (fs : Fs) (i : Nat) (ip : Inode) : Fs :=
  { fs with inode := update fs.inode i ip }

def setAddr (fs : Fs) (i k : Nat) (addr : UInt32) : Fs :=
  fs.setInode i { fs.inode i with addrs := update (fs.inode i).addrs k addr }

def setSize (fs : Fs) (i : Nat) (size : UInt32) : Fs :=
  fs.setInode i { fs.inode i with size := size }

end Fs

section Functions
variable (sb : Super) (fs : Fs)

def bzero (b : Nat) : Fs := fs.put b (overwrite (fs.disk b) 0 512 fun _ => 0)

def bblock (b : Nat) : Nat := sb.bmapstart + b / 4096

def bit (b : Nat) : Bool := bitAt (fs.disk (bblock sb b)) (b % 4096)

def balloc : Option (UInt32 × Fs) :=
  match (List.range sb.size).find? fun b => !bit sb fs b with
  | some b =>
    let marked := fs.put (bblock sb b) (setBit (fs.disk (bblock sb b)) (b % 4096))
    some (UInt32.ofNat b, bzero marked b)
  | none => none

def bfree (b : Nat) : Option Fs :=
  if bit sb fs b then some (fs.put (bblock sb b) (clearBit (fs.disk (bblock sb b)) (b % 4096)))
  else none

def words (ip : Inode) : List UInt32 :=
  [ip.kind, ip.links, ip.size] ++ (List.range 13).map ip.addrs

def iblock (i : Nat) : Nat := sb.inodestart + i / 8

def iupdate (i : Nat) : Fs :=
  fs.put (iblock sb i) (putWords (fs.disk (iblock sb i)) (64 * (i % 8)) (words (fs.inode i)))

def dinode (i : Nat) : List UInt32 := wordsAt (fs.disk (iblock sb i)) (64 * (i % 8)) 16

def direct (i k : Nat) : Option (UInt32 × Fs) :=
  if (fs.inode i).addrs k = 0 then
    match balloc sb fs with
    | some (addr, fs) => some (addr, fs.setAddr i k addr)
    | none => none
  else some ((fs.inode i).addrs k, fs)

def entry (ind j : Nat) : Option (UInt32 × Fs) :=
  if wordAt (fs.disk ind) (4 * j) = 0 then
    match balloc sb fs with
    | some (addr, fs) => some (addr, fs.put ind (putWord (fs.disk ind) (4 * j) addr))
    | none => none
  else some (wordAt (fs.disk ind) (4 * j), fs)

def bmap (i bn : Nat) : Option (UInt32 × Fs) :=
  if bn < 12 then direct sb fs i bn
  else if bn - 12 < 128 then
    match direct sb fs i 12 with
    | some (ind, fs) => entry sb fs ind.toNat (bn - 12)
    | none => none
  else none

def freeDirect (i : Nat) : List Nat → Fs → Option Fs
  | [], fs => some fs
  | k :: rest, fs =>
    if (fs.inode i).addrs k = 0 then freeDirect i rest fs
    else
      match bfree sb fs ((fs.inode i).addrs k).toNat with
      | some fs => freeDirect i rest (fs.setAddr i k 0)
      | none => none

def freeEntries (ind : Nat) : List Nat → Fs → Option Fs
  | [], fs => some fs
  | j :: rest, fs =>
    if wordAt (fs.disk ind) (4 * j) = 0 then freeEntries ind rest fs
    else
      match bfree sb fs (wordAt (fs.disk ind) (4 * j)).toNat with
      | some fs => freeEntries ind rest fs
      | none => none

def freeIndirect (i : Nat) : Option Fs :=
  let ind := (fs.inode i).addrs 12
  if ind = 0 then some fs
  else
    match freeEntries sb ind.toNat (List.range 128) fs with
    | some fs =>
      match bfree sb fs ind.toNat with
      | some fs => some (fs.setAddr i 12 0)
      | none => none
    | none => none

def itrunc (i : Nat) : Option Fs :=
  match freeDirect sb i (List.range 12) fs with
  | some fs =>
    match freeIndirect sb fs i with
    | some fs => some (iupdate sb (fs.setSize i 0) i)
    | none => none
  | none => none

def readLoop (i : Nat) : Nat → Fs → (off tot rest : Nat) → Bytes → Option (Bytes × Fs)
  | 0, fs, _, _, rest, dst => if rest = 0 then some (dst, fs) else none
  | fuel + 1, fs, off, tot, rest, dst =>
    if rest = 0 then some (dst, fs)
    else
      match bmap sb fs i (off / 512) with
      | some (addr, fs) =>
        let m := min rest (512 - off % 512)
        readLoop i fuel fs (off + m) (tot + m) (rest - m)
          (overwrite dst tot m fun k => fs.disk addr.toNat (off % 512 + k))
      | none => none

/-- `readi` for anything but a device: nothing for -1, or the number of bytes. -/
def readi (i : Nat) (off n : UInt32) (dst : Bytes) : Option (Option UInt32 × Bytes × Fs) :=
  let size := (fs.inode i).size
  if size < off ∨ off + n < off then some (none, dst, fs)
  else
    let n := if size < off + n then size - off else n
    match readLoop sb i n.toNat fs off.toNat 0 n.toNat dst with
    | some (dst, fs) => some (some n, dst, fs)
    | none => none

def writeLoop (i : Nat) (src : Bytes) : Nat → Fs → (off tot rest : Nat) → Option Fs
  | 0, fs, _, _, rest => if rest = 0 then some fs else none
  | fuel + 1, fs, off, tot, rest =>
    if rest = 0 then some fs
    else
      match bmap sb fs i (off / 512) with
      | some (addr, fs) =>
        let m := min rest (512 - off % 512)
        let data := overwrite (fs.disk addr.toNat) (off % 512) m fun k => src (tot + k)
        writeLoop i src fuel (fs.put addr.toNat data) (off + m) (tot + m) (rest - m)
      | none => none

/-- `writei` for anything but a device; `false` for -1. -/
def writei (i : Nat) (off n : UInt32) (src : Bytes) : Option (Bool × Fs) :=
  if (fs.inode i).size < off ∨ off + n < off then some (false, fs)
  else if 71680 < off + n then some (false, fs)
  else
    match writeLoop sb i src n.toNat fs off.toNat 0 n.toNat with
    | some fs =>
      if 0 < n ∧ (fs.inode i).size < off + n then
        some (true, iupdate sb (fs.setSize i (off + n)) i)
      else some (true, fs)
    | none => none

end Functions

/-- Inode blocks, bitmap and data blocks follow each other; data begins at `start`. -/
structure Layout (sb : Super) (start : Nat) : Prop where
  inodes : sb.inodestart + (sb.ninodes + 7) / 8 ≤ sb.bmapstart
  bitmap : sb.bmapstart + (sb.size + 4095) / 4096 ≤ start
  data : start ≤ sb.size
  positive : 0 < start
  small : sb.size < 4294967296

section Bits
variable {sb : Super} {start : Nat} {fs : Fs}

theorem Layout.bblock_lt (layout : Layout sb start) {b : Nat} (inside : b < sb.size) :
    bblock sb b < start := by
  have := layout.bitmap
  unfold bblock
  omega

theorem Layout.iblock_lt (layout : Layout sb start) {i : Nat} (inside : i < sb.ninodes) :
    iblock sb i < sb.bmapstart := by
  have := layout.inodes
  unfold iblock
  omega

theorem bit_put_data (layout : Layout sb start) {b c : Nat} (data : Bytes) (high : start ≤ c)
    (inside : b < sb.size) : bit sb (fs.put c data) b = bit sb fs b := by
  have low := layout.bblock_lt inside
  have differ : bblock sb b ≠ c := by omega
  simp only [bit, Fs.put]
  rw [update_of_ne differ]

theorem bit_put_bitmap {b c : Nat} (data : Bytes) (change : Bool → Bool)
    (this : bitAt data (b % 4096) = change (bit sb fs b))
    (others : ∀ k, k ≠ b % 4096 → bitAt data k = bitAt (fs.disk (bblock sb b)) k) :
    bit sb (fs.put (bblock sb b) data) c = if c = b then change (bit sb fs b) else bit sb fs c := by
  by_cases same : c = b
  · subst same
    rw [if_pos rfl, ← this, bit, Fs.put]
    dsimp only
    rw [update_self]
  · rw [if_neg same]
    by_cases block : bblock sb c = bblock sb b
    · have differ : c % 4096 ≠ b % 4096 := by
        intro equal
        unfold bblock at block
        omega
      simp only [bit, Fs.put, block]
      rw [update_self, others _ differ]
    · simp only [bit, Fs.put]
      rw [update_of_ne block]

structure Allocated (sb : Super) (start : Nat) (fs fs' : Fs) (b : Nat) : Prop where
  free : bit sb fs b = false
  low : start ≤ b
  high : b < sb.size
  bits : ∀ c < sb.size, bit sb fs' c = if c = b then true else bit sb fs c
  disk : ∀ c, c < sb.bmapstart ∨ start ≤ c → c ≠ b → fs'.disk c = fs.disk c
  zero : ∀ k < 512, fs'.disk b k = 0
  inode : fs'.inode = fs.inode

theorem balloc_spec (layout : Layout sb start) (reserved : ∀ b < start, bit sb fs b = true) :
    (balloc sb fs = none ∧ ∀ b < sb.size, bit sb fs b = true) ∨
      ∃ addr fs', balloc sb fs = some (addr, fs') ∧ Allocated sb start fs fs' addr.toNat := by
  unfold balloc
  cases found : (List.range sb.size).find? fun b => !bit sb fs b with
  | none =>
    refine Or.inl ⟨rfl, fun b inside => ?_⟩
    simpa using List.find?_eq_none.mp found b (List.mem_range.mpr inside)
  | some b =>
    have free : bit sb fs b = false := by simpa using List.find?_some found
    have high : b < sb.size := List.mem_range.mp (List.mem_of_find?_eq_some found)
    have low : start ≤ b := by
      by_contra below
      rw [reserved b (by omega)] at free
      cases free
    have number : (UInt32.ofNat b).toNat = b := by
      rw [UInt32.toNat_ofNat']
      exact Nat.mod_eq_of_lt (Nat.lt_trans high layout.small)
    have block := layout.bblock_lt high
    refine Or.inr ⟨_, _, rfl, ?_⟩
    rw [number]
    refine {
      free, low, high, bits := fun c inside => ?_, disk := fun c part differ => ?_
      zero := fun k small => ?_, inode := rfl }
    · rw [bzero, bit_put_data layout _ low inside]
      refine bit_put_bitmap _ (fun _ => true) ?_ fun k differ => ?_
      · rw [bitAt_setBit]
        simp
      · rw [bitAt_setBit, beq_false_of_ne differ, Bool.or_false]
    · have other : c ≠ bblock sb b := by
        have := layout.bitmap
        unfold bblock at block ⊢
        omega
      simp only [bzero, Fs.put]
      rw [update_of_ne differ, update_of_ne other]
    · simp only [bzero, Fs.put]
      rw [update_self, overwrite_inside (by omega) (by omega)]

structure Freed (sb : Super) (start : Nat) (fs fs' : Fs) (b : Nat) : Prop where
  bits : ∀ c < sb.size, bit sb fs' c = if c = b then false else bit sb fs c
  disk : ∀ c, c < sb.bmapstart ∨ start ≤ c → fs'.disk c = fs.disk c
  inode : fs'.inode = fs.inode

theorem bfree_spec (layout : Layout sb start) {b : Nat} (high : b < sb.size)
    (marked : bit sb fs b = true) : ∃ fs', bfree sb fs b = some fs' ∧ Freed sb start fs fs' b := by
  refine ⟨_, if_pos marked, fun c inside => ?_, fun c part => ?_, rfl⟩
  · refine bit_put_bitmap _ (fun _ => false) ?_ fun k differ => ?_
    · rw [bitAt_clearBit]
      simp
    · rw [bitAt_clearBit, bne_iff_ne.mpr differ, Bool.and_true]
  · have block := layout.bblock_lt high
    have other : c ≠ bblock sb b := by
      unfold bblock at block ⊢
      omega
    simp only [Fs.put]
    rw [update_of_ne other]

end Bits

section Slots
variable {sb : Super} {start : Nat} {fs fs' : Fs} {w : Nat → Nat}

def ptr (fs : Fs) (s : Nat × Nat) : Nat :=
  if s.2 ≤ 12 then ((fs.inode s.1).addrs s.2).toNat
  else (wordAt (fs.disk ((fs.inode s.1).addrs 12).toNat) (4 * (s.2 - 13))).toNat

def slotOf (bn : Nat) : Nat := if bn < 12 then bn else bn + 1

def blocks (width : Nat) : Nat := if width ≤ 12 then width else width - 1

theorem slotOf_lt {bn width : Nat} : slotOf bn < width ↔ bn < blocks width := by
  unfold slotOf blocks
  split <;> split <;> omega

theorem slotOf_inj {bn other : Nat} (same : slotOf bn = slotOf other) : bn = other := by
  unfold slotOf at same
  split at same <;> split at same <;> omega

theorem slotOf_ne (bn : Nat) : slotOf bn ≠ 12 := by
  unfold slotOf
  split <;> omega

def slots (sb : Super) (w : Nat → Nat) : Set (Nat × Nat) := {s | s.1 < sb.ninodes ∧ s.2 < w s.1}

def marked (sb : Super) (fs : Fs) : Set Nat := {b | bit sb fs b = true}

def region (sb : Super) (start : Nat) : Set Nat := {b | start ≤ b ∧ b < sb.size}

structure Sound (sb : Super) (start : Nat) (fs : Fs) (w : Nat → Nat) : Prop where
  owned : Owned (ptr fs) (slots sb w) (marked sb fs) (region sb start)
  reserved : ∀ b < start, bit sb fs b = true
  /-- slots behind those in use hold 0 -/
  blank : ∀ i < sb.ninodes, ∀ k, w i ≤ k → k ≤ 12 → (fs.inode i).addrs k = 0
  rest : ∀ i < sb.ninodes, 12 < w i → ∀ s, w i ≤ s → s < 141 → ptr fs (i, s) = 0
  few : ∀ i < sb.ninodes, w i ≤ 141

theorem Sound.at_slot (sound : Sound sb start fs w) {i s : Nat} (inode : i < sb.ninodes)
    (used : s < w i) : start ≤ ptr fs (i, s) ∧ ptr fs (i, s) < sb.size ∧
      bit sb fs (ptr fs (i, s)) = true := by
  obtain ⟨⟨low, high⟩, mark⟩ := sound.owned.inside (i, s) ⟨inode, used⟩
  exact ⟨low, high, mark⟩

theorem ptr_direct (fs : Fs) (i : Nat) {k : Nat} (direct : k ≤ 12) :
    ptr fs (i, k) = ((fs.inode i).addrs k).toNat := if_pos direct

theorem ptr_entry (fs : Fs) (i : Nat) {s : Nat} (above : 12 < s) :
    ptr fs (i, s) = (wordAt (fs.disk (ptr fs (i, 12))) (4 * (s - 13))).toNat :=
  if_neg (Nat.not_le_of_lt above)

/-- Slots hold the same numbers when the inode and its indirect block are the same. -/
theorem ptr_congr {i s : Nat} (addrs : ∀ k ≤ 12, (fs'.inode i).addrs k = (fs.inode i).addrs k)
    (disk : 12 < s → fs'.disk (ptr fs (i, 12)) = fs.disk (ptr fs (i, 12))) :
    ptr fs' (i, s) = ptr fs (i, s) := by
  have block : ptr fs' (i, 12) = ptr fs (i, 12) := congrArg UInt32.toNat (addrs 12 (Nat.le_refl _))
  by_cases small : s ≤ 12
  · rw [ptr_direct _ _ small, ptr_direct _ _ small, addrs s small]
  · have above : 12 < s := Nat.lt_of_not_le small
    rw [ptr_entry _ _ above, ptr_entry _ _ above, block, disk above]

structure Grew (sb : Super) (start i : Nat) (fs : Fs) (w : Nat → Nat) (fs' : Fs) (w' : Nat → Nat) :
    Prop where
  sound : Sound sb start fs' w'
  wider : w i ≤ w' i
  others : ∀ j ≠ i, w' j = w j ∧ fs'.inode j = fs.inode j
  head : (fs'.inode i).size = (fs.inode i).size
  ptrs : ∀ s ∈ slots sb w, ptr fs' s = ptr fs s
  data : ∀ s ∈ slots sb w, s.2 ≠ 12 → fs'.disk (ptr fs s) = fs.disk (ptr fs s)
  lower : ∀ c < sb.bmapstart, fs'.disk c = fs.disk c

theorem Grew.refl (sound : Sound sb start fs w) (i : Nat) : Grew sb start i fs w fs w :=
  ⟨sound, Nat.le_refl _, fun _ _ => ⟨rfl, rfl⟩, rfl, fun _ _ => rfl, fun _ _ _ => rfl,
    fun _ _ => rfl⟩

theorem Grew.slots {i : Nat} {w' : Nat → Nat} (grew : Grew sb start i fs w fs' w') {s : Nat × Nat}
    (used : s ∈ slots sb w) : s ∈ slots sb w' := by
  refine ⟨used.1, ?_⟩
  have inside : s.2 < w s.1 := used.2
  by_cases same : s.1 = i
  · have wider := grew.wider
    rw [same] at inside ⊢
    omega
  · rw [(grew.others s.1 same).1]
    exact inside

theorem Grew.trans {i : Nat} {fs'' : Fs} {w' w'' : Nat → Nat} (one : Grew sb start i fs w fs' w')
    (two : Grew sb start i fs' w' fs'' w'') : Grew sb start i fs w fs'' w'' where
  sound := two.sound
  wider := Nat.le_trans one.wider two.wider
  others j differ := ⟨(two.others j differ).1.trans (one.others j differ).1,
    (two.others j differ).2.trans (one.others j differ).2⟩
  head := two.head.trans one.head
  ptrs s used := (two.ptrs s (one.slots used)).trans (one.ptrs s used)
  data s used differ := by
    have later := two.data s (one.slots used) differ
    rw [one.ptrs s used] at later
    exact later.trans (one.data s used differ)
  lower c low := (two.lower c low).trans (one.lower c low)

theorem Sound.grow (sound : Sound sb start fs w) {i b : Nat} {mid : Fs} (inode : i < sb.ninodes)
    (more : w i < 141) (alloc : Allocated sb start fs mid b)
    (bits : ∀ c < sb.size, bit sb fs' c = bit sb mid c) (layout : Layout sb start)
    (ptrs : ∀ s ∈ slots sb w, ptr fs' s = ptr fs s) (new : ptr fs' (i, w i) = b)
    (others : ∀ j ≠ i, fs'.inode j = fs.inode j) (table : ∀ j < sb.ninodes, j ≠ i → 12 < w j →
      fs'.disk (ptr fs (j, 12)) = fs.disk (ptr fs (j, 12)))
    (blank : ∀ k, w i + 1 ≤ k → k ≤ 12 → (fs'.inode i).addrs k = 0)
    (rest : 12 ≤ w i → ∀ s, w i < s → s < 141 → ptr fs' (i, s) = 0) :
    Sound sb start fs' (update w i (w i + 1)) := by
  have inside : b ∈ region sb start := ⟨alloc.low, alloc.high⟩
  have fresh : b ∉ marked sb fs := by
    intro mark
    have free := alloc.free
    rw [show bit sb fs b = true from mark] at free
    cases free
  have used : ∀ s, s ∈ slots sb (update w i (w i + 1)) ↔ s ∈ slots sb w ∨ s = (i, w i) := by
    rintro ⟨j, s⟩
    by_cases same : j = i
    · subst same
      change j < sb.ninodes ∧ s < update w j (w j + 1) j ↔
        (j < sb.ninodes ∧ s < w j) ∨ (j, s) = (j, w j)
      rw [update_self, Prod.mk.injEq]
      omega
    · simp [slots, same]
  have marks : ∀ c ∈ region sb start, c ∈ marked sb fs' ↔ c ∈ marked sb fs ∨ c = b := by
    intro c part
    change bit sb fs' c = true ↔ bit sb fs c = true ∨ c = b
    rw [bits c part.2, alloc.bits c part.2]
    by_cases same : c = b <;> simp [same]
  constructor
  · exact sound.owned.add fresh inside new ptrs used marks
  · intro c low
    have inside : c < sb.size := Nat.lt_of_lt_of_le low layout.data
    rw [bits c inside, alloc.bits c inside, sound.reserved c low]
    simp
  · intro j count k
    by_cases same : j = i
    · subst same
      rw [update_self]
      exact blank k
    · rw [update_of_ne same, others j same]
      exact sound.blank j count k
  · intro j count wide s above small
    by_cases same : j = i
    · subst same
      rw [update_self] at wide above
      exact rest (Nat.le_of_lt_succ wide) s above small
    · rw [update_of_ne same] at wide above
      rw [← sound.rest j count wide s above small]
      exact ptr_congr (fun k _ => by rw [others j same]) fun _ => table j count same wide
  · intro j count
    by_cases same : j = i
    · subst same
      rw [update_self]
      omega
    · rw [update_of_ne same]
      exact sound.few j count

/-- Blocks of slots in use are not touched by an allocation. -/
theorem Allocated.old {b : Nat} (alloc : Allocated sb start fs fs' b) (sound : Sound sb start fs w)
    {s : Nat × Nat} (used : s ∈ slots sb w) :
    ptr fs s ≠ b ∧ fs'.disk (ptr fs s) = fs.disk (ptr fs s) := by
  obtain ⟨low, _, mark⟩ := sound.at_slot used.1 used.2
  have differ : ptr fs s ≠ b := by
    intro same
    rw [show ptr fs (s.1, s.2) = b from same, alloc.free] at mark
    cases mark
  exact ⟨differ, alloc.disk _ (Or.inr low) differ⟩

end Slots

section Growth
variable {sb : Super} {start : Nat} {fs fs' : Fs} {w : Nat → Nat} {i : Nat}

theorem setAddr_addrs (fs : Fs) (i k other : Nat) (addr : UInt32) :
    ((fs.setAddr i k addr).inode i).addrs other =
      if other = k then addr else (fs.inode i).addrs other := by
  simp only [Fs.setAddr, Fs.setInode, update_self]
  by_cases same : other = k
  · rw [if_pos same, same, update_self]
  · rw [if_neg same, update_of_ne same]

theorem setAddr_other (fs : Fs) (k : Nat) (addr : UInt32) {i j : Nat} (differ : j ≠ i) :
    (fs.setAddr i k addr).inode j = fs.inode j := update_of_ne differ ..

theorem Sound.grow_direct (sound : Sound sb start fs w) (layout : Layout sb start)
    (inode : i < sb.ninodes) (direct : w i ≤ 12) {addr : UInt32} {mid : Fs}
    (alloc : Allocated sb start fs mid addr.toNat) :
    Grew sb start i fs w (mid.setAddr i (w i) addr) (update w i (w i + 1)) := by
  have addrs : ∀ k, ((mid.setAddr i (w i) addr).inode i).addrs k =
      if k = w i then addr else (fs.inode i).addrs k := fun k => by rw [setAddr_addrs, alloc.inode]
  have others : ∀ j ≠ i, (mid.setAddr i (w i) addr).inode j = fs.inode j := fun j differ => by
    rw [setAddr_other _ _ _ differ, alloc.inode]
  have ptrs : ∀ s ∈ slots sb w, ptr (mid.setAddr i (w i) addr) s = ptr fs s := by
    rintro ⟨j, s⟩ used
    by_cases same : j = i
    · subst same
      have inside : s < w j := used.2
      rw [ptr_direct _ _ (by omega), ptr_direct _ _ (by omega), addrs, if_neg (Nat.ne_of_lt inside)]
    · refine ptr_congr (fun k _ => by rw [others j same]) fun high => ?_
      have inside : s < w j := used.2
      exact (alloc.old sound (s := (j, 12)) ⟨used.1, by dsimp only; omega⟩).2
  have new : ptr (mid.setAddr i (w i) addr) (i, w i) = addr.toNat := by
    rw [ptr_direct _ _ direct, addrs, if_pos rfl]
  refine {
    sound := sound.grow inode (by omega) alloc (fun _ _ => rfl) layout ptrs new others
      (fun j count _ wide => (alloc.old sound (s := (j, 12)) ⟨count, wide⟩).2)
      (fun k above _ => ?_) fun wide s above inside => ?_
    wider := ?_, others := fun j differ => ⟨?_, others j differ⟩, head := ?_, ptrs, data := ?_
    lower := ?_ }
  · rw [addrs, if_neg (by omega)]
    exact sound.blank i inode k (by omega) ‹_›
  · -- the fresh block is an indirect block, and `bzero` has cleared its entries
    have last : w i = 12 := by omega
    have block : ptr (mid.setAddr i (w i) addr) (i, 12) = addr.toNat := by
      rw [ptr_direct _ _ (Nat.le_refl _), addrs, if_pos last.symm]
    rw [ptr_entry _ _ (by omega), block]
    have cleared : wordAt (mid.disk addr.toNat) (4 * (s - 13)) = 0 := by
      refine wordAt_of_bytes _ _ _ fun index small => ?_
      rw [alloc.zero _ (by omega)]
      simp [byteAt]
    exact congrArg UInt32.toNat cleared
  · rw [update_self]
    omega
  · rw [update_of_ne differ]
  · simp [Fs.setAddr, Fs.setInode, alloc.inode]
  · exact fun s used _ => (alloc.old sound used).2
  · exact fun c low => alloc.disk c (Or.inl low) (by
      have := layout.bitmap
      have := alloc.low
      omega)

theorem Sound.grow_entry (sound : Sound sb start fs w) (layout : Layout sb start)
    (inode : i < sb.ninodes) (indirect : 12 < w i) (more : w i < 141) {addr : UInt32} {mid : Fs}
    (alloc : Allocated sb start fs mid addr.toNat) :
    Grew sb start i fs w
      (mid.put (ptr fs (i, 12)) (putWord (mid.disk (ptr fs (i, 12))) (4 * (w i - 13)) addr))
      (update w i (w i + 1)) := by
  have here : (i, 12) ∈ slots sb w := ⟨inode, indirect⟩
  obtain ⟨low, high, _⟩ := sound.at_slot inode indirect
  obtain ⟨_, kept⟩ := alloc.old sound here
  have away : ∀ s ∈ slots sb w, s ≠ (i, 12) → ptr fs s ≠ ptr fs (i, 12) := fun s used differ same =>
    differ (sound.owned.inj s used (i, 12) here same)
  have disk : ∀ s ∈ slots sb w, s ≠ (i, 12) →
      (mid.put (ptr fs (i, 12)) (putWord (mid.disk (ptr fs (i, 12))) (4 * (w i - 13)) addr)).disk
        (ptr fs s) = fs.disk (ptr fs s) := by
    intro s used differ
    simp only [Fs.put]
    rw [update_of_ne (away s used differ)]
    exact (alloc.old sound used).2
  -- what the entries of the changed block hold
  have entries : ∀ s, 12 < s → ptr (mid.put (ptr fs (i, 12))
      (putWord (mid.disk (ptr fs (i, 12))) (4 * (w i - 13)) addr)) (i, s) =
        if s = w i then addr.toNat else ptr fs (i, s) := by
    intro s above
    have block : ∀ data, ptr (mid.put (ptr fs (i, 12)) data) (i, 12) = ptr fs (i, 12) := by
      intro data
      rw [ptr_direct _ _ (Nat.le_refl _), ptr_direct _ _ (Nat.le_refl _), Fs.put]
      dsimp only
      rw [alloc.inode]
    rw [ptr_entry _ _ above, ptr_entry _ _ above, block, Fs.put]
    dsimp only
    rw [update_self, kept]
    by_cases same : s = w i
    · rw [if_pos same, same, wordAt_putWord_same]
    · rw [if_neg same, wordAt_putWord_other (by omega)]
  have ptrs : ∀ s ∈ slots sb w, ptr (mid.put (ptr fs (i, 12))
      (putWord (mid.disk (ptr fs (i, 12))) (4 * (w i - 13)) addr)) s = ptr fs s := by
    rintro ⟨j, s⟩ used
    have inside : s < w j := used.2
    by_cases same : j = i
    · subst same
      by_cases small : s ≤ 12
      · rw [ptr_direct _ _ small, ptr_direct _ _ small, Fs.put]
        dsimp only
        rw [alloc.inode]
      · rw [entries s (by omega), if_neg (by omega)]
    · refine ptr_congr (fun k _ => by rw [Fs.put]; rw [alloc.inode]) fun above => ?_
      exact disk (j, 12) ⟨used.1, by dsimp only; omega⟩ fun equal => same (congrArg Prod.fst equal)
  refine {
    sound := sound.grow inode more alloc (fun c inside => bit_put_data layout _ low inside) layout
      ptrs (by rw [entries _ indirect, if_pos rfl]) (fun j _ => by rw [Fs.put]; rw [alloc.inode])
      (fun j count same wide => disk (j, 12) ⟨count, wide⟩ fun equal =>
        same (congrArg Prod.fst equal)) (fun k above small => by omega) fun wide s above inside => ?_
    wider := ?_, others := fun j differ => ⟨?_, ?_⟩, head := ?_, ptrs, data := ?_, lower := ?_ }
  · rw [entries s (by omega), if_neg (by omega)]
    exact sound.rest i inode indirect s (by omega) inside
  · rw [update_self]
    omega
  · rw [update_of_ne differ]
  · rw [Fs.put]
    rw [alloc.inode]
  · rw [Fs.put]
    rw [alloc.inode]
  · exact fun s used differ => disk s used fun equal => differ (congrArg Prod.snd equal)
  · intro c below
    have := layout.bitmap
    have := alloc.low
    simp only [Fs.put]
    rw [update_of_ne (by omega)]
    exact alloc.disk c (Or.inl below) (by omega)

structure Took (sb : Super) (start i slot : Nat) (fs : Fs) (w : Nat → Nat) (addr : UInt32)
    (fs' : Fs) : Prop where
  grew : Grew sb start i fs w fs' (update w i (max (w i) (slot + 1)))
  addr : addr.toNat = ptr fs' (i, slot)
  old : slot < w i → fs' = fs

def Stuck (sb : Super) (start i slot : Nat) (fs : Fs) (w : Nat → Nat) : Prop :=
  ∃ mid w', Grew sb start i fs w mid w' ∧ w' i ≤ slot ∧ ∀ b < sb.size, bit sb mid b = true

theorem max_width {w : Nat → Nat} {i slot : Nat} (next : slot = w i) :
    update w i (max (w i) (slot + 1)) = update w i (w i + 1) := by
  rw [next, Nat.max_eq_right (Nat.le_succ _)]

theorem Sound.took_old (sound : Sound sb start fs w) {slot : Nat} {addr : UInt32}
    (used : slot < w i) (named : addr.toNat = ptr fs (i, slot)) :
    Took sb start i slot fs w addr fs := by
  refine ⟨?_, named, fun _ => rfl⟩
  rw [Nat.max_eq_left used, update_eq_self]
  exact Grew.refl sound i

section
variable (sound : Sound sb start fs w) (layout : Layout sb start)
include sound layout

theorem Sound.ptr_ne_zero {s : Nat}
    (inode : i < sb.ninodes) (used : s < w i) : ptr fs (i, s) ≠ 0 := by
  have low := (sound.at_slot inode used).1
  have positive := layout.positive
  omega

theorem direct_spec (inode : i < sb.ninodes) {k : Nat} (small : k ≤ 12) (next : k ≤ w i) :
    (direct sb fs i k = none ∧ w i ≤ k ∧ Stuck sb start i k fs w) ∨
      ∃ addr fs', direct sb fs i k = some (addr, fs') ∧ Took sb start i k fs w addr fs' := by
  unfold direct
  by_cases used : k < w i
  · have there : (fs.inode i).addrs k ≠ 0 := by
      intro zero
      have nonzero := sound.ptr_ne_zero layout inode used
      rw [ptr_direct _ _ small, zero] at nonzero
      exact nonzero rfl
    rw [if_neg there]
    exact Or.inr ⟨_, _, rfl, sound.took_old used (ptr_direct _ _ small).symm⟩
  · have last : k = w i := by omega
    subst last
    rw [if_pos (sound.blank i inode (w i) (Nat.le_refl _) small)]
    rcases balloc_spec layout sound.reserved with ⟨none, full⟩ | ⟨addr, mid, result, alloc⟩
    · rw [none]
      exact Or.inl ⟨rfl, Nat.le_of_not_lt used, fs, w, Grew.refl sound i, Nat.le_refl _, full⟩
    · rw [result]
      have grew := sound.grow_direct layout inode small alloc
      refine Or.inr ⟨_, _, rfl, by rwa [max_width rfl], ?_, fun below => absurd below used⟩
      rw [ptr_direct _ _ small]
      simp [Fs.setAddr, Fs.setInode]

theorem entry_spec (inode : i < sb.ninodes) (indirect : 12 < w i) {j : Nat} (small : j < 128)
    (next : j + 13 ≤ w i) :
    (entry sb fs (ptr fs (i, 12)) j = none ∧ w i ≤ j + 13 ∧ Stuck sb start i (j + 13) fs w) ∨
      ∃ addr fs', entry sb fs (ptr fs (i, 12)) j = some (addr, fs') ∧
        Took sb start i (j + 13) fs w addr fs' := by
  have named : (wordAt (fs.disk (ptr fs (i, 12))) (4 * j)).toNat = ptr fs (i, j + 13) := by
    rw [ptr_entry fs i (by omega : 12 < j + 13), Nat.add_sub_cancel]
  unfold entry
  by_cases used : j + 13 < w i
  · have there : wordAt (fs.disk (ptr fs (i, 12))) (4 * j) ≠ 0 := by
      intro zero
      have nonzero := sound.ptr_ne_zero layout inode used
      rw [← named, zero] at nonzero
      exact nonzero rfl
    rw [if_neg there]
    exact Or.inr ⟨_, _, rfl, sound.took_old used named⟩
  · have last : j + 13 = w i := by omega
    have zero : wordAt (fs.disk (ptr fs (i, 12))) (4 * j) = 0 := by
      have blank := sound.rest i inode indirect (j + 13) (by omega) (by omega)
      rw [← named] at blank
      exact UInt32.toNat_inj.mp blank
    rw [if_pos zero]
    rcases balloc_spec layout sound.reserved with ⟨none, full⟩ | ⟨addr, mid, result, alloc⟩
    · rw [none]
      exact Or.inl ⟨rfl, Nat.le_of_not_lt used, fs, w, Grew.refl sound i, last.ge, full⟩
    · rw [result]
      have grew := sound.grow_entry layout inode indirect (by omega) alloc
      have place : w i - 13 = j := by omega
      rw [place] at grew
      refine Or.inr ⟨_, _, rfl, by rwa [max_width last], ?_, fun below => absurd below used⟩
      have block := grew.ptrs (i, 12) ⟨inode, indirect⟩
      rw [ptr_entry _ _ (by omega : 12 < j + 13), block, Nat.add_sub_cancel]
      simp only [Fs.put]
      rw [update_self, wordAt_putWord_same]

/-- `bmap` for a block of the file or the one behind its last. -/
theorem bmap_spec
    (inode : i < sb.ninodes) {bn : Nat} (small : bn < 140) (next : bn ≤ blocks (w i)) :
    (bmap sb fs i bn = none ∧ w i ≤ slotOf bn ∧ Stuck sb start i (slotOf bn) fs w) ∨
      ∃ addr fs', bmap sb fs i bn = some (addr, fs') ∧
        Took sb start i (slotOf bn) fs w addr fs' := by
  unfold bmap
  by_cases low : bn < 12
  · have slot : slotOf bn = bn := if_pos low
    have near : bn ≤ w i := by
      unfold blocks at next
      split at next <;> omega
    rw [if_pos low, slot]
    exact direct_spec sound layout inode (by omega) near
  · have slot : slotOf bn = bn - 12 + 13 := by
      rw [slotOf, if_neg low]
      omega
    have near : 12 ≤ w i ∧ (12 < w i → bn + 1 ≤ w i) ∧ (w i = 12 → bn = 12) := by
      unfold blocks at next
      split at next <;> omega
    rw [if_neg low, if_pos (by omega), slot]
    rcases direct_spec sound layout inode (Nat.le_refl 12) near.1 with
      ⟨none, ends, mid, w', grew, short, full⟩ | ⟨ind, mid, result, took⟩
    · rw [none]
      exact Or.inl ⟨rfl, by omega, mid, w', grew, by omega, full⟩
    · rw [result]
      dsimp only
      have wide : max (w i) (12 + 1) = if w i = 12 then 13 else w i := by
        split <;> omega
      have sound' := took.grew.sound
      have width : update w i (max (w i) (12 + 1)) i = if w i = 12 then 13 else w i := by
        rw [update_self, wide]
      have above : 12 < update w i (max (w i) (12 + 1)) i := by
        rw [width]
        split <;> omega
      rw [took.addr]
      rcases entry_spec sound' layout inode above (by omega : bn - 12 < 128)
        (by rw [width]; split <;> omega) with
        ⟨none, ends, mid', w', grew, short, full⟩ | ⟨addr, fs', found, second⟩
      · have wider := took.grew.wider
        exact Or.inl ⟨none, by omega, mid', w', took.grew.trans grew, short, full⟩
      · refine Or.inr ⟨addr, fs', found, ?_, second.addr, fun used => ?_⟩
        · have grew := took.grew.trans second.grew
          rwa [update_idem, update_self,
            show max (max (w i) (12 + 1)) (bn - 12 + 13 + 1) = max (w i) (bn - 12 + 13 + 1) by omega]
            at grew
        · rw [second.old (by rw [width]; split <;> omega), took.old (by omega)]
end

end Growth

end OsProjects.InodeFiles
