import OsProjects.DirectorySlots

/-!
Directories of one block, with their slots as a list, and what a `Creat` and an
`Unlink` make of the list. `Rooted` is the state that the first steps of a session
on a new file system lead to: empty regular files are made and unlinked in the
root directory.
-/

namespace OsProjects.FirstFiles

open ByteStore UfsLayout FileServer Volume VolumeSound VolumeRefinement MkfsImage Runs ServerRuns
  DirectoryBlocks BlockOwnership DirectorySlots

variable {g : Geometry} {s : Serv} {v : Vol} {size highest : Nat}
  {slots : List (Nat × List UInt8 × UInt32)} {name : List UInt8}

structure OneBlock (v : Vol) (d b size : Nat) (slots : List (Nat × List UInt8 × UInt32)) :
    Prop where
  node : v.node d = ⟨ufsDirectory, size, fun i => if i = 0 then some b else none⟩
  carries : ∀ k name inum, FileName name → (Carries v d k name inum ↔ (k, name, inum) ∈ slots)

namespace OneBlock
variable {v' : Vol} {d b : Nat}

section
variable (block : OneBlock v d b size slots)
include block

theorem dir : (v.node d).type = ufsDirectory := by
  rw [block.node]

theorem mapped : (v.node d).direct 0 = some b := by
  simp [block.node]

theorem apart (apart : Apart d v v') : OneBlock v' d b size slots := by
  refine ⟨apart.node.trans block.node, fun k name inum named => ?_⟩
  rw [Apart.carries apart (le_trans named.short (by decide)), block.carries k name inum named]

theorem absent (sound : Sound g v) (bit : v.inodeBit d = true)
    (named : FileName name) (missing : ∀ k inum, (k, name, inum) ∉ slots) :
    v.lookup d name = none := by
  rw [lookup_none_iff sound bit block.dir]
  intro k inum _ carries
  exact missing k inum ((block.carries k name inum named).mp carries)

theorem present (sound : Sound g v)
    (bit : v.inodeBit d = true) (named : FileName name) {k : Nat} {inum : UInt32}
    (listed : (k, name, inum) ∈ slots) (used : 0 < size)
    (once : ∀ k' inum', (k', name, inum') ∈ slots → k' = k) :
    k < 128 ∧ v.lookup d name = some (0, k) ∧ v.lookupInum d name = some inum := by
  have carries := (block.carries k name inum named).mpr listed
  have small : k < 128 := by
    have only := (carries_oneBlock block.mapped fun i other => by simp [block.node, other]).mp
      carries
    exact only.1
  have inside : k < 128 * (v.node d).blocksUsed := by
    simp only [block.node, Node.blocksUsed]
    omega
  have unique : ∀ k' inum', Carries v d k' name inum' → k' = k := fun k' inum' found =>
    once k' inum' ((block.carries k' name inum' named).mp found)
  have found := lookup_of_carries sound bit block.dir carries inside unique
  rw [show k / 128 = 0 by omega, show k % 128 = k by omega] at found
  exact ⟨small, found, lookupInum_of_carries sound bit block.dir named.plain carries inside unique⟩

/-- A new name goes to the slot at the size of the directory. -/
theorem created {type : UInt32} {b' : Nat}
    (created : Created g v d type name v' b') (space : size < 4096) :
    OneBlock v' d b (size + 32) ((size / 32, name, UInt32.ofNat (v.highestInode + 1)) ::
      slots.filter fun slot => slot.1 ≠ size / 32) := by
  have zero : size / 4096 = 0 := by omega
  have here : b' = b := by
    rcases created.source with same | ⟨hole, _⟩
    · rw [block.node] at same
      simpa [zero] using same.symm
    · rw [block.node] at hole
      simp [zero] at hole
  constructor
  · rw [created.node, block.node, here]
    ext i
    · rfl
    · rfl
    · by_cases start : i = 0
      · simp [zero, start]
      · simp [zero, start, Node.setPtr]
  · intro k other inum asked
    rw [created.carries k other inum asked, block.carries k other inum asked, block.node,
      and_comm (a := k ≠ size / 32)]
    simp only [List.mem_cons, Prod.mk.injEq, List.mem_filter, decide_eq_true_eq]

/-- A removed name leaves its slot, and the size is cut there. -/
theorem removed (sound : Sound g v)
    (bit : v.inodeBit d = true) (single : Single (v.node d)) {k : Nat}
    (found : v.lookup d name = some (0, k)) :
    OneBlock (v.removeEntry d ((v.node d).at' 0) k) d b (min (32 * k) size)
      (slots.filter fun slot => slot.1 ≠ k) := by
  have first : (v.node d).direct 0 = some ((v.node d).at' 0) := by
    simp [Node.at', block.mapped]
  constructor
  · ext i
    · simp [Vol.removeEntry, Vol.setNode, block.node]
    · simp [Vol.removeEntry, Vol.setNode, block.node]
    · by_cases start : i = 0
      · simp [Vol.removeEntry, Vol.setNode, block.node, start, Node.at']
      · simp [Vol.removeEntry, Vol.setNode, block.node, start, Node.setPtr]
  · intro k' other inum asked
    rw [removeEntry_carries sound bit single found first asked,
      block.carries k' other inum asked, Nat.mul_zero, Nat.zero_add, and_comm]
    simp only [List.mem_filter, decide_eq_true_eq]
end

section Serving
variable {pinum : UInt32} (block : OneBlock v pinum.toNat b size slots) (backed : Backed g s v)
  (synced : Synced v) (single : AllSingle v) (bit : v.inodeBit pinum.toNat = true)
include block backed synced single bit

theorem creat {type : UInt32} (named : FileName name)
    (missing : ∀ k inum, (k, name, inum) ∉ slots) (room : v.highestInode + 1 < g.numInodes)
    (blocks : v.hghstAllocDblk + ownBlocks type < g.numData) (space : size < 4096) (junk : Junk) :
    replyCode s (.creat pinum type name) junk = 0 ∧
      ∃ v' b', Backed g (serve s (.creat pinum type name) junk) v' ∧ Synced v' ∧ AllSingle v' ∧
        Respects g (fun m => m = pinum.toNat) v v' ∧ Created g v pinum.toNat type name v' b' := by
  have proper : Proper s (.creat pinum type name) :=
    ⟨(allocated_iff backed.sim backed.sound pinum).mpr bit, Nat.zero_le _,
      le_trans named.short (by decide)⟩
  obtain ⟨chance, reply, backed', _, respects⟩ := backed.serve proper (fun _ => synced) junk
  have single' := serve_single backed.sound backed.tidy synced
    (proper.admissible backed.sim backed.sound) chance
    (fun _ _ _ _ impossible => by cases impossible) single
  have zero : size / 4096 = 0 := by omega
  obtain ⟨v', b', result, created⟩ := creat_created backed.sound backed.tidy synced single bit
    block.dir named (block.absent backed.sound bit named missing) room blocks
    (by rw [block.node]; simp [zero]) (.inl (by rw [block.node]; simp [zero])) chance
  have served : v.serve g (.creat pinum type name) chance = (0, v') := by
    simp only [Vol.serve, result]
    rfl
  rw [served] at reply backed' single' respects
  exact ⟨reply, v', b', backed', respects.synced synced, single', respects, created⟩

theorem unlink (named : FileName name) {k : Nat} {inum : UInt32}
    (listed : (k, name, inum) ∈ slots) (used : 0 < size)
    (once : ∀ k' inum', (k', name, inum') ∈ slots → k' = k) (valid : v.inodeBit inum.toNat = true)
    (small : ¬ ((v.node inum.toNat).type = ufsDirectory ∧ 64 < (v.node inum.toNat).size))
    (junk : Junk) :
    replyCode s (.unlink pinum name) junk = 0 ∧
      ∃ v', Backed g (serve s (.unlink pinum name) junk) v' ∧ Synced v' ∧ AllSingle v' ∧
        Respects g (fun m => m = pinum.toNat) v v' ∧
        v' = v.removeEntry pinum.toNat ((v.node pinum.toNat).at' 0) k ∧
        OneBlock v' pinum.toNat b (min (32 * k) size) (slots.filter fun slot => slot.1 ≠ k) := by
  obtain ⟨_, found, answer⟩ := block.present backed.sound bit named listed used once
  have proper : Proper s (.unlink pinum name) :=
    ⟨(allocated_iff backed.sim backed.sound pinum).mpr bit, Nat.zero_le _,
      le_trans named.short (by decide)⟩
  obtain ⟨chance, reply, backed', decides, respects⟩ := backed.serve proper (fun _ => synced) junk
  have first : (v.node pinum.toNat).direct 0 = some ((v.node pinum.toNat).at' 0) := by
    simp [Node.at', block.mapped]
  have single' := serve_single backed.sound backed.tidy synced
    (proper.admissible backed.sim backed.sound) chance
    (by
      intro pinum' text i j same located
      cases same
      cases (found.symm.trans located)
      exact first) single
  have allow : chance.refuse = false := by
    rw [decides pinum name inum rfl answer valid]
    exact decide_eq_false small
  have served : v.serve g (.unlink pinum name) chance =
      (0, v.removeEntry pinum.toNat ((v.node pinum.toNat).at' 0) k) := by
    simp only [Vol.serve, Vol.unlinkFile, found, allow]
    rfl
  rw [served] at reply backed' single' respects
  exact ⟨reply, _, backed', respects.synced synced, single', respects, rfl,
    block.removed backed.sound bit (single _ bit) found⟩

end Serving
end OneBlock

structure Filling (g : Geometry) (s : Serv) (pinum : UInt32) (b size highest counter : Nat)
    (slots : List (Nat × List UInt8 × UInt32)) (v : Vol) : Prop where
  backed : Backed g s v
  synced : Synced v
  single : AllSingle v
  low : pinum.toNat ≤ highest
  block : OneBlock v pinum.toNat b size slots
  files : ∀ n, pinum.toNat < n → v.inodeBit n = true → v.node n = Node.fresh ufsRegularFile
  highestInode : v.highestInode = highest
  hghstAllocDblk : v.hghstAllocDblk = counter

namespace Filling
variable {pinum : UInt32} {b counter : Nat}

section
variable (filling : Filling g s pinum b size highest counter slots v)
include filling

theorem bit (n : Nat) (low : n ≤ highest) : v.inodeBit n = true :=
  filling.backed.sound.inodeBit_le n (filling.highestInode ▸ low)

theorem allocated : Allocated s pinum :=
  (allocated_iff filling.backed.sim filling.backed.sound pinum).mpr (filling.bit _ filling.low)

theorem proper_creat (type : UInt32) (named : FileName name) : Proper s (.creat pinum type name) :=
  ⟨filling.allocated, Nat.zero_le _, le_trans named.short (by decide)⟩

theorem proper_unlink (named : FileName name) : Proper s (.unlink pinum name) :=
  ⟨filling.allocated, Nat.zero_le _, le_trans named.short (by decide)⟩

/-- A new name goes to the slot at the size of the directory. -/
theorem creat (named : FileName name)
    (missing : ∀ k inum, (k, name, inum) ∉ slots) (room : highest + 1 < g.numInodes)
    (space : size < 4096) (junk : Junk) :
    replyCode s (.creat pinum ufsRegularFile name) junk = 0 ∧
      ∃ v' b', Respects g (fun m => m = pinum.toNat) v v' ∧
        Created g v pinum.toNat ufsRegularFile name v' b' ∧
        Filling g (serve s (.creat pinum ufsRegularFile name) junk) pinum b (size + 32)
          (highest + 1) counter ((size / 32, name, UInt32.ofNat (highest + 1)) ::
            slots.filter fun slot => slot.1 ≠ size / 32) v' := by
  have bit := filling.bit _ filling.low
  obtain ⟨backed, synced, single, low, block, files, rfl, rfl⟩ := filling
  have blocks : v.hghstAllocDblk + ownBlocks ufsRegularFile < g.numData :=
    backed.sound.hghstAllocDblk_lt
  obtain ⟨reply, v', b', backed', synced', single', respects, created⟩ := block.creat backed synced
    single bit named missing room blocks space junk
  refine ⟨reply, v', b', respects, created, backed', synced', single', Nat.le_succ_of_le low,
    block.created created space, ?_, created.highestInode, ?_⟩
  · intro n later bitN
    rcases (created.inodeBit n).mp bitN with old | new
    · rw [(respects.apart n (by omega) old).node]
      exact files n later old
    · rw [new]
      exact created.file (by decide)
  · rw [created.counter, if_neg (by rw [block.node]; simp [Nat.div_eq_of_lt space])]
    rfl

/-- Unlinking an empty regular file clears its slot and cuts the size there. -/
theorem unlink (named : FileName name) {k : Nat} {inum : UInt32} (listed : (k, name, inum) ∈ slots)
    (used : 0 < size) (once : ∀ k' inum', (k', name, inum') ∈ slots → k' = k)
    (valid : inum.toNat ≤ highest) (later : pinum.toNat < inum.toNat) (junk : Junk) :
    replyCode s (.unlink pinum name) junk = 0 ∧ ∃ v', Respects g (fun m => m = pinum.toNat) v v' ∧
        v' = v.removeEntry pinum.toNat ((v.node pinum.toNat).at' 0) k ∧
        Filling g (serve s (.unlink pinum name) junk) pinum b (min (32 * k) size) highest counter
          (slots.filter fun slot => slot.1 ≠ k) v' := by
  have bit := filling.bit _ filling.low
  have allocated := filling.bit _ valid
  obtain ⟨backed, synced, single, low, block, files, highestInode, counter⟩ := filling
  have small : ¬ ((v.node inum.toNat).type = ufsDirectory ∧ 64 < (v.node inum.toNat).size) := by
    rw [files _ later allocated]
    exact fun both => absurd both.1 (by decide)
  obtain ⟨reply, v', backed', synced', single', respects, rfl, block'⟩ := block.unlink backed synced
    single bit named listed used once allocated small junk
  refine ⟨reply, _, respects, rfl, backed', synced', single', low, block', ?_, highestInode,
    counter⟩
  intro n after bitN
  rw [(respects.apart n (by omega) bitN).node]
  exact files n after bitN
end

end Filling

/-- The root is the only directory, and every entry in use there is listed. -/
structure Rooted (g : Geometry) (s : Serv) (size highest : Nat)
    (slots : List (Nat × List UInt8 × UInt32)) (v : Vol) : Prop extends
    Filling g s 0 g.dataRegionAddr size highest 0 slots v where
  listed : ∀ k < 128, v.entryInum g.dataRegionAddr k ≠ minusOne →
    ∃ name inum, (k, name, inum) ∈ slots

theorem Started.rooted (started : Started g s) :
    ∃ v, Rooted g s 64 0 [(0, dot, 0), (1, dotDot, 0)] v := by
  obtain ⟨v, backed, initial⟩ := Started.backed started
  refine ⟨v, ⟨backed, Initial.synced initial, Initial.single initial, le_refl _,
    ⟨initial.root, ?_⟩, ?_, initial.highestInode, initial.hghstAllocDblk⟩, ?_⟩
  · intro k name inum named
    rw [UInt32.toNat_zero, Initial.carries initial named]
    simp
  · intro n later bit
    simp only [initial.inodeBit, decide_eq_true_eq] at bit
    exact absurd bit (Nat.ne_of_gt later)
  · intro k small live
    obtain ⟨junk, contents⟩ := initial.entries
    rw [inum_freshDir contents small] at live
    split at live
    · exact ⟨dot, 0, by simp_all⟩
    split at live
    · exact ⟨dotDot, 0, by simp_all⟩
    · exact absurd rfl live

namespace Rooted

theorem allocated (rooted : Rooted g s size highest slots v) (inum : UInt32)
    (low : inum.toNat ≤ highest) : Allocated s inum :=
  (allocated_iff rooted.backed.sim rooted.backed.sound inum).mpr (rooted.bit _ low)

section
variable (rooted : Rooted g s size highest slots v)
include rooted

theorem root :
    v.node 0 = ⟨ufsDirectory, size, fun i => if i = 0 then some g.dataRegionAddr else none⟩ :=
  rooted.block.node

theorem carries (k : Nat) (name : List UInt8) (inum : UInt32) (named : FileName name) :
    Carries v 0 k name inum ↔ (k, name, inum) ∈ slots :=
  rooted.block.carries k name inum named

theorem dir : (v.node 0).type = ufsDirectory := rooted.block.dir

theorem absent (named : FileName name)
    (missing : ∀ k inum, (k, name, inum) ∉ slots) : v.lookup 0 name = none := by
  exact rooted.block.absent rooted.backed.sound (rooted.bit 0 (Nat.zero_le _)) named missing

theorem lookupFile_none (named : FileName name)
    (missing : ∀ k inum, (k, name, inum) ∉ slots) (junk : Junk) :
    lookupFile s 0 name junk = none := by
  have bit : v.inodeBit (0 : UInt32).toNat = true := rooted.bit 0 (Nat.zero_le _)
  have located := lookupFile_sim rooted.backed.sim rooted.backed.sound bit
    (le_trans named.short (by decide)) junk
  rw [UInt32.toNat_zero, rooted.absent named missing] at located
  exact located.of_none

theorem present (named : FileName name) {k : Nat}
    {inum : UInt32} (listed : (k, name, inum) ∈ slots) (used : 0 < size)
    (once : ∀ k' inum', (k', name, inum') ∈ slots → k' = k) :
    k < 128 ∧ v.lookup 0 name = some (0, k) ∧ v.lookupInum 0 name = some inum := by
  exact rooted.block.present rooted.backed.sound (rooted.bit 0 (Nat.zero_le _)) named listed used
    once

theorem inodeOf_dir : (inodeOf s 0).type = ufsDirectory := by
  have layout := g.layout
  rw [inodeOf_type rooted.backed.sim 0 (by simp only [UInt32.toNat_zero]; omega)]
  exact rooted.dir

/-- A new name goes to the slot at the size of the directory. -/
theorem creat (named : FileName name)
    (missing : ∀ k inum, (k, name, inum) ∉ slots) (room : highest + 1 < g.numInodes)
    (space : size < 4096) (junk : Junk) :
    replyCode s (.creat 0 ufsRegularFile name) junk = 0 ∧
      ∃ v', Rooted g (serve s (.creat 0 ufsRegularFile name) junk) (size + 32) (highest + 1)
        ((size / 32, name, UInt32.ofNat (highest + 1)) ::
          slots.filter fun slot => slot.1 ≠ size / 32) v' := by
  obtain ⟨reply, v', _, _, created, filling⟩ :=
    rooted.toFilling.creat named missing room space junk
  refine ⟨reply, v', filling, fun k small live => ?_⟩
  by_cases here : k = size / 32
  · rw [here]
    exact ⟨name, _, List.mem_cons_self ..⟩
  · have mapped : (v.node 0).direct 0 = some g.dataRegionAddr := rooted.block.mapped
    rw [created.beside 0 _ k mapped (by simpa [rooted.root] using here)] at live
    obtain ⟨other, inum, old⟩ := rooted.listed k small live
    exact ⟨other, inum, List.mem_cons_of_mem _ (List.mem_filter.mpr ⟨old, by simpa using here⟩)⟩

/-- Unlinking an empty regular file clears its slot and cuts the size there. -/
theorem unlink (named : FileName name) (k : Nat)
    (inum : UInt32) (listed : (k, name, inum) ∈ slots) (used : 0 < size)
    (once : ∀ k' inum', (k', name, inum') ∈ slots → k' = k) (valid : inum.toNat ≤ highest)
    (file : inum.toNat ≠ 0) (junk : Junk) :
    replyCode s (.unlink 0 name) junk = 0 ∧
      ∃ v', Rooted g (serve s (.unlink 0 name) junk) (min (32 * k) size) highest
        (slots.filter fun slot => slot.1 ≠ k) v' := by
  obtain ⟨reply, v', _, removed, filling⟩ := rooted.toFilling.unlink named listed used once valid
    (Nat.pos_of_ne_zero file) junk
  have place : (v.node 0).at' 0 = g.dataRegionAddr := by simp [rooted.root, Node.at']
  rw [UInt32.toNat_zero, place] at removed
  refine ⟨reply, v', filling, fun k' small live => ?_⟩
  rw [removed] at live
  by_cases here : k' = k
  · exact absurd (here ▸ removeEntry_inum v 0 g.dataRegionAddr k) live
  · rw [removeEntry_inum_other v 0 _ here] at live
    obtain ⟨other, inum', old⟩ := rooted.listed k' small live
    exact ⟨other, inum', List.mem_filter.mpr ⟨old, by simpa using here⟩⟩

/-- A write inside the first block of an empty file succeeds. -/
theorem write_first (inum : UInt32)
    (file : inum.toNat ≠ 0) (low : inum.toNat ≤ highest) (buf : Bytes) (offset nbytes : UInt32)
    (first : offset.toNat < 4096) (short : nbytes.toNat ≤ 4096 - offset.toNat) (junk : Junk) :
    (writeFile s inum buf offset nbytes ufsRegularFile junk).1 = 0 := by
  have enough := g.enough_data
  have bit := rooted.bit _ low
  have node := rooted.files _ (Nat.pos_of_ne_zero file) bit
  have counter := rooted.hghstAllocDblk
  obtain ⟨code, _⟩ := writeFile_sim rooted.backed.sim rooted.backed.sound bit buf offset nbytes
    ufsRegularFile (by omega) junk
  have start : offset.toNat / 4096 = 0 := by omega
  have within : offset.toNat % 4096 = offset.toNat := by omega
  have room : ¬ 0 = g.numData - 1 := by omega
  have result :
      (v.writeFile g inum.toNat buf offset.toNat nbytes.toNat ufsRegularFile).1 = true := by
    simp [Vol.writeFile, node, Node.fresh, start, Vol.fillHoles, Vol.allocDblk, counter, room,
      Vol.writeBlocks, within, short]
  rw [code, result]
  rfl
end
end Rooted

def creatA : Event := .request (.creat 0 ufsRegularFile [97]) noJunk

theorem letterA_fileName : FileName [97] := ⟨by decide, by decide, by decide⟩

theorem Started.creatA (started : Started smallest s) :
    Allowed step OneRun s [FirstFiles.creatA] ∧
      ∃ v, Rooted smallest (run step s [FirstFiles.creatA]) 96 1
        [(2, [97], 1), (0, dot, 0), (1, dotDot, 0)] v := by
  obtain ⟨v, rooted⟩ := Started.rooted started
  obtain ⟨_, v', rooted'⟩ := rooted.creat letterA_fileName (by simp [dot, dotDot]) (by decide)
    (by decide) noJunk
  exact ⟨⟨rooted.proper_creat _ letterA_fileName, trivial⟩, v', rooted'⟩

def mkdirB : Event := .request (.creat 0 ufsDirectory [98]) noJunk

theorem letterB_fileName : FileName [98] := ⟨by decide, by decide, by decide⟩

theorem Started.mkdirB (started : Started smallest s) :
    Proper s (.creat 0 ufsDirectory [98]) ∧ ¬ Allocated s 1 ∧
      replyCode s (.creat 0 ufsDirectory [98]) noJunk = 0 ∧
      ∃ v, Filling smallest (run step s [FirstFiles.mkdirB]) 1 (smallest.dataRegionAddr + 1) 64 1 1
          [(0, dot, 1), (1, dotDot, 0)] v ∧
        OneBlock v 0 smallest.dataRegionAddr 96 [(2, [98], 1), (0, dot, 0), (1, dotDot, 0)] := by
  obtain ⟨v, rooted⟩ := Started.rooted started
  have bit : v.inodeBit (0 : UInt32).toNat = true := rooted.bit 0 (Nat.zero_le _)
  have block : OneBlock v (0 : UInt32).toNat smallest.dataRegionAddr 64
      [(0, dot, 0), (1, dotDot, 0)] := rooted.block
  have blocks : v.hghstAllocDblk + ownBlocks ufsDirectory < smallest.numData := by
    rw [rooted.hghstAllocDblk]
    decide
  have room : v.highestInode + 1 < smallest.numInodes := by
    rw [rooted.highestInode]
    decide
  have new : ¬ Allocated s 1 := by
    rw [allocated_iff rooted.backed.sim rooted.backed.sound]
    intro set
    have := rooted.synced.inodes _ set
    rw [rooted.highestInode] at this
    exact absurd this (by decide)
  obtain ⟨reply, v', b, backed', synced', single', respects, created⟩ := block.creat rooted.backed
    rooted.synced rooted.single bit letterB_fileName (by simp [dot, dotDot]) room blocks (by decide)
    noJunk
  have root := block.created created (by decide)
  have mapped :
      (v.node (0 : UInt32).toNat).direct ((v.node (0 : UInt32).toNat).size / 4096) ≠ none := by
    rw [block.node]
    decide
  obtain ⟨node, carries⟩ := created.dir rfl
  rw [rooted.highestInode, rooted.hghstAllocDblk] at node
  rw [rooted.highestInode] at carries root
  refine ⟨rooted.proper_creat _ letterB_fileName, new, reply, v', ⟨backed', synced', single',
    le_refl _, ⟨?_, ?_⟩, ?_, ?_, ?_⟩, root⟩
  · exact node.trans (fresh_oneBlock _ 64)
  · intro k other inum asked
    rw [UInt32.toNat_one, carries k other inum asked]
    simp
  · intro n later bitN
    rcases (created.inodeBit n).mp bitN with old | rfl
    · have := rooted.synced.inodes _ old
      rw [rooted.highestInode] at this
      exact absurd this (Nat.not_le_of_gt (Nat.zero_lt_of_lt later))
    · rw [rooted.highestInode] at later
      exact absurd later (by decide)
  · rw [created.highestInode, rooted.highestInode]
  · rw [created.counter, if_neg mapped, rooted.hghstAllocDblk]
    rfl

end OsProjects.FirstFiles
