import OsProjects.Datagrams

/-!
The way of a name from the client library to the directory entry and back. The
library lets names of up to 28 bytes through, and `name` has 28 bytes in
`message_t` and in `dir_ent_t`. The terminator of a 28-byte name lands in the
field behind it: in `offset` of the message, which neither `MFS_Creat` nor
`MFS_Lookup` needs, and in the low byte of `inum` of the entry.
-/

namespace OsProjects.EntryNames

open ByteStore UfsLayout FileServer Volume VolumeSound VolumeRefinement Runs ServerRuns
  DirectoryBlocks DirectorySlots FirstFiles Datagrams

structure Accepted (name : List UInt8) : Prop where
  nonempty : name ≠ []
  short : name.length ≤ 28
  plain : 0 ∉ name

def mfsCreat (stack : Bytes) (pinum type : UInt32) (name : List UInt8) : Option Bytes :=
  if name.length > 28 then none
  else
    let send := putWord stack 4132 type
    let send := putWord send 4140 5
    let send := putWord send 4136 pinum
    some (strcpy send 4096 name)

def mfsLookup (stack : Bytes) (pinum : UInt32) (name : List UInt8) : Option Bytes :=
  if name.length > 28 then none
  else
    let send := putWord stack 4136 pinum
    let send := strcpy send 4096 name
    some (putWord send 4140 1)

def entryOf (stack : Bytes) (ninum : UInt32) (name : List UInt8) : Bytes :=
  strcpy (putWord stack 28 ninum) 0 name

def slotBytes (s : Serv) (b j : Nat) : Bytes := fun index =>
  s.image.bytes (4096 * b + (32 * j + index))

structure HoldsOnly (s : Serv) (pinum : UInt32) (name : List UInt8) (de : Bytes) : Prop where
  dir : (inodeOf s pinum).type = ufsDirectory
  only : ∃ i j, i < ((inodeOf s pinum).size.toNat + 4095) / 4096 ∧ j < 128 ∧
    (∀ index < 32, slotBytes s ((inodeOf s pinum).ptr i).toNat j index = de index) ∧
    ∀ i' j', i' < ((inodeOf s pinum).size.toNat + 4095) / 4096 → j' < 128 →
      streq (slotBytes s ((inodeOf s pinum).ptr i').toNat j') 0 name = true →
      wordAt (slotBytes s ((inodeOf s pinum).ptr i').toNat j') 28 ≠ minusOne → i' = i ∧ j' = j

structure Survives (s : Serv) (name : List UInt8) (ninum : UInt32) : Prop where
  stored : ∀ stack pinum type pk, mfsCreat stack pinum type name = some pk →
    ∀ memory, wordAt (entryOf memory ninum (Message.ofPacket pk).name) 28 = ninum
  found : ∀ pinum, Allocated s pinum →
    ∀ stack type created, mfsCreat stack pinum type name = some created →
    ∀ memory, HoldsOnly s pinum name (entryOf memory ninum (Message.ofPacket created).name) →
    ∀ stack' pk, mfsLookup stack' pinum name = some pk → ∀ junk,
      lookupCode (lookupFile s (Message.ofPacket pk).nodeNum (Message.ofPacket pk).name junk) =
        ninum

section Arrival
variable {name : List UInt8}

/-- The server reads the name back when the packet has it with its terminator. -/
theorem nameOf_eq {pk : Bytes} (accepted : Accepted name)
    (bytes : ∀ index ≤ name.length, pk (4096 + index) = (name[index]?).getD 0) :
    nameOf pk = name := by
  have short := accepted.short
  have front : ((List.range name.length).map fun index => pk (4096 + index)) = name := by
    apply List.ext_getElem
    · simp
    · intro index _ inside
      simp [bytes index inside.le, inside]
  have stop : pk (4096 + name.length) = 0 := by
    rw [bytes _ (le_refl _), List.getElem?_eq_none (le_refl _)]
    rfl
  have size : 48 = name.length + ((48 - name.length - 1) + 1) := by omega
  rw [nameOf, size, List.range_add, List.map_append, front, List.range_succ_eq_map]
  rw [List.takeWhile_append_of_pos]
  · simp [stop]
  · intro char member
    simp only [bne_iff_ne, ne_eq]
    rintro rfl
    exact accepted.plain member

theorem strcpy_bytes (bytes : Bytes) (addr : Nat) (text : List UInt8) (index : Nat)
    (inside : index ≤ text.length) :
    strcpy bytes addr text (addr + index) = (text[index]?).getD 0 := by
  simp [strcpy, inside]

theorem mfsCreat_name (accepted : Accepted name) {stack pk : Bytes} {pinum type : UInt32}
    (sent : mfsCreat stack pinum type name = some pk) : (Message.ofPacket pk).name = name := by
  have short := accepted.short
  rw [mfsCreat, if_neg (by omega)] at sent
  obtain rfl := Option.some.inj sent
  exact nameOf_eq accepted fun index inside => strcpy_bytes _ _ _ _ inside

theorem mfsLookup_fields (accepted : Accepted name) {stack pk : Bytes} {pinum : UInt32}
    (sent : mfsLookup stack pinum name = some pk) :
    (Message.ofPacket pk).name = name ∧ (Message.ofPacket pk).nodeNum = pinum := by
  have short := accepted.short
  rw [mfsLookup, if_neg (by omega)] at sent
  obtain rfl := Option.some.inj sent
  constructor
  · apply nameOf_eq accepted
    intro index inside
    rw [putWord_outside (by omega)]
    exact strcpy_bytes _ _ _ _ inside
  · calc wordAt (putWord (strcpy (putWord stack 4136 pinum) 4096 name) 4140 1) 4136
        = wordAt (strcpy (putWord stack 4136 pinum) 4096 name) 4136 :=
          wordAt_putWord_other (by omega)
      _ = wordAt (putWord stack 4136 pinum) 4136 :=
          wordAt_congr _ _ _ _ fun index small => strcpy_outside (by omega)
      _ = pinum := wordAt_putWord_same _ _ _

end Arrival

section Entries
variable {name : List UInt8}

theorem entryOf_short (memory : Bytes) (ninum : UInt32) (short : name.length ≤ 27) :
    wordAt (entryOf memory ninum name) 28 = ninum := by
  have kept : wordAt (entryOf memory ninum name) 28 = wordAt (putWord memory 28 ninum) 28 :=
    wordAt_congr _ _ _ _ fun index small => strcpy_outside (by omega)
  rw [kept, wordAt_putWord_same]

/-- The terminator of a 28-byte name clears the low byte of the inode number. -/
theorem entryOf_full (memory : Bytes) (ninum : UInt32) (full : name.length = 28) :
    (wordAt (entryOf memory ninum name) 28).toNat = ninum.toNat - ninum.toNat % 256 := by
  have low : entryOf memory ninum name 28 = 0 := by simp [entryOf, strcpy, full]
  have rest : ∀ index, 1 ≤ index → index < 4 →
      entryOf memory ninum name (28 + index) = byteAt ninum index := by
    intro index first small
    rw [entryOf, strcpy_outside (by omega), putWord,
      overwrite_inside (by omega) (by omega), Nat.add_sub_cancel_left]
  have bound := ninum.toNat_lt
  simp only [wordAt, low, rest 1 (by omega) (by omega), rest 2 (by omega) (by omega),
    rest 3 (by omega) (by omega), byteAt, UInt32.toNat_ofNat', UInt8.toNat_ofNat',
    UInt8.toNat_zero, Nat.pow_one]
  omega

theorem entryOf_inum_iff (accepted : Accepted name) (memory : Bytes) (ninum : UInt32) :
    wordAt (entryOf memory ninum name) 28 = ninum ↔ name.length ≤ 27 ∨ ninum.toNat % 256 = 0 := by
  have short := accepted.short
  by_cases fits : name.length ≤ 27
  · exact iff_of_true (entryOf_short memory ninum fits) (Or.inl fits)
  · have value := entryOf_full memory ninum (show name.length = 28 by omega)
    rw [← UInt32.toNat_inj, value]
    omega

variable {g : Geometry} {s : Serv} {v : Vol} {pinum : UInt32}

theorem slotBytes_entry (sim : Sim g s v) (sound : Sound g v)
    (bit : v.inodeBit pinum.toNat = true) {i j b : Nat}
    (mapped : (v.node pinum.toNat).direct i = some b) (slot : j < 128) {index : Nat}
    (small : index < 32) :
    slotBytes s ((inodeOf s pinum).ptr i).toNat j index = v.entry b j index := by
  obtain ⟨_, k, less, _, block⟩ := (sound.node _ bit).pointer i _ mapped
  have layout := g.layout
  rw [slotBytes, inodeOf_ptr sim pinum (sound.inodeBit_lt _ bit) mapped]
  exact sim.shows'.block _ (by omega) (by omega) _ (by omega)

theorem slot_eq (sim : Sim g s v) (sound : Sound g v) {d : UInt32} {i b j : Nat}
    (bit : v.inodeBit d.toNat = true) (mapped : (v.node d.toNat).direct i = some b)
    (small : j < 128) :
    wordAt (slotBytes s ((inodeOf s d).ptr i).toNat j) 28 = v.entryInum b j ∧
      ∀ name, FileName name →
        streq (slotBytes s ((inodeOf s d).ptr i).toNat j) 0 name = streq (v.entry b j) 0 name := by
  have bytes : ∀ index < 32, slotBytes s ((inodeOf s d).ptr i).toNat j index = v.entry b j index :=
    fun index bound => slotBytes_entry sim sound bit mapped small bound
  refine ⟨wordAt_congr _ _ _ _ fun index bound => bytes _ (by omega), fun name named => ?_⟩
  apply streq_congr
  intro index bound
  have := named.short
  exact bytes _ (by omega)

theorem HoldsOnly.lookup {de : Bytes} (holds : HoldsOnly s pinum name de)
    (sim : Sim g s v) (sound : Sound g v) (bit : v.inodeBit pinum.toNat = true)
    (short : name.length ≤ 28) (named : streq de 0 name = true) (live : wordAt de 28 ≠ minusOne) :
    v.lookupInum pinum.toNat name = some (wordAt de 28) := by
  have inside := sound.inodeBit_lt _ bit
  obtain ⟨dir, i, j, block, slot, here, only⟩ := holds
  rw [inodeOf_type sim pinum inside] at dir
  have used : ((inodeOf s pinum).size.toNat + 4095) / 4096 = (v.node pinum.toNat).blocksUsed := by
    rw [inodeOf_size sim pinum inside, Node.blocksUsed]
  rw [used] at block only
  have scanned : ∀ i' j', i' < (v.node pinum.toNat).blocksUsed → j' < 128 → ∀ index < 32,
      slotBytes s ((inodeOf s pinum).ptr i').toNat j' index =
        v.entry ((v.node pinum.toNat).at' i') j' index :=
    fun i' j' inside' slot' index small =>
      slotBytes_entry sim sound bit ((sound.node _ bit).scanned dir inside') slot' small
  have entry : ∀ index < 32, v.entry ((v.node pinum.toNat).at' i) j index = de index :=
    fun index small => (scanned i j block slot index small).symm.trans (here index small)
  have inum : v.entryInum ((v.node pinum.toNat).at' i) j = wordAt de 28 :=
    wordAt_congr _ _ _ _ fun index small => entry _ (by omega)
  have hit : v.hit name ((v.node pinum.toNat).at' i) j = true := by
    rw [Vol.hit, inum, streq_congr _ de 0 0 name fun index bound => by
      rw [Nat.zero_add]; exact entry index (by omega), named]
    simpa using live
  -- a hit elsewhere would be another live entry of the name
  have first : v.lookup pinum.toNat name = some (i, j) := by
    rw [Vol.lookup, if_pos dir, Vol.findEntry]
    have some' : ((Vol.slots (v.node pinum.toNat).blocksUsed).find?
        fun slot => v.hit name ((v.node pinum.toNat).at' slot.1) slot.2).isSome :=
      List.find?_isSome.mpr ⟨(i, j), mem_slots.mpr ⟨block, slot⟩, hit⟩
    obtain ⟨⟨i', j'⟩, found⟩ := Option.isSome_iff_exists.mp some'
    obtain ⟨block', slot'⟩ := mem_slots.mp (List.mem_of_find?_eq_some found)
    have hit' := List.find?_some found
    simp only [Vol.hit, Bool.and_eq_true, bne_iff_ne, ne_eq] at hit'
    obtain ⟨rfl, rfl⟩ := only i' j' block' slot' (by
        rw [streq_congr _ (v.entry ((v.node pinum.toNat).at' i') j') 0 0 name fun index bound => by
          rw [Nat.zero_add]; exact scanned i' j' block' slot' index (by omega)]
        exact hit'.1)
      (by
        rw [wordAt_congr _ (v.entry ((v.node pinum.toNat).at' i') j') 28 28 fun index bound =>
          scanned i' j' block' slot' _ (by omega)]
        exact hit'.2)
    exact found
  rw [Vol.lookupInum, first, Option.map_some, inum]

/-- Bytes that hold a name and an inode number are an entry filled in over them. -/
theorem entryOf_self {de : Bytes} (named : streq de 0 name = true) {index : Nat}
    (small : index < 32) : entryOf de (wordAt de 28) name index = de index := by
  by_cases inside : index ≤ name.length
  · have chars := (streq_iff de 0 name).mp named index inside
    rw [entryOf, ← Nat.zero_add index, strcpy_bytes _ _ _ _ inside, chars]
  · rw [entryOf, strcpy_outside (by omega)]
    by_cases word : index < 28
    · exact putWord_outside (by omega)
    · rw [putWord, overwrite_inside (by omega) (by omega), byteAt_wordAt _ _ _ (by omega),
        Nat.add_sub_cancel' (by omega)]

theorem holdsOnly_of_carries (sim : Sim g s v) (sound : Sound g v)
    (bit : v.inodeBit pinum.toNat = true) (dir : (v.node pinum.toNat).type = ufsDirectory)
    (named : FileName name) {k : Nat} {ninum : UInt32}
    (carries : Carries v pinum.toNat k name ninum)
    (used : k / 128 < (v.node pinum.toNat).blocksUsed)
    (once : ∀ k' inum', Carries v pinum.toNat k' name inum' → k' = k) :
    ∃ memory, HoldsOnly s pinum name (entryOf memory ninum name) := by
  have inside := sound.inodeBit_lt _ bit
  have blocks : ((inodeOf s pinum).size.toNat + 4095) / 4096 = (v.node pinum.toNat).blocksUsed := by
    rw [inodeOf_size sim pinum inside, Node.blocksUsed]
  obtain ⟨b, mapped, hit, rfl⟩ := carries
  obtain ⟨word, text⟩ := slot_eq sim sound bit mapped (Nat.mod_lt k (by decide))
  rw [Vol.hit, Bool.and_eq_true, ← text name named] at hit
  refine ⟨slotBytes s ((inodeOf s pinum).ptr (k / 128)).toNat (k % 128), ?_, k / 128, k % 128,
    by rwa [blocks], Nat.mod_lt k (by decide), fun index small => ?_, ?_⟩
  · rwa [inodeOf_type sim pinum inside]
  · rw [← word, entryOf_self hit.1 small]
  · intro i j block slot text' live
    rw [blocks] at block
    have mapped' := (sound.node _ bit).scanned dir block
    obtain ⟨word', same⟩ := slot_eq sim sound bit mapped' slot
    rw [same name named] at text'
    rw [word'] at live
    have hit' : v.hit name ((v.node pinum.toNat).at' i) j = true := by
      rw [Vol.hit, text']
      simpa using live
    have here := once _ _ (carries_of_hit mapped' slot hit')
    omega

end Entries

theorem names_survive_iff (g : Geometry) (s : Serv) (started : Started g s) (events : List Event)
    (all : Allowed step Sessions s events) (name : List UInt8) (accepted : Accepted name)
    (ninum : UInt32) (real : ninum ≠ minusOne) :
    Survives (run step s events) name ninum ↔ name.length ≤ 27 ∨ ninum.toNat % 256 = 0 := by
  obtain ⟨v, sim, sound⟩ := sessions_sound started all
  have short := accepted.short
  constructor
  · intro survives
    have sent : mfsCreat (fun _ => 0) 0 0 name = some _ := if_neg (by omega)
    have stored := survives.stored (fun _ => 0) 0 0 _ sent (fun _ => 0)
    rw [mfsCreat_name accepted sent] at stored
    exact (entryOf_inum_iff accepted _ _).mp stored
  · intro fits
    constructor
    · intro stack pinum type pk sent memory
      rw [mfsCreat_name accepted sent]
      exact (entryOf_inum_iff accepted memory ninum).mpr fits
    · intro pinum allocated stack type created sent memory holds stack' pk asked junk
      rw [mfsCreat_name accepted sent] at holds
      obtain ⟨arrives, node⟩ := mfsLookup_fields accepted asked
      have bit := (allocated_iff sim sound pinum).mp allocated
      have inum := (entryOf_inum_iff accepted memory ninum).mpr fits
      rw [arrives, node, lookupCode_sim sim sound bit short junk,
        holds.lookup sim sound bit short (streq_strcpy _ _ _) (by rw [inum]; exact real), inum]
      rfl

/-- After a `Creat` the root directory holds the entry, and it is what a `Lookup`
finds. -/
theorem letter_survives : ∃ s memory, Started smallest s ∧ Accepted [97] ∧
    HoldsOnly (run step s [creatA]) 0 [97] (entryOf memory 1 [97]) ∧
    Survives (run step s [creatA]) [97] 1 := by
  obtain ⟨s, started⟩ := started_exists smallest
  obtain ⟨allowed, v, rooted⟩ := Started.creatA started
  have accepted : Accepted [97] := ⟨by decide, by decide, by decide⟩
  have listed := (rooted.carries 2 [97] 1 letterA_fileName).mpr (by decide)
  have once : ∀ k inum, Carries v 0 k [97] inum → k = 2 := by
    intro k inum carries
    have entry := (rooted.carries k [97] inum letterA_fileName).mp carries
    simp [dot, dotDot] at entry
    exact entry.1
  obtain ⟨memory, holds⟩ := @holdsOnly_of_carries [97] smallest (run step s [creatA]) v 0
    rooted.backed.sim rooted.backed.sound (rooted.bit 0 (by decide)) rooted.dir
    letterA_fileName 2 1 listed (by rw [UInt32.toNat_zero, rooted.root]; decide) once
  exact ⟨s, memory, started, accepted, holds, (names_survive_iff smallest s started [creatA]
    ⟨allowed.1, trivial⟩ [97] accepted 1 (by decide)).mpr (Or.inl (by decide))⟩

def fullName : List UInt8 := List.replicate 28 97

/-- The first file of a file system gets inode 1; under a name of 28 bytes its
entry says inode 0, the root directory. -/
theorem full_name_loses_the_inode : ∃ s, Started smallest s ∧ Accepted fullName ∧
    (newInode s ufsRegularFile noJunk).1 = 1 ∧
    (∀ memory, wordAt (entryOf memory 1 fullName) 28 = 0) ∧
    ¬ Survives (run step s []) fullName 1 := by
  obtain ⟨s, started⟩ := started_exists smallest
  obtain ⟨v, rooted⟩ := Started.rooted started
  have accepted : Accepted fullName := ⟨by decide, by decide, by decide⟩
  have fresh := (newInode_sim rooted.backed.sim rooted.backed.sound.highestInode_lt ufsRegularFile
    noJunk).1
  rw [Vol.newInode, if_neg (by rw [rooted.highestInode]; decide), rooted.highestInode] at fresh
  have lost : ∀ memory, wordAt (entryOf memory 1 fullName) 28 = 0 := fun memory =>
    UInt32.toNat_inj.mp (entryOf_full memory 1 (by decide))
  refine ⟨s, started, accepted, fresh, lost, fun survives => ?_⟩
  have sent : mfsCreat (fun _ => 0) 0 0 fullName = some _ := if_neg (by decide)
  have stored := survives.stored (fun _ => 0) 0 0 _ sent (fun _ => 0)
  rw [mfsCreat_name accepted sent, lost] at stored
  cases stored

end OsProjects.EntryNames
