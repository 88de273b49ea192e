import OsProjects.DirectorySlots

/-!
What one request does to a directory. It leaves the directory alone, makes it
with `.` and `..` or, when the data blocks have run out, without a block,
appends one entry at its size, or removes one entry.
-/

namespace OsProjects.DirectorySteps

open ByteStore UfsLayout FileServer Volume VolumeSteps VolumeSound VolumeRefinement MkfsImage Runs
  ServerRuns DirectoryBlocks BlockOwnership DirectorySlots Function

variable {g : Geometry} {v v' : Vol} {d : Nat}

structure Appends (g : Geometry) (v : Vol) (d : Nat) (de : Bytes) (v' : Vol) (b : Nat)
    (before : Bytes) : Prop where
  inside : (v.node d).size / 4096 ≤ 29
  source : (v.node d).direct ((v.node d).size / 4096) = some b ∧ before = v.block b ∨
    (v.node d).direct ((v.node d).size / 4096) = none ∧ v.hghstAllocDblk + 1 < g.numData ∧
      (∀ i, (v.node d).direct i ≠ some b) ∧ ∀ index < 4096, before index = 0
  node : v'.node d = { (v.node d).setPtr ((v.node d).size / 4096) b with
    size := (v.node d).size + 32 }
  here : v'.block b = overwrite before ((v.node d).size % 4096) 32 de
  others : ∀ i b', (v.node d).direct i = some b' → b' ≠ b → v'.block b' = v.block b'

inductive DirStep (g : Geometry) (v : Vol) (request : Request) (reply : UInt32) (v' : Vol)
    (d : Nat) : Prop where
  | kept (old : v.inodeBit d = true) (apart : Apart d v v')
      (spared : ∀ pinum name, request = .unlink pinum name → d = pinum.toNat → reply ≠ 0)
  | starved (new : v.inodeBit d = false) (failed : reply = minusOne)
      (full : v.hghstAllocDblk = g.numData - 1) (node : v'.node d = Node.fresh ufsDirectory)
  | made (pinum : UInt32) (name : List UInt8) (b : Nat) (junk : Bytes)
      (asked : request = .creat pinum ufsDirectory name) (done : reply = 0)
      (new : d = v.highestInode + 1) (taken : v'.highestInode = v.highestInode + 1)
      (node : v'.node d = { (Node.fresh ufsDirectory).setPtr 0 b with size := 64 })
      (contents : ∀ index < 4096, v'.block b index = freshDir junk (UInt32.ofNat d) pinum index)
  | appended (pinum type : UInt32) (name : List UInt8) (b : Nat) (junk before : Bytes)
      (asked : request = .creat pinum type name) (done : reply = 0) (parent : d = pinum.toNat)
      (old : v.inodeBit d = true) (absent : v.lookup d name = none)
      (taken : v'.highestInode = v.highestInode + 1)
      (appends : Appends g v d (Vol.newEntry junk (v.highestInode + 1) name) v' b before)
  | removed (pinum : UInt32) (name : List UInt8) (i j : Nat)
      (asked : request = .unlink pinum name) (done : reply = 0) (parent : d = pinum.toNat)
      (old : v.inodeBit d = true) (found : v.lookup d name = some (i, j))
      (result : v' = v.removeEntry d ((v.node d).at' i) j)

theorem valid_inode {inum : UInt32} (inside : inum.toNat < g.numInodes) : inum ≠ minusOne := by
  have layout := g.layout
  rw [← UInt32.ofNat_toNat (x := inum)]
  exact ofNat_ne_minusOne (by omega)

theorem synced_free (synced : Synced v) : v.inodeBit (v.highestInode + 1) = false := by
  cases set : v.inodeBit (v.highestInode + 1) with
  | false => rfl
  | true =>
    have := synced.inodes _ set
    omega

section Creating
variable {p : Nat} {type : UInt32} {name : List UInt8} {chance : Chance}

theorem EntryOutcome.lost_of_full {de : Bytes} (outcome : EntryOutcome g v p de v')
    (full : ¬ Room g v p) : v' = v := by
  cases outcome with
  | lost reason => rfl
  | old b dir inside mapped => exact absurd ⟨inside, .inl (by simp [mapped])⟩ full
  | new v1 dir inside hole alloc next =>
    have bound := alloc.counter_lt
    exact absurd ⟨inside, .inr (by omega)⟩ full

theorem addEntry_full (sound : Sound g v) (bit : v.inodeBit p = true) (full : ¬ Room g v p)
    (n : Nat) (name : List UInt8) (junk : Bytes) : v.addEntry g p n name junk = v :=
  EntryOutcome.lost_of_full
    (writeEntry_outcome (sound.node p bit) sound.hghstAllocDblk_lt (Vol.newEntry junk n name)) full

theorem opened_contents (sound : Sound g v) (room : v.highestInode + 1 < g.numInodes)
    (block : v.hghstAllocDblk + 1 < g.numData) (p : Nat) (chance : Chance) :
    ∀ index < 4096, (opened g v p ufsDirectory chance).block
        (g.dataRegionAddr + (v.hghstAllocDblk + 1)) index =
      freshDir chance.dir (UInt32.ofNat (v.highestInode + 1)) (UInt32.ofNat p) index := by
  intro index small
  have counter := newInode_counter sound ufsDirectory
  rcases makeDir_cases (newInode_sound sound room ufsDirectory) (v.highestInode + 1) p chance.dir
    with ⟨full, _⟩ | ⟨v1, _, next, made⟩
  · omega
  · rw [opened, if_pos rfl, made]
    simp only [Vol.setNode, Vol.putBlock, next, counter, update_self]
    rw [overwrite_inside (Nat.zero_le _) (by omega), Nat.sub_zero]

theorem Stores.appends {v1 : Vol} {de : Bytes} {b : Nat} (stores : Stores g v1 p de v' b)
    (sound : Sound g v1) (tidy : Tidy g v1) (synced : Synced v1) (bit : v1.inodeBit p = true)
    (inside : (v1.node p).size / 4096 ≤ 29) (more : v.hghstAllocDblk ≤ v1.hghstAllocDblk)
    (apart : Apart p v v1) : Appends g v p de v' b (v1.block b) := by
  have same := apart.node
  refine ⟨same ▸ inside, ?_, same ▸ stores.node, ?_, ?_⟩
  · rcases stores.source with mapped | ⟨hole, new, free⟩
    · rw [same] at mapped
      exact .inl ⟨mapped, apart.block _ b mapped⟩
    · refine .inr ⟨same ▸ hole, by omega, ?_,
        fun index small => stores.blank tidy synced hole small⟩
      intro i here
      rw [← same] at here
      obtain ⟨_, k, _, used, place⟩ := (sound.node p bit).pointer i b here
      have := synced.blocks k used
      omega
  · rw [stores.block, update_self, same]
  · intro i b' here other
    rw [stores.block, update_of_ne other, apart.block i b' here]

section Entering
variable {pinum : UInt32} (sound : Sound g v) (tidy : Tidy g v) (synced : Synced v)
  (bit : v.inodeBit pinum.toNat = true) (room : v.highestInode + 1 < g.numInodes)
  (blocks : v.hghstAllocDblk + ownBlocks type < g.numData)
  (result : v' = (opened g v pinum.toNat type chance).addEntry g pinum.toNat (v.highestInode + 1)
    name chance.entry)
include sound tidy synced bit room result

include blocks

theorem entered_dir (isDir : type = ufsDirectory) :
    ∃ b, v'.node (v.highestInode + 1) = { (Node.fresh ufsDirectory).setPtr 0 b with size := 64 } ∧
      ∀ index < 4096, v'.block b index =
        freshDir chance.dir (UInt32.ofNat (v.highestInode + 1)) pinum index := by
  have apart := entered_apart sound tidy synced bit room result
  subst isDir
  have small : pinum.toNat < 4294967295 := by
    have := g.layout
    have := sound.inodeBit_lt _ bit
    omega
  have node := (opened_dir sound room blocks small chance).1
  refine ⟨_, apart.node.trans node, ?_⟩
  intro index inside
  rw [apart.block 0 _ (by rw [node]; simp), opened_contents sound room blocks _ _ index inside,
    UInt32.ofNat_toNat]

theorem entered_appends (dir : (v.node pinum.toNat).type = ufsDirectory)
    (fits : Room g (opened g v pinum.toNat type chance) pinum.toNat) :
    ∃ b before, Appends g v pinum.toNat (Vol.newEntry chance.entry (v.highestInode + 1) name) v' b
      before := by
  have low := synced.inodes _ bit
  have first := opened_respects sound tidy synced room pinum.toNat type chance
  have bit1 := first.inodeBit _ bit
  have apart := first.apart _ (by omega) bit
  have dir1 : ((opened g v pinum.toNat type chance).node pinum.toNat).type = ufsDirectory :=
    apart.node ▸ dir
  obtain ⟨b, stores⟩ := addEntry_stores first.sound bit1 dir1 fits (v.highestInode + 1) name
    chance.entry
  have counter := opened_counter sound room blocks pinum.toNat chance
  subst result
  exact ⟨b, _, Stores.appends stores first.sound first.tidy (first.synced synced) bit1 fits.1
    (by omega) apart⟩

theorem entered_dirStep (dir : (v.node pinum.toNat).type = ufsDirectory)
    (absent : v.lookup pinum.toNat name = none) (bit' : v'.inodeBit d = true)
    (dir' : (v'.node d).type = ufsDirectory) : DirStep g v (.creat pinum type name) 0 v' d := by
  have low := synced.inodes _ bit
  have first := opened_respects sound tidy synced room pinum.toNat type chance
  have bit1 := first.inodeBit _ bit
  have taken := entered_highestInode sound tidy synced bit room result
  by_cases new : d = v.highestInode + 1
  · subst new
    by_cases isDir : type = ufsDirectory
    · obtain ⟨b, node, contents⟩ := entered_dir sound tidy synced bit room blocks result isDir
      exact .made pinum name b chance.dir (by rw [isDir]) rfl rfl taken node contents
    · rw [entered_file sound tidy synced bit room result isDir] at dir'
      exact absurd dir' isDir
  · have old := ((entered_bit sound tidy synced bit room result d).mp bit').resolve_right new
    have apart := first.apart d new old
    by_cases parent : d = pinum.toNat
    · subst parent
      by_cases fits : Room g (opened g v pinum.toNat type chance) pinum.toNat
      · obtain ⟨b, before, appends⟩ := entered_appends sound tidy synced bit room blocks result dir
          fits
        exact .appended pinum type name b chance.entry before rfl rfl rfl old absent taken appends
      -- the result of this `write_file` is not checked: the request is answered 0 all the same
      · rw [result, addEntry_full first.sound bit1 fits]
        exact .kept old apart nofun
    · have second := @addEntry_respects g _ pinum.toNat first.sound first.tidy
        (first.synced synced) bit1 (v.highestInode + 1) name chance.entry
        (fun m => m = pinum.toNat) rfl
      rw [result]
      exact .kept old (apart.trans (second.apart d parent (first.inodeBit d old))) nofun
end Entering

section
variable {ok : Bool} {pinum : UInt32}
  (outcome : CreatOutcome g v pinum.toNat type name chance ok v') (sound : Sound g v)
  (tidy : Tidy g v) (synced : Synced v) (bit : v.inodeBit pinum.toNat = true)
include outcome sound tidy synced bit

theorem CreatOutcome.dirStep
    (bit' : v'.inodeBit d = true) (dir' : (v'.node d).type = ufsDirectory) :
    DirStep g v (.creat pinum type name) (Vol.code ok) v' d := by
  cases outcome with
  | notDir | present | noInode => exact .kept bit' (.refl d v) nofun
  -- the inode is taken and the block is not: the directory stays without one
  | noBlock dir absent room isDir full =>
    have taken : Respects g (fun m => m = v.highestInode + 1) v (v.newInode g type).2 :=
      newInode_respects sound tidy room type rfl
    by_cases new : d = v.highestInode + 1
    · subst new
      exact .starved (synced_free synced) rfl full (isDir ▸ newInode_fresh sound room type)
    · have old : v.inodeBit d = true := by
        have result := newInode_taken sound room type
        rw [result] at bit'
        simpa [update_of_ne new] using bit'
      exact .kept old (taken.apart d new old) nofun
  | file dir absent room isFile =>
    exact entered_dirStep sound tidy synced bit room (by
      have := sound.hghstAllocDblk_lt
      simpa [ownBlocks, isFile] using this) (by rw [opened, if_neg isFile]) dir absent bit' dir'
  | dir dir absent room isDir block =>
    exact entered_dirStep sound tidy synced bit room (by
      simpa [ownBlocks, isDir] using block) (by rw [opened, if_pos isDir]) dir absent bit' dir'

theorem CreatOutcome.new_type
    (new : v.inodeBit d = false) (bit' : v'.inodeBit d = true) : (v'.node d).type = type := by
  have changed : v.inodeBit d ≠ true := by simp [new]
  cases outcome with
  | notDir | present | noInode => exact absurd bit' changed
  | noBlock dir absent room isDir full =>
    have result := newInode_taken sound room type
    rw [result] at bit' ⊢
    by_cases here : d = v.highestInode + 1
    · simp [here, Node.fresh]
    · exact absurd (by simpa [update_of_ne here] using bit') changed
  | file dir absent room isFile =>
    have result : (v.newInode g type).2.addEntry g pinum.toNat (v.highestInode + 1) name
        chance.entry = (opened g v pinum.toNat type chance).addEntry g pinum.toNat
          (v.highestInode + 1) name chance.entry := by
      rw [opened, if_neg isFile]
    have here := ((entered_bit sound tidy synced bit room result d).mp bit').resolve_left changed
    rw [here, entered_file sound tidy synced bit room result isFile]
    rfl
  | dir dir absent room isDir block =>
    have result : ((v.newInode g type).2.makeDir g (v.highestInode + 1) pinum.toNat
        chance.dir).2.addEntry g pinum.toNat (v.highestInode + 1) name chance.entry =
          (opened g v pinum.toNat type chance).addEntry g pinum.toNat
            (v.highestInode + 1) name chance.entry := by
      rw [opened, if_pos isDir]
    have here := ((entered_bit sound tidy synced bit room result d).mp bit').resolve_left changed
    obtain ⟨b, node, _⟩ := entered_dir sound tidy synced bit room
      (by simpa [ownBlocks, isDir] using block) result isDir
    rw [here, node, isDir]
    rfl
end
end Creating

section
variable (sound : Sound g v) (tidy : Tidy g v) {request : Request}
  (current : Allocating request → Synced v) (admissible : Admissible v request) (chance : Chance)
include sound tidy current admissible

/-- Each directory there is after a request, and how it came to be what it is. -/
theorem serve_dirStep (bit' : (v.serve g request chance).2.inodeBit d = true)
    (dir' : ((v.serve g request chance).2.node d).type = ufsDirectory) :
    DirStep g v request (v.serve g request chance).1 (v.serve g request chance).2 d := by
  obtain ⟨bit, small, _⟩ := admissible
  cases request with
  | lookup | stat | read => exact .kept bit' (.refl d v) fun _ _ same => by cases same
  | write inum buf offset nbytes =>
    have writes := (writeFile_outcome inum.toNat buf offset.toNat nbytes.toNat ufsRegularFile
      sound.hghstAllocDblk_lt).writes sound.hghstAllocDblk_lt small
    have old : v.inodeBit d = true := by
      simp only [Vol.serve, writes.inodeBit] at bit'
      exact bit'
    by_cases same : d = inum.toNat
    · subst same
      simp only [Vol.serve, writes.fills.type] at dir'
      refine .kept old ?_ (fun _ _ same => by cases same)
      simp only [Vol.serve, Vol.writeFile]
      -- `write_file` refuses a directory
      rw [if_pos (.inl (by rw [dir']; decide))]
      exact .refl _ v
    · have respects := writeFile_respects sound tidy (current trivial) bit buf offset.toNat
        nbytes.toNat small
      exact .kept old (respects.apart d same old) fun _ _ same => by cases same
  | creat pinum type name =>
    exact CreatOutcome.dirStep (creatFile_outcome sound _ type name chance) sound tidy
      (current trivial) bit bit' dir'
  | unlink pinum name =>
    have respects : Respects g (fun m => m = pinum.toNat) v
        (v.unlinkFile pinum.toNat name chance.refuse).2 :=
      unlinkFile_respects sound tidy bit name chance.refuse
    simp only [Vol.serve] at bit' dir' ⊢
    cases found : v.lookup pinum.toNat name with
    | none =>
      simp only [Vol.unlinkFile, found] at bit' ⊢
      exact .kept bit' (.refl d v) fun _ _ _ _ => by decide
    | some slot =>
      obtain ⟨i, j⟩ := slot
      by_cases refused : chance.refuse = true
      · simp only [Vol.unlinkFile, found, refused, if_true] at bit' ⊢
        exact .kept bit' (.refl d v) fun _ _ _ _ => by decide
      · simp only [Vol.unlinkFile, found, refused, Bool.false_eq_true, if_false]
          at bit' respects ⊢
        have old : v.inodeBit d = true := bit'
        by_cases parent : d = pinum.toNat
        · subst parent
          exact .removed pinum name i j rfl rfl rfl old found rfl
        · refine .kept old (respects.apart d parent old) ?_
          rintro _ _ same here
          cases same
          exact absurd here parent

/-- An inode that was not there is the one a `creat_file` took. -/
theorem serve_new
    (new : v.inodeBit d = false) (bit' : (v.serve g request chance).2.inodeBit d = true) :
    ∃ pinum type name, request = .creat pinum type name ∧
      ((v.serve g request chance).2.node d).type = type := by
  obtain ⟨bit, small, _⟩ := admissible
  have same : (v.serve g request chance).2.inodeBit = v.inodeBit → False := by
    intro same
    rw [same, new] at bit'
    cases bit'
  cases request with
  | lookup | stat | read => exact absurd rfl same
  | write inum buf offset nbytes =>
    have writes := (writeFile_outcome inum.toNat buf offset.toNat nbytes.toNat ufsRegularFile
      sound.hghstAllocDblk_lt).writes sound.hghstAllocDblk_lt small
    exact absurd writes.inodeBit same
  | creat pinum type name =>
    exact ⟨pinum, type, name, rfl, CreatOutcome.new_type
      (creatFile_outcome sound pinum.toNat type name chance) sound tidy (current trivial) bit new
      bit'⟩
  | unlink pinum name =>
    refine absurd ?_ same
    simp only [Vol.serve, Vol.unlinkFile]
    cases v.lookup pinum.toNat name with
    | none => rfl
    | some slot => cases chance.refuse with
      | false | true => rfl
end

/-- An unlink that is answered 0 found an entry and removed it. -/
theorem unlink_done {pinum : UInt32} {name : List UInt8} {chance : Chance}
    (done : (v.serve g (.unlink pinum name) chance).1 = 0) :
    ∃ i j, v.lookup pinum.toNat name = some (i, j) ∧ (v.serve g (.unlink pinum name) chance).2 =
        v.removeEntry pinum.toNat ((v.node pinum.toNat).at' i) j := by
  simp only [Vol.serve, Vol.unlinkFile] at done ⊢
  cases found : v.lookup pinum.toNat name with
  | none =>
    rw [found] at done
    cases done
  | some slot =>
    cases refused : chance.refuse with
    | true =>
      rw [found, refused] at done
      cases done
    | false => exact ⟨slot.1, slot.2, rfl, rfl⟩

theorem serve_counter_le (sound : Sound g v) (tidy : Tidy g v) {request : Request}
    (admissible : Admissible v request) (chance : Chance) :
    v.hghstAllocDblk ≤ (v.serve g request chance).2.hghstAllocDblk := by
  obtain ⟨bit, small, _⟩ := admissible
  cases request with
  | lookup | stat | read => exact le_refl _
  | write inum buf offset nbytes =>
    exact ((writeFile_outcome inum.toNat buf offset.toNat nbytes.toNat ufsRegularFile
      sound.hghstAllocDblk_lt).writes sound.hghstAllocDblk_lt small).counter_le
  | creat pinum type name =>
    have outcome := creatFile_outcome sound pinum.toNat type name chance
    have same := newInode_counter sound type
    have keeps := fun room =>
      (@newInode_respects g v sound tidy room type (fun _ => True) trivial).inodeBit _ bit
    simp only [Vol.serve]
    generalize v.creatFile g pinum.toNat type name chance = result at outcome ⊢
    obtain ⟨ok, v'⟩ := result
    cases outcome with
    | notDir | present | noInode => exact le_refl _
    | noBlock dir absent room isDir full => exact same.ge
    | file dir absent room isFile =>
      have sound1 := newInode_sound sound room type
      exact same.ge.trans (addEntry_touches sound1 (keeps room) _ name chance.entry).counter_le
    | dir dir absent room isDir block =>
      have sound1 := newInode_sound sound room type
      have made := makeDir_touches sound1 (v.highestInode + 1) pinum.toNat chance.dir
      have sound2 := makeDir_sound sound1 (newInode_bit sound room type) pinum.toNat chance.dir
      refine same.ge.trans (made.counter_le.trans (addEntry_touches sound2 ?_ _ name
        chance.entry).counter_le)
      rw [made.inodeBit]
      exact keeps room
  | unlink pinum name =>
    simp only [Vol.serve, Vol.unlinkFile]
    cases v.lookup pinum.toNat name with
    | none => exact le_refl _
    | some slot => cases chance.refuse with
      | true | false => exact le_refl _

section Slots
variable {de before : Bytes} {b b' i j : Nat}

namespace Appends

section
variable (appends : Appends g v d de v' b before)
include appends

/-- A block of the directory was one before, or is the new one. -/
theorem mapped (here : (v'.node d).direct i = some b') :
    b' = b ∨ (v.node d).direct i = some b' ∧ b' ≠ b := by
  by_cases same : b' = b
  · exact .inl same
  · rw [appends.node] at here
    by_cases slot : i = (v.node d).size / 4096
    · subst slot
      exact absurd (by simpa using here.symm) same
    · exact .inr ⟨by simpa [Node.setPtr_other slot] using here, same⟩

theorem entry_new (aligned : 32 ∣ (v.node d).size)
    (slot : j = (v.node d).size % 4096 / 32) {index : Nat} (small : index < 32) :
    v'.entry b j index = de index := by
  obtain ⟨k, whole⟩ := aligned
  rw [Vol.entry, appends.here, overwrite_inside (by omega) (by omega)]
  congr 1
  omega

theorem entry_beside (aligned : 32 ∣ (v.node d).size)
    (slot : j ≠ (v.node d).size % 4096 / 32) {index : Nat} (small : index < 32) :
    v'.entry b j index = before (32 * j + index) := by
  obtain ⟨k, whole⟩ := aligned
  rw [Vol.entry, appends.here, overwrite_outside (by omega)]

theorem entry_other (old : (v.node d).direct i = some b') (other : b' ≠ b) (j index : Nat) :
    v'.entry b' j index = v.entry b' j index := by
  rw [Vol.entry, appends.others i b' old other, Vol.entry]
end

end Appends

/-- The blocks of a directory after a removal are blocks it had. -/
theorem removeEntry_mapped {c : Nat} (here : ((v.removeEntry d b j).node d).direct c = some b') :
    c = 0 ∧ b' = b ∨ c ≠ 0 ∧ (v.node d).direct c = some b' := by
  simp only [Vol.removeEntry, Vol.setNode, update_self] at here
  by_cases first : c = 0
  · subst first
    exact .inl ⟨rfl, by simpa using here.symm⟩
  · exact .inr ⟨first, by simpa [Node.setPtr_other first] using here⟩

theorem Apart.slot (apart : Apart d v v') (mapped : (v.node d).direct i = some b) (j : Nat) :
    v'.entryInum b j = v.entryInum b j ∧ ∀ name, v'.hit name b j = v.hit name b j := by
  have same : v'.entry b j = v.entry b j := by
    unfold Vol.entry
    rw [apart.block i b mapped]
  have inum : v'.entryInum b j = v.entryInum b j := by rw [Vol.entryInum, same, Vol.entryInum]
  exact ⟨inum, fun name => by rw [Vol.hit, same, inum, Vol.hit]⟩

theorem fresh_mapped (node : v.node d = { (Node.fresh ufsDirectory).setPtr 0 b with size := 64 })
    (mapped : (v.node d).direct i = some b') : i = 0 ∧ b' = b := by
  rw [node] at mapped
  by_cases first : i = 0
  · subst first
    rw [Node.setPtr_same] at mapped
    exact ⟨rfl, (Option.some.inj mapped).symm⟩
  · simp [Node.setPtr_other first, Node.fresh] at mapped

/-- A slot of its block: one of the two entries, or unused. -/
theorem fresh_slot {junk : Bytes} {self parent : UInt32}
    (contents : ∀ index < 4096, v.block b index = freshDir junk self parent index)
    (small : j < 128) (valid : self ≠ minusOne) (valid' : parent ≠ minusOne) :
    v.hit dot b j = true ∧ v.entryInum b j = self ∨
      v.hit dotDot b j = true ∧ v.entryInum b j = parent ∨ v.entryInum b j = minusOne := by
  by_cases first : j = 0
  · exact .inl ((hit_freshDir contents small valid valid' dot_fileName).mpr
      (.inl ⟨first, rfl, rfl⟩))
  by_cases second : j = 1
  · exact .inr (.inl ((hit_freshDir contents small valid valid' dotDot_fileName).mpr
      (.inr ⟨second, rfl, rfl⟩)))
  · rw [inum_freshDir contents small, if_neg first, if_neg second]
    exact .inr (.inr rfl)

theorem fresh_carries {junk : Bytes} {self parent inum : UInt32} {k : Nat} {name : List UInt8}
    (node : v.node d = { (Node.fresh ufsDirectory).setPtr 0 b with size := 64 })
    (contents : ∀ index < 4096, v.block b index = freshDir junk self parent index)
    (valid : self ≠ minusOne) (valid' : parent ≠ minusOne) (named : FileName name) :
    Carries v d k name inum ↔
      k = 0 ∧ name = dot ∧ inum = self ∨ k = 1 ∧ name = dotDot ∧ inum = parent :=
  carries_freshDir (by simp [node])
    (fun i other => by simp [node, Node.setPtr_other other, Node.fresh]) contents valid valid' named

theorem inum_blank (blank : ∀ index < 32, v.entry b j index = 0) : v.entryInum b j = 0 := by
  apply wordAt_of_bytes
  intro index small
  rw [blank _ (by omega)]
  revert small
  revert index
  decide

theorem hit_blank {name : List UInt8} (blank : ∀ index < 32, v.entry b j index = 0)
    (named : FileName name) : v.hit name b j = false := by
  rw [Vol.hit, streq_blank (blank 0 (by decide)) named, Bool.false_and]

theorem hit_newEntry {junk : Bytes} {n : Nat} {text name : List UInt8}
    (bytes : ∀ index < 32, v.entry b j index = Vol.newEntry junk n text index)
    (plain : 0 ∉ text) (named : FileName name) (hit : v.hit name b j = true) : name = text := by
  have same : streq (v.entry b j) 0 name = streq (Vol.newEntry junk n text) 0 name := by
    apply streq_congr
    intro index bound
    have := named.short
    exact bytes _ (by omega)
  rw [Vol.hit, same, newEntry_name junk n plain named.plain] at hit
  simp only [Bool.and_eq_true, decide_eq_true_eq] at hit
  exact hit.1

theorem newEntry_hit {junk : Bytes} {n : Nat} {name : List UInt8}
    (bytes : ∀ index < 32, v.entry b j index = Vol.newEntry junk n name index)
    (named : FileName name) (valid : n < 4294967295) :
    v.hit name b j = true ∧ v.entryInum b j = UInt32.ofNat n := by
  have word : v.entryInum b j = UInt32.ofNat n := by
    rw [← newEntry_inum junk n named.short]
    exact wordAt_congr _ _ _ _ fun index bound => bytes _ (by omega)
  have text : streq (v.entry b j) 0 name = true := by
    rw [streq_congr _ (Vol.newEntry junk n name) 0 0 name]
    · simp [newEntry_name junk n named.plain named.plain]
    · intro index bound
      have := named.short
      exact bytes _ (by omega)
  refine ⟨?_, word⟩
  rw [Vol.hit, text, word]
  simp [ofNat_ne_minusOne valid]

theorem removeEntry_entry {j' : Nat} (other : ¬ (b' = b ∧ j' = j)) {index : Nat}
    (small : index < 32) : (v.removeEntry d b j).entry b' j' index = v.entry b' j' index := by
  simp only [Vol.entry, Vol.removeEntry, Vol.setNode, Vol.putBlock]
  by_cases same : b' = b
  · subst same
    rw [update_self, overwrite_outside (by omega)]
  · rw [update_of_ne same]

inductive SlotStep (v : Vol) (request : Request) (reply : UInt32) (v' : Vol) (d b j : Nat) :
    Prop where
  | same (old : v.inodeBit d = true) (i : Nat) (mapped : (v.node d).direct i = some b)
      (bytes : ∀ index < 32, v'.entry b j index = v.entry b j index)
      (spared : ∀ pinum name i' j', request = .unlink pinum name → d = pinum.toNat → reply = 0 →
        v.lookup d name = some (i', j') → ¬ (b = (v.node d).at' i' ∧ j = j'))
  | dots (pinum : UInt32) (name : List UInt8) (junk : Bytes)
      (asked : request = .creat pinum ufsDirectory name) (done : reply = 0)
      (new : d = v.highestInode + 1) (taken : v'.highestInode = v.highestInode + 1)
      (contents : ∀ index < 4096, v'.block b index = freshDir junk (UInt32.ofNat d) pinum index)
      (only : ∀ i c, (v'.node d).direct i = some c → c = b)
  | entered (pinum type : UInt32) (name : List UInt8) (junk : Bytes)
      (asked : request = .creat pinum type name) (done : reply = 0) (parent : d = pinum.toNat)
      (old : v.inodeBit d = true) (absent : v.lookup d name = none)
      (taken : v'.highestInode = v.highestInode + 1)
      (bytes : ∀ index < 32,
        v'.entry b j index = Vol.newEntry junk (v.highestInode + 1) name index)
      (place : j = (v.node d).size % 4096 / 32)
      (block : (v'.node d).direct ((v.node d).size / 4096) = some b)
  | blank (zero : ∀ index < 32, v'.entry b j index = 0) (pinum type : UInt32) (name : List UInt8)
      (asked : request = .creat pinum type name) (parent : d = pinum.toNat)
      (old : v.inodeBit d = true)
      (grown : (v.node d).direct ((v.node d).size / 4096) = none ∧
        (v'.node d).direct ((v.node d).size / 4096) = some b)
  | cleared (unused : v'.entryInum b j = minusOne)

theorem DirStep.slot {request : Request} {reply : UInt32} (moved : DirStep g v request reply v' d)
    (sound : Sound g v) (dir : v.inodeBit d = true → (v.node d).type = ufsDirectory)
    (mapped : (v'.node d).direct i = some b) (small : j < 128) :
    SlotStep v request reply v' d b j := by
  cases moved with
  | kept old apart spared =>
    rw [apart.node] at mapped
    refine .same old i mapped (fun index _ => ?_) ?_
    · rw [Vol.entry, apart.block i b mapped, Vol.entry]
    · intro pinum name _ _ asked parent done _
      exact absurd done (spared pinum name asked parent)
  | starved new failed full node =>
    rw [node] at mapped
    exact absurd mapped (by simp [Node.fresh])
  | made pinum name c junk asked done new taken node contents =>
    obtain ⟨rfl, rfl⟩ := fresh_mapped node mapped
    exact .dots pinum name junk asked done new taken contents fun i e here =>
      (fresh_mapped node here).2
  | appended pinum type name c junk before asked done parent old absent taken appends =>
    have aligned := (sound.node d old).aligned (dir old)
    have pointer : (v'.node d).direct ((v.node d).size / 4096) = some c := by
      rw [appends.node]
      simp
    rcases appends.mapped mapped with rfl | ⟨old', other⟩
    · by_cases slot : j = (v.node d).size % 4096 / 32
      · exact .entered pinum type name junk asked done parent old absent taken
          (fun index bound => appends.entry_new aligned slot bound) slot pointer
      · rcases appends.source with ⟨here, rfl⟩ | ⟨hole, _, _, zero⟩
        · refine .same old _ here (fun index bound => appends.entry_beside aligned slot bound) ?_
          intro _ _ _ _ unlink
          rw [asked] at unlink
          cases unlink
        · exact .blank (fun index bound =>
            (appends.entry_beside aligned slot bound).trans (zero _ (by omega))) pinum type name
              asked parent old ⟨hole, pointer⟩
    · refine .same old i old' (fun index _ => appends.entry_other old' other j index) ?_
      intro _ _ _ _ unlink
      rw [asked] at unlink
      cases unlink
  | removed pinum name e k asked done parent old found result =>
    subst result
    have place := (sound.node d old).scanned (dir old) (lookup_found found).2.1
    by_cases cleared : b = (v.node d).at' e ∧ j = k
    · rw [cleared.1, cleared.2]
      exact .cleared (removeEntry_inum v d _ _)
    · have before : ∃ c, (v.node d).direct c = some b := by
        rcases removeEntry_mapped mapped with ⟨_, rfl⟩ | ⟨_, old'⟩
        · exact ⟨e, place⟩
        · exact ⟨i, old'⟩
      obtain ⟨c, mapped'⟩ := before
      refine .same old c mapped' (fun index bound => removeEntry_entry cleared bound) ?_
      intro pinum' name' e' k' asked' _ _ found'
      rw [asked] at asked'
      cases asked'
      cases found.symm.trans found'
      exact cleared

section
variable (sound : Sound g v) (tidy : Tidy g v) {request : Request}
  (current : Allocating request → Synced v) (admissible : Admissible v request) (chance : Chance)
include sound tidy current admissible

theorem serve_type (old : v.inodeBit d = true) :
    ((v.serve g request chance).2.node d).type = (v.node d).type := by
  by_cases allocating : Allocating request
  · exact (serve_respects sound tidy current admissible chance).type (current allocating) d old
  · cases request with
    | lookup | stat | read => rfl
    | write | creat => exact absurd trivial allocating
    | unlink pinum name =>
      simp only [Vol.serve, Vol.unlinkFile]
      cases v.lookup pinum.toNat name with
      | none => rfl
      | some slot => cases chance.refuse with
        | true => rfl
        | false =>
          simp only [Bool.false_eq_true, if_false, Vol.removeEntry, Vol.setNode]
          by_cases same : d = pinum.toNat
          · simp [same]
          · simp [same, Vol.putBlock]

theorem serve_wasDir (dir' : ((v.serve g request chance).2.node d).type = ufsDirectory)
    (old : v.inodeBit d = true) : (v.node d).type = ufsDirectory :=
  (serve_type sound tidy current admissible chance old).symm.trans dir'

theorem serve_slotStep (bit' : (v.serve g request chance).2.inodeBit d = true)
    (dir' : ((v.serve g request chance).2.node d).type = ufsDirectory)
    (mapped : ((v.serve g request chance).2.node d).direct i = some b) (small : j < 128) :
    SlotStep v request (v.serve g request chance).1 (v.serve g request chance).2 d b j :=
  (serve_dirStep sound tidy current admissible chance bit' dir').slot sound
    (serve_wasDir sound tidy current admissible chance dir') mapped small
end

theorem Initial.node (initial : Initial g v) :
    v.node 0 = { (Node.fresh ufsDirectory).setPtr 0 g.dataRegionAddr with size := 64 } :=
  initial.root.trans (fresh_oneBlock _ 64).symm

theorem Initial.block (initial : Initial g v) (bit : v.inodeBit d = true)
    (mapped : (v.node d).direct i = some b) : d = 0 ∧ i = 0 ∧
      ∃ junk, ∀ index < 4096, v.block b index = freshDir junk 0 0 index := by
  have root : d = 0 := by simpa [initial.inodeBit] using bit
  subst root
  obtain ⟨first, rfl⟩ := fresh_mapped (Initial.node initial) mapped
  exact ⟨rfl, first, initial.entries⟩
end Slots

def NamesFile : Request → Prop
  | .creat _ _ name => FileName name
  | .unlink _ name => FileName name
  | _ => True

section Hits
variable {name : List UInt8} {b j : Nat}

inductive HitStep (v : Vol) (request : Request) (reply : UInt32) (v' : Vol) (d b j : Nat)
    (name : List UInt8) : Prop where
  | same (old : v.inodeBit d = true) (i : Nat) (mapped : (v.node d).direct i = some b)
      (hit : v.hit name b j = true) (inum : v'.entryInum b j = v.entryInum b j)
      (spared : ∀ pinum name i' j', request = .unlink pinum name → d = pinum.toNat → reply = 0 →
        v.lookup d name = some (i', j') → ¬ (b = (v.node d).at' i' ∧ j = j'))
  | dots (pinum : UInt32) (text : List UInt8) (asked : request = .creat pinum ufsDirectory text)
      (done : reply = 0) (new : d = v.highestInode + 1)
      (which : j = 0 ∧ name = dot ∧ v'.entryInum b j = UInt32.ofNat d ∨
        j = 1 ∧ name = dotDot ∧ v'.entryInum b j = pinum)
      (only : ∀ i c, (v'.node d).direct i = some c → c = b)
  | entered (pinum type : UInt32) (asked : request = .creat pinum type name) (done : reply = 0)
      (parent : d = pinum.toNat) (old : v.inodeBit d = true)
      (inum : v'.entryInum b j = UInt32.ofNat (v.highestInode + 1))
      (place : j = (v.node d).size % 4096 / 32)
      (block : (v'.node d).direct ((v.node d).size / 4096) = some b)

theorem hitStep {request : Request} {reply : UInt32} {d : Nat}
    (moved : SlotStep v request reply v' d b j) (sound' : Sound g v') (sound : Sound g v)
    (bit : v.inodeBit (inode request).toNat = true) (file : NamesFile request) (small : j < 128)
    (named : FileName name) (hit : v'.hit name b j = true) :
    HitStep v request reply v' d b j name := by
  have layout := g.layout
  have inodes := sound'.highestInode_lt
  cases moved with
  | same old i mapped bytes spared =>
    exact .same old i mapped (by rwa [hit_congr (le_trans named.short (by decide)) bytes] at hit)
      (entryInum_congr bytes) spared
  | dots pinum text junk asked done new taken contents only =>
    subst asked
    have inside : pinum.toNat < g.numInodes := sound.inodeBit_lt _ bit
    exact .dots pinum text rfl done new ((hit_freshDir contents small
      (ofNat_ne_minusOne (by omega)) (valid_inode inside) named).mp ⟨hit, rfl⟩) only
  | entered pinum type text junk asked done parent old absent taken bytes place block =>
    subst asked
    cases hit_newEntry bytes file.plain named hit
    exact .entered pinum type rfl done parent old
      (newEntry_hit bytes named (by omega)).2 place block
  | blank zero _ _ _ asked =>
    rw [hit_blank zero named] at hit
    cases hit
  | cleared unused => exact absurd unused (hit_live hit)

end Hits

def DirRun (s : Serv) : Event → Prop
  | .request request junk => OneRun s (.request request junk) ∧ NamesFile request
  | .restart _ => False

def Starved (g : Geometry) (v : Vol) (d : Nat) : Prop :=
  v.node d = Node.fresh ufsDirectory ∧ v.hghstAllocDblk = g.numData - 1

theorem Starved.step {request : Request} {reply : UInt32} (starved : Starved g v d)
    (moved : DirStep g v request reply v' d) (sound' : Sound g v')
    (more : v.hghstAllocDblk ≤ v'.hghstAllocDblk) (low : d ≤ v.highestInode) : Starved g v' d := by
  obtain ⟨node, full⟩ := starved
  have bound := sound'.hghstAllocDblk_lt
  have full' : v'.hghstAllocDblk = g.numData - 1 := by omega
  cases moved with
  | kept old apart spared => exact ⟨apart.node.trans node, full'⟩
  | starved new failed _ node' => exact ⟨node', full'⟩
  | made pinum name b junk asked done new => omega
  | appended pinum type name b junk before asked done parent old absent taken appends =>
    rcases appends.source with ⟨mapped, _⟩ | ⟨_, free, _⟩
    · rw [node] at mapped
      cases mapped
    · omega
  | removed pinum name i j asked done parent old found result =>
    have used := (lookup_found found).2.1
    rw [node] at used
    exact absurd used (Nat.not_lt_zero i)

section Serving
variable {s : Serv} {pinum : UInt32} {name : List UInt8}

def resolve (s : Serv) (pinum : UInt32) (name : List UInt8) (junk : Junk) : Option UInt32 :=
  (lookupFile s pinum name junk).map fun found => wordAt found.1 28

theorem resolve_eq (backed : Backed g s v) (bit : v.inodeBit pinum.toNat = true)
    (short : name.length ≤ 28) (junk : Junk) :
    resolve s pinum name junk = v.lookupInum pinum.toNat name :=
  lookupFile_inum backed.sim backed.sound bit short junk

theorem lookupFile_eq_none (backed : Backed g s v) (bit : v.inodeBit pinum.toNat = true)
    (short : name.length ≤ 28) (junk : Junk) :
    lookupFile s pinum name junk = none ↔ v.lookup pinum.toNat name = none := by
  have same := resolve_eq backed bit short junk
  rw [← Option.map_eq_none_iff (f := fun found : Bytes × UInt32 => wordAt found.1 28)]
  rw [resolve] at same
  rw [same, Vol.lookupInum, Option.map_eq_none_iff]
end Serving

end OsProjects.DirectorySteps
