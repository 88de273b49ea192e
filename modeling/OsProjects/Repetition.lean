import OsProjects.DirectoryMap
import OsProjects.DirectorySteps
import OsProjects.MissingInodes
import OsProjects.Restarts

/-!
A request that is served twice in a row. The second time is a fixpoint of the
first for every request but three: an unlink that has removed its entry, a write
that went on into a new second block, and a creat whose entry got lost or that
took an inode in vain.
-/

namespace OsProjects.Repetition

open ByteStore UfsLayout FileServer Volume VolumeSteps VolumeSound VolumeRefinement Runs ServerRuns
  DirectoryBlocks BlockOwnership DirectorySlots FirstFiles DirectoryMap FailedRequests Restarts

variable {g : Geometry} {s : Serv} {v v' : Vol}

def Repeats (s : Serv) (request : Request) : Prop :=
  ∀ junk junk', replyCode (serve s request junk) request junk' = replyCode s request junk ∧
    Unchanged (serve s request junk) (serve (serve s request junk) request junk')

def missing (ind : Inode) : Nat → Nat
  | 0 => 0
  | d + 1 => if ind.ptr d = minusOne then missing ind d + 1 else 0

def Straddles (s : Serv) (inum offset nbytes : UInt32) : Prop :=
  (inodeOf s inum).type = ufsRegularFile ∧ offset / 4096 < 29 ∧ 4096 - offset % 4096 < nbytes ∧
    s.hghstAllocDblk.toNat + missing (inodeOf s inum) ((offset / 4096).toNat + 1) + 1 <
      s.super.dataRegionLen.toNat

/-- The name is found, or cannot be made for want of an inode or a directory, or
is made and found from then on; or a directory takes the last inode and fails. -/
def CreatSettles (s : Serv) (pinum type : UInt32) (name : List UInt8) : Prop :=
  (inodeOf s pinum).type ≠ ufsDirectory ∨ (∀ junk, (lookupFile s pinum name junk).isSome) ∨
    s.highestInode = s.super.numInodes - 1 ∨
    if type = ufsDirectory ∧ s.hghstAllocDblk = s.super.dataRegionLen - 1 then
      s.highestInode + 1 = s.super.numInodes - 1
    else EntryFits s pinum type

def Repeatable (s : Serv) : Request → Prop
  | .write inum _ offset nbytes => ¬ Straddles s inum offset nbytes
  | .creat pinum type name => CreatSettles s pinum type name
  -- there is no such entry, or it is one of a directory that is not empty
  | .unlink pinum name => ∀ (junk : Junk) de addr,
      lookupFile s pinum name (junk.call 0) = some (de, addr) →
      (readInode s (wordAt de 28) (junk.call 1)).2.type = ufsDirectory ∧
        (readInode s (wordAt de 28) (junk.call 1)).2.size > 64
  | _ => True

section Writing
variable {n offset nbytes : Nat} {buf : Bytes} {type : UInt32}

def holes (nd : Node) : Nat → Nat
  | 0 => 0
  | d + 1 =>
    match nd.direct d with
    | none => holes nd d + 1
    | some _ => 0

theorem holes_setPtr (nd : Node) (d b e : Nat) (below : e ≤ d) :
    holes (nd.setPtr d b) e = holes nd e := by
  induction e with
  | zero => rfl
  | succ e ih =>
    simp only [holes, Node.setPtr_other (show e ≠ d by omega)]
    rw [ih (by omega)]

theorem missing_eq (ind : Inode) (d : Nat) : missing ind d = holes (view ind) d := by
  induction d with
  | zero => rfl
  | succ d ih =>
    simp only [missing, holes, ptr_eq_minusOne]
    cases hole : (view ind).direct d with
    | none => simp [ih]
    | some b => simp

theorem fillHoles_counter (d : Nat) (bound : v.hghstAllocDblk < g.numData) (nd : Node) :
    (v.hghstAllocDblk + holes nd d < g.numData → (Vol.fillHoles g d v nd).1 ≠ none ∧
        (Vol.fillHoles g d v nd).2.hghstAllocDblk = v.hghstAllocDblk + holes nd d) ∧
      (g.numData ≤ v.hghstAllocDblk + holes nd d → (Vol.fillHoles g d v nd).1 = none) := by
  induction d generalizing v nd with
  | zero => simp [Vol.fillHoles, holes, bound]
  | succ d ih =>
    simp only [Vol.fillHoles, holes]
    cases hole : nd.direct d with
    | some b => simp [bound]
    | none =>
      rcases allocDblk_cases bound with ⟨full, none⟩ | ⟨v1, block, alloc, next⟩
      · simp only [none]
        exact ⟨fun room => absurd room (by omega), fun _ => trivial⟩
      · simp only [block]
        have rest := ih alloc.counter_lt (nd.setPtr d (g.dataRegionAddr + v1.hghstAllocDblk))
        rw [holes_setPtr nd d _ d (le_refl d), next, Nat.add_assoc, Nat.add_comm 1] at rest
        rw [next]
        exact rest

theorem fillHoles_mapped (d : Nat) {nd : Node} {b : Nat} (mapped : nd.direct d = some b) :
    Vol.fillHoles g (d + 1) v nd = (some nd, v) := by
  simp [Vol.fillHoles, mapped]

theorem overwrite_again (store source : Bytes) (addr count : Nat) :
    overwrite (overwrite store addr count source) addr count source =
      overwrite store addr count source := by
  funext index
  simp only [overwrite]
  split
  · rfl
  · rfl

def GoesOn (g : Geometry) (v : Vol) (n offset nbytes : Nat) (type : UInt32) : Prop :=
  (v.node n).type = type ∧ offset / 4096 < 29 ∧ 4096 - offset % 4096 < nbytes ∧
    v.hghstAllocDblk + holes (v.node n) (offset / 4096 + 1) + 1 < g.numData

/-- A write to a block that is there starts by storing the inode as it is. -/
theorem writeFile_mapped {b : Nat} (typed : (v.node n).type = type) (inside : offset / 4096 ≤ 29)
    (mapped : (v.node n).direct (offset / 4096) = some b) :
    v.writeFile g n buf offset nbytes type = v.writeBlocks g n buf offset nbytes (v.node n) := by
  have right : ¬ ((v.node n).type ≠ type ∨ 29 < offset / 4096) := by
    rintro (different | beyond)
    · exact different typed
    · omega
  simp only [Vol.writeFile, right, ↓reduceIte, fillHoles_mapped _ mapped]

theorem writeFile_filled {nd : Node} {v1 : Vol} (bound : v.hghstAllocDblk < g.numData)
    (typed : (v.node n).type = type) (inside : offset / 4096 ≤ 29)
    (filled : Vol.fillHoles g (offset / 4096 + 1) v (v.node n) = (some nd, v1))
    (kind : (v'.node n).type = nd.type) (direct : (v'.node n).direct = nd.direct) :
    v'.writeFile g n buf offset nbytes type =
      v'.writeBlocks g n buf offset nbytes (v'.node n) := by
  obtain ⟨fills, _, mapped, _⟩ := (filled_spec bound inside filled).2 nd rfl
  exact writeFile_mapped (kind.trans (fills.type.trans typed)) inside (direct ▸ mapped)

/-- A write that did not go on into a second block is done with. -/
theorem WriteOutcome.again {ok : Bool} (outcome : WriteOutcome g v n buf offset nbytes type ok v')
    (bound : v.hghstAllocDblk < g.numData) (within : ¬ GoesOn g v n offset nbytes type) :
    v'.writeFile g n buf offset nbytes type = (ok, v') := by
  cases outcome with
  | refused wrong => simp only [Vol.writeFile, wrong, ↓reduceIte]
  | noBlock _ typed inside filled =>
    have alloc := (filled_spec bound inside filled).1
    have full := (fillHoles_spec (offset / 4096 + 1) (by omega) bound (v.node n)).2.2
    rw [filled] at full
    have right : ¬ ((v'.node n).type ≠ type ∨ 29 < offset / 4096) := by
      rw [alloc.node]
      rintro (different | beyond)
      · exact different typed
      · omega
    simp only [Vol.writeFile, right, ↓reduceIte]
    have last : v'.hghstAllocDblk = g.numData - 1 := full rfl
    -- the same block is still missing, and there is still none
    rcases fillHoles_start alloc.counter_lt (offset / 4096) (by omega) (v'.node n) with
      ⟨mapped, _⟩ | ⟨_, _, result⟩ | ⟨_, room, _⟩
    · rw [alloc.node] at mapped
      obtain ⟨b, there⟩ := Option.ne_none_iff_exists'.mp mapped
      rw [fillHoles_mapped _ there] at filled
      cases filled
    · rw [result]
    · omega
  | oneBlock nd v1 typed inside filled short =>
    rw [writeFile_filled bound typed inside filled (by simp [Vol.grow, Vol.setNode])
      (by simp [Vol.grow, Vol.setNode])]
    have size := max_eq_right (le_max_left (offset + nbytes) nd.size)
    simp only [Vol.writeBlocks, short, Vol.grow, Vol.setNode, Vol.putBlock, Node.at',
      overwrite_again, size, ↓reduceIte, Function.update_self, Function.update_idem]
  | lastBlock nd v1 typed last filled long =>
    rw [writeFile_filled bound typed (by omega) filled (by simp [Vol.setNode])
      (by simp [Vol.setNode])]
    simp [Vol.writeBlocks, Nat.not_le.mpr long, last, Vol.setNode]
  | noSecond nd v1 typed inside filled long full =>
    rw [writeFile_filled bound typed (by omega) filled (by simp [Vol.setNode])
      (by simp [Vol.setNode])]
    simp [Vol.writeBlocks, Nat.not_le.mpr long, Nat.ne_of_lt inside, Vol.setNode, Vol.allocDblk,
      full]
  | twoBlocks nd v1 v2 typed inside filled long alloc next =>
    have counter := fillHoles_counter (offset / 4096 + 1) bound (v.node n)
    rw [filled] at counter
    have room : v.hghstAllocDblk + holes (v.node n) (offset / 4096 + 1) < g.numData := by
      by_contra short
      cases counter.2 (by omega)
    have last := alloc.counter_lt
    have first := (counter.1 room).2
    simp only at first
    exact absurd ⟨typed, inside, long, by omega⟩ within

/-- A write that went on takes one more block, or fails the second time. -/
theorem WriteOutcome.not_again {ok : Bool}
    (outcome : WriteOutcome g v n buf offset nbytes type ok v')
    (bound : v.hghstAllocDblk < g.numData) (bound' : v'.hghstAllocDblk < g.numData)
    (beyond : GoesOn g v n offset nbytes type) :
    ok = true ∧ ((v'.writeFile g n buf offset nbytes type).1 = false ∨
      v'.hghstAllocDblk < (v'.writeFile g n buf offset nbytes type).2.hghstAllocDblk) := by
  obtain ⟨typed, inside, long, room⟩ := beyond
  have counter := (fillHoles_counter (offset / 4096 + 1) bound (v.node n)).1 (by omega)
  have second := writeFile_outcome n buf offset nbytes type bound'
  constructor
  · cases outcome with
    | refused wrong =>
      rcases wrong with different | beyond
      · exact absurd typed different
      · omega
    | noBlock v1 _ _ filled =>
      rw [filled] at counter
      exact absurd rfl counter.1
    | lastBlock nd v1 _ last filled _ => omega
    | noSecond nd v1 _ _ filled _ full =>
      rw [filled] at counter
      have first := counter.2
      simp only at first
      omega
    | oneBlock | twoBlocks => rfl
  · generalize v'.writeFile g n buf offset nbytes type = result at second
    obtain ⟨ok', v''⟩ := result
    simp only at second ⊢
    cases second with
    | refused | noBlock | lastBlock | noSecond => exact Or.inl rfl
    | oneBlock nd v1 _ _ filled short => omega
    | twoBlocks nd v1 v2 _ _ filled _ alloc next =>
      have before := (filled_spec bound' (by omega) filled).1.counter_le
      refine Or.inr ?_
      simp only [Vol.grow, Vol.setNode, Vol.putBlock]
      omega
end Writing

section Creating
variable {p n b : Nat} {type : UInt32} {name : List UInt8} {chance : Chance}

/-- A new entry is a live one, also when the NUL of a name of 28 bytes falls into
its inode number. -/
theorem newEntry_live (junk : Bytes) (short : name.length ≤ 28) (small : n < 4294967295) :
    wordAt (Vol.newEntry junk n name) 28 ≠ minusOne := by
  by_cases shorter : name.length ≤ 27
  · rw [newEntry_inum junk n shorter]
    exact ofNat_ne_minusOne small
  · intro dead
    have low := byteAt_wordAt (Vol.newEntry junk n name) 28 0 (by decide)
    have zero : Vol.newEntry junk n name 28 = 0 := by
      simp [Vol.newEntry, strcpy, show name.length = 28 by omega]
    rw [dead, Nat.add_zero, zero] at low
    exact absurd low (by decide)

theorem Stores.found {junk : Bytes} (stores : Stores g v p (Vol.newEntry junk n name) v' b)
    (ok : NodeOk g v.dataBit (v.node p)) (dir : (v.node p).type = ufsDirectory)
    (sound' : Sound g v') (bit' : v'.inodeBit p = true) (short : name.length ≤ 28)
    (small : n < 4294967295) : (v'.lookup p name).isSome := by
  have whole := ok.aligned dir
  have slot : (v.node p).size / 32 / 128 = (v.node p).size / 4096 := by omega
  have same : ∀ index < 32, v'.entry b ((v.node p).size / 32 % 128) index =
      Vol.newEntry junk n name index := by
    intro index inside
    rw [Vol.entry, stores.block, Function.update_self, overwrite_inside (by omega) (by omega)]
    congr 1
    omega
  have hit : v'.hit name b ((v.node p).size / 32 % 128) = true := by
    have own : streq (Vol.newEntry junk n name) 0 name = true := streq_strcpy _ _ _
    have text : streq (v'.entry b ((v.node p).size / 32 % 128)) 0 name = true := by
      rw [← own]
      apply streq_congr
      intro index bound
      simpa using same index (by omega)
    have word : v'.entryInum b ((v.node p).size / 32 % 128) =
        wordAt (Vol.newEntry junk n name) 28 := by
      apply wordAt_congr
      intro index bound
      exact same _ (by omega)
    simp [Vol.hit, text, word, newEntry_live junk short small]
  have dir' : (v'.node p).type = ufsDirectory := by
    rw [stores.node]
    exact dir
  by_contra lost
  have absent : v'.lookup p name = none := by simpa using lost
  refine (lookup_none_iff sound' bit' dir').mp absent ((v.node p).size / 32) _ ?_ ⟨b, ?_, hit, rfl⟩
  · rw [stores.node]
    simp only [Node.blocksUsed]
    omega
  · rw [slot, stores.node]
    simp

theorem Apart.absent (apart : Apart p v v') (sound : Sound g v) (sound' : Sound g v')
    (bit : v.inodeBit p = true) (bit' : v'.inodeBit p = true)
    (dir : (v.node p).type = ufsDirectory) (short : name.length ≤ 28)
    (absent : v.lookup p name = none) : v'.lookup p name = none := by
  rw [lookup_none_iff sound' bit' (by rw [apart.node]; exact dir)]
  intro k inum inside carries
  rw [apart.node] at inside
  exact (lookup_none_iff sound bit dir).mp absent k inum inside ((Apart.carries apart short).mp carries)

structure Ahead (g : Geometry) (v : Vol) : Prop where
  inodes : ∀ n, v.inodeBit n = true → n ≤ v.highestInode
  blocks : ∀ k < g.numData, v.dataBit k = true → k ≤ v.hghstAllocDblk

/-- With such counters a new inode and its block are no part of the parent. -/
theorem opened_apart (sound : Sound g v) (ahead : Ahead g v) (bit : v.inodeBit p = true)
    (room : v.highestInode + 1 < g.numInodes) (type : UInt32) (chance : Chance) :
    Apart p v (opened g v p type chance) := by
  have old := ahead.inodes p bit
  have other : p ≠ v.highestInode + 1 := by omega
  have taken : Apart p v (v.newInode g type).2 := by
    rw [newInode_taken sound room type]
    exact ⟨by simp [other], fun _ _ _ => rfl⟩
  unfold opened
  split
  · refine taken.trans ?_
    have sound1 := newInode_sound sound room type
    have counter := newInode_counter sound type
    rcases makeDir_cases sound1 (v.highestInode + 1) p chance.dir with
      ⟨_, full⟩ | ⟨v1, alloc, next, made⟩
    · rw [full]
      exact Apart.refl _ _
    · rw [made]
      refine ⟨by simp [Vol.setNode, Vol.putBlock, other, alloc.node], ?_⟩
      intro i block mapped
      rw [taken.node] at mapped
      obtain ⟨_, k, inside, set, place⟩ := (sound.node p bit).pointer i block mapped
      have inUse := ahead.blocks k inside set
      rw [← congrFun alloc.block block]
      exact putBlock_kept _ _ _ _ _ _ (by omega)
  · exact taken

def Settles (g : Geometry) (v : Vol) (p : Nat) (type : UInt32) (name : List UInt8) : Prop :=
  (v.node p).type ≠ ufsDirectory ∨ (v.lookup p name).isSome ∨
    v.highestInode = g.numInodes - 1 ∨
    if type = ufsDirectory ∧ v.hghstAllocDblk = g.numData - 1 then
      v.highestInode + 1 = g.numInodes - 1
    else (v.node p).size / 4096 ≤ 29 ∧ ((v.node p).direct ((v.node p).size / 4096) ≠ none ∨
      v.hghstAllocDblk + ownBlocks type + 1 < g.numData)

structure Opened (g : Geometry) (v : Vol) (p : Nat) (type : UInt32) (name : List UInt8)
    (chance : Chance) : Prop where
  sound : Sound g (opened g v p type chance)
  bit : (opened g v p type chance).inodeBit p = true
  node : (opened g v p type chance).node p = v.node p
  absent : (opened g v p type chance).lookup p name = none

theorem opened_parent (sound : Sound g v) (ahead : Ahead g v) (bit : v.inodeBit p = true)
    (dir : (v.node p).type = ufsDirectory) (absent : v.lookup p name = none)
    (short : name.length ≤ 28) (room : v.highestInode + 1 < g.numInodes) (type : UInt32)
    (chance : Chance) : Opened g v p type name chance := by
  have apart := opened_apart sound ahead bit room type chance
  have sound' := opened_sound sound room p type chance
  have bit' := (opened_bit sound room p type chance p).mpr (Or.inl bit)
  exact ⟨sound', bit', apart.node, Apart.absent apart sound sound' bit bit' dir short absent⟩

/-- Without the name, a creat fails for want of an inode or takes one. -/
theorem creat_takes (sound : Sound g v) (bit : v.inodeBit p = true)
    (dir : (v.node p).type = ufsDirectory) (absent : v.lookup p name = none) (type : UInt32)
    (chance : Chance) :
    (v.highestInode = g.numInodes - 1 ∧ (v.creatFile g p type name chance).1 = false) ∨
      (v.creatFile g p type name chance).2.highestInode = v.highestInode + 1 := by
  have outcome := creatFile_outcome sound p type name chance
  generalize v.creatFile g p type name chance = result at outcome
  obtain ⟨ok, v'⟩ := result
  simp only at outcome ⊢
  -- the entry goes to the parent and leaves the inode counter alone
  have entry : ∀ room : v.highestInode + 1 < g.numInodes,
      ((opened g v p type chance).addEntry g p (v.highestInode + 1) name
        chance.entry).highestInode = v.highestInode + 1 := by
    intro room
    rw [(addEntry_touches (opened_sound sound room p type chance)
      ((opened_bit sound room p type chance p).mpr (Or.inl bit)) _ name chance.entry).highestInode]
    exact opened_highestInode sound room p type chance
  cases outcome with
  | notDir file => exact absurd dir file
  | present _ found => simp [absent] at found
  | noInode _ _ full => exact Or.inl ⟨full, rfl⟩
  | noBlock _ _ room isDir full => exact Or.inr (newInode_highestInode sound room type)
  | file _ _ room isFile =>
    have counter := entry room
    rw [opened, if_neg isFile] at counter
    exact Or.inr counter
  | dir _ _ room isDir block =>
    have counter := entry room
    rw [opened, if_pos isDir] at counter
    exact Or.inr counter

/-- The ends of `creat_file` as far as a second time goes: nothing was done and
nothing will be, or the inode was taken, in vain or for an entry. -/
theorem creat_ends (sound : Sound g v) (p : Nat) (type : UInt32) (name : List UInt8)
    (chance : Chance) {ok : Bool} (result : v.creatFile g p type name chance = (ok, v')) :
    (v' = v ∧ Settles g v p type name ∧ ∀ chance', v.creatFile g p type name chance' = (ok, v)) ∨
      (v.node p).type = ufsDirectory ∧ v.lookup p name = none ∧ v.highestInode + 1 < g.numInodes ∧
        ((ok = false ∧ (type = ufsDirectory ∧ v.hghstAllocDblk = g.numData - 1) ∧
            v' = opened g v p type chance) ∨
          ok = true ∧ ¬ (type = ufsDirectory ∧ v.hghstAllocDblk = g.numData - 1) ∧
            v' = (opened g v p type chance).addEntry g p (v.highestInode + 1) name
              chance.entry) := by
  have outcome := creatFile_outcome sound p type name chance
  rw [result] at outcome
  simp only at outcome
  cases outcome with
  | notDir file =>
    refine Or.inl ⟨rfl, Or.inl file, fun chance' => ?_⟩
    simp [Vol.creatFile, file]
  | present dir found =>
    refine Or.inl ⟨rfl, Or.inr (Or.inl found), fun chance' => ?_⟩
    simp [Vol.creatFile, dir, found]
  | noInode dir absent full =>
    refine Or.inl ⟨rfl, Or.inr (Or.inr (Or.inl full)), fun chance' => ?_⟩
    simp [Vol.creatFile, dir, absent, Vol.newInode, full]
  | noBlock dir absent room isDir full =>
    refine Or.inr ⟨dir, absent, room, Or.inl ⟨rfl, ⟨isDir, full⟩, ?_⟩⟩
    have sound1 := newInode_sound sound room type
    have counter := newInode_counter sound type
    rcases makeDir_cases sound1 (v.highestInode + 1) p chance.dir with
      ⟨_, failed⟩ | ⟨v1, alloc, next, _⟩
    · rw [opened, if_pos isDir, failed]
    · have last := alloc.counter_lt
      omega
  | file dir absent room isFile =>
    refine Or.inr ⟨dir, absent, room, Or.inr ⟨rfl, fun both => isFile both.1, ?_⟩⟩
    rw [opened, if_neg isFile]
  | dir dir absent room isDir block =>
    refine Or.inr ⟨dir, absent, room, Or.inr ⟨rfl, fun both => by omega, ?_⟩⟩
    rw [opened, if_pos isDir]

theorem ownBlocks_left (sound : Sound g v)
    (left : ¬ (type = ufsDirectory ∧ v.hghstAllocDblk = g.numData - 1)) :
    v.hghstAllocDblk + ownBlocks type < g.numData := by
  have bound := sound.hghstAllocDblk_lt
  unfold ownBlocks
  split
  · rename_i isDir
    have more : v.hghstAllocDblk ≠ g.numData - 1 := fun full => left ⟨isDir, full⟩
    omega
  · exact bound

section
variable (sound : Sound g v)
  (ahead : (v.node p).type = ufsDirectory → v.lookup p name = none → Ahead g v)
  (bit : v.inodeBit p = true) (short : name.length ≤ 28)
include sound ahead bit short

theorem creat_again (settles : Settles g v p type name) {ok : Bool}
    (result : v.creatFile g p type name chance = (ok, v')) (chance' : Chance) :
    v'.creatFile g p type name chance' = (ok, v') := by
  have layout := g.layout
  rcases creat_ends sound p type name chance result with
    ⟨rfl, _, again⟩ | ⟨dir, absent, room, rest⟩
  · exact again chance'
  · have ready := opened_parent sound (ahead dir absent) bit dir absent short room type chance
    have dir' : ((opened g v p type chance).node p).type = ufsDirectory := by
      rw [ready.node]
      exact dir
    have left : ¬ v.highestInode = g.numInodes - 1 := by omega
    simp only [Settles, dir, absent, left, ne_eq, not_true, Option.isSome_none,
      Bool.false_eq_true, false_or] at settles
    rcases rest with ⟨rfl, fails, rfl⟩ | ⟨rfl, fails, rfl⟩
    · -- the last inode is gone
      rw [if_pos fails] at settles
      have last : (opened g v p type chance).highestInode = g.numInodes - 1 := by
        rw [opened_highestInode sound room p type chance]
        exact settles
      simp [Vol.creatFile, dir', ready.absent, Vol.newInode, last]
    · rw [if_neg fails] at settles
      have counter := opened_counter sound room (ownBlocks_left sound fails) p chance
      have space : Room g (opened g v p type chance) p := by
        rw [Room, ready.node, counter]
        exact settles
      obtain ⟨b, stores⟩ := addEntry_stores ready.sound ready.bit dir' space
        (v.highestInode + 1) name chance.entry
      have touches := addEntry_touches ready.sound ready.bit (v.highestInode + 1) name chance.entry
      have found := Stores.found stores (ready.sound.node p ready.bit) dir'
        (addEntry_sound ready.sound ready.bit _ name chance.entry)
        (by rw [touches.inodeBit]; exact ready.bit) short (by omega)
      simp [Vol.creatFile, touches.type, dir', found]

theorem creat_not_again (unsettled : ¬ Settles g v p type name) {ok : Bool}
    (result : v.creatFile g p type name chance = (ok, v')) (chance' : Chance) :
    (v'.creatFile g p type name chance').1 ≠ ok ∨
      (v'.creatFile g p type name chance').2.highestInode ≠ v'.highestInode := by
  rcases creat_ends sound p type name chance result with
    ⟨_, settles, _⟩ | ⟨dir, absent, room, rest⟩
  · exact absurd settles unsettled
  · have ready := opened_parent sound (ahead dir absent) bit dir absent short room type chance
    have dir' : ((opened g v p type chance).node p).type = ufsDirectory := by
      rw [ready.node]
      exact dir
    have left : ¬ v.highestInode = g.numInodes - 1 := by omega
    have number := opened_highestInode sound room p type chance
    simp only [Settles, dir, absent, left, ne_eq, not_true, Option.isSome_none,
      Bool.false_eq_true, false_or] at unsettled
    have second := creat_takes ready.sound ready.bit dir' ready.absent type chance'
    rcases rest with ⟨rfl, fails, rfl⟩ | ⟨rfl, fails, rfl⟩
    · rw [if_pos fails] at unsettled
      rcases second with ⟨last, _⟩ | taken
      · omega
      · exact Or.inr (by omega)
    · rw [if_neg fails] at unsettled
      -- the entry was lost: the state is the one before `addEntry`
      have lost : (opened g v p type chance).addEntry g p (v.highestInode + 1) name chance.entry =
          opened g v p type chance := by
        have counter := opened_counter sound room (ownBlocks_left sound fails) p chance
        apply DirectorySteps.addEntry_full ready.sound ready.bit
        rw [Room, ready.node, counter]
        exact unsettled
      rw [lost]
      rcases second with ⟨_, failed⟩ | taken
      · exact Or.inl (by rw [failed]; decide)
      · exact Or.inr (by omega)
end
end Creating

section Unlinking
variable {pinum : UInt32} {name : List UInt8} {de : Bytes} {addr : UInt32}

theorem lookupFile_live {junk : Junk} (found : lookupFile s pinum name junk = some (de, addr)) :
    wordAt de 28 ≠ minusOne := by
  rw [MissingInodes.lookupFile_found] at found
  obtain ⟨slot, here, same⟩ := Option.map_eq_some_iff.mp found
  cases same
  exact MissingInodes.found_live here

/-- What `unlink_file` does is decided by the entry it finds. -/
theorem unlinkFile_refused {junk : Junk}
    (refused : ∀ de addr, lookupFile s pinum name (junk.call 0) = some (de, addr) →
      (readInode s (wordAt de 28) (junk.call 1)).2.type = ufsDirectory ∧
        (readInode s (wordAt de 28) (junk.call 1)).2.size > 64) :
    unlinkFile s pinum name junk = (minusOne, s) := by
  unfold unlinkFile
  cases found : lookupFile s pinum name (junk.call 0) with
  | none => rfl
  | some entry =>
    obtain ⟨de, addr⟩ := entry
    simp only [unlinkEntry, lookupFile_live found, refused de addr found, ne_eq,
      not_false_eq_true, and_self, ↓reduceIte]

theorem unlink_missing {junk : Junk} (gone : lookupFile s pinum name (junk.call 0) = none) :
    replyCode s (.unlink pinum name) junk = minusOne := by
  have refused : unlinkFile s pinum name junk = (minusOne, s) := by
    apply unlinkFile_refused
    intro de addr found
    rw [gone] at found
    cases found
  simp only [replyCode, serve, refused, Serv.answer]

theorem unlinkFile_done {junk : Junk} (found : lookupFile s pinum name (junk.call 0) = some (de, addr))
    (allowed : ¬ ((readInode s (wordAt de 28) (junk.call 1)).2.type = ufsDirectory ∧
      (readInode s (wordAt de 28) (junk.call 1)).2.size > 64)) :
    (unlinkFile s pinum name junk).1 = 0 := by
  unfold unlinkFile
  rw [found]
  simp only [unlinkEntry, lookupFile_live found, allowed, ne_eq, not_false_eq_true, ↓reduceIte]

theorem unlink_changes {s' : Serv} {p : Nat} {refuse : Bool} (sim : Sim g s v) (sound : Sound g v)
    (bit : v.inodeBit p = true) (done : (v.unlinkFile p name refuse).1 = true)
    (sim' : Sim g s' (v.unlinkFile p name refuse).2) : s'.image ≠ s.image := by
  intro same
  have layout := g.layout
  have shown := sim'.shows'
  rw [same] at shown
  revert done shown
  unfold Vol.unlinkFile
  cases found : v.lookup p name with
  | none =>
    intro impossible
    cases impossible
  | some slot =>
    obtain ⟨i, j⟩ := slot
    cases refuse with
    | true =>
      intro impossible
      cases impossible
    | false =>
      intro _ shown
      obtain ⟨dir, scanned, small, hit⟩ := lookup_found found
      obtain ⟨_, k, bound, _, place⟩ :=
        (sound.node p bit).pointer _ _ ((sound.node p bit).scanned dir scanned)
      have kept : (v.removeEntry p ((v.node p).at' i) j).entryInum ((v.node p).at' i) j =
          v.entryInum ((v.node p).at' i) j := by
        apply entryInum_congr
        intro index inside
        rw [Vol.entry, Vol.entry, ← sim.shows'.block _ (by omega) (by omega) _ (by omega)]
        exact (shown.block _ (by omega) (by omega) _ (by omega)).symm
      rw [removeEntry_inum] at kept
      simp [Vol.hit, ← kept] at hit
end Unlinking

section Serving
variable {request : Request}

theorem serve_bit (sound : Sound g v) (admissible : Admissible v request) (chance : Chance) :
    (v.serve g request chance).2.inodeBit (inode request).toNat = true := by
  obtain ⟨allocated, small, short⟩ := admissible
  cases request with
  | lookup | stat | read => exact allocated
  | write inum buf offset nbytes =>
    have writes := (writeFile_outcome inum.toNat buf offset.toNat nbytes.toNat ufsRegularFile
      sound.hghstAllocDblk_lt).writes sound.hghstAllocDblk_lt small
    simp only [Vol.serve]
    rw [writes.inodeBit]
    exact allocated
  | creat pinum type name =>
    rcases result : v.creatFile g pinum.toNat type name chance with ⟨ok, v'⟩
    simp only [Vol.serve, result]
    rcases creat_ends sound pinum.toNat type name chance result with
      ⟨rfl, _⟩ | ⟨_, _, room, ⟨_, _, rfl⟩ | ⟨_, _, rfl⟩⟩
    · exact allocated
    · exact (opened_bit sound room _ type chance _).mpr (Or.inl allocated)
    · have bit := (opened_bit sound room pinum.toNat type chance pinum.toNat).mpr (Or.inl allocated)
      rw [(addEntry_touches (opened_sound sound room _ type chance) bit _ name
        chance.entry).inodeBit]
      exact bit
  | unlink pinum name =>
    simp only [Vol.serve, Vol.unlinkFile]
    cases v.lookup pinum.toNat name with
    | none => exact allocated
    | some slot =>
      cases chance.refuse with
      | true | false => exact allocated

/-- A request that is a fixpoint on the volume repeats on the server. -/
theorem repeats_of (sim : Sim g s v) (sound : Sound g v) (admissible : Admissible v request)
    (again : ∀ chance chance', (v.serve g request chance).2.serve g request chance' =
      v.serve g request chance) : Repeats s request := by
  intro junk junk'
  obtain ⟨chance, reply, sim', _⟩ := serve_sim sim sound admissible junk
  obtain ⟨chance', reply', sim'', _⟩ := serve_sim sim' (serve_sound sound admissible chance)
    ⟨serve_bit sound admissible chance, admissible.small, admissible.short⟩ junk'
  rw [again chance chance'] at reply' sim''
  exact ⟨reply'.trans reply.symm, Sim.unchanged sim' sim''⟩

theorem not_repeats_of (sim : Sim g s v) (sound : Sound g v) (admissible : Admissible v request)
    (differs : ∀ chance chance',
      ((v.serve g request chance).2.serve g request chance').1 ≠ (v.serve g request chance).1 ∨
      ((v.serve g request chance).2.serve g request chance').2.highestInode ≠
        (v.serve g request chance).2.highestInode ∨
      ((v.serve g request chance).2.serve g request chance').2.hghstAllocDblk ≠
        (v.serve g request chance).2.hghstAllocDblk) : ¬ Repeats s request := by
  intro repeats
  obtain ⟨same, unchanged⟩ := repeats noJunk noJunk
  obtain ⟨chance, reply, sim', _⟩ := serve_sim sim sound admissible noJunk
  obtain ⟨chance', reply', sim'', _⟩ := serve_sim sim' (serve_sound sound admissible chance)
    ⟨serve_bit sound admissible chance, admissible.small, admissible.short⟩ noJunk
  obtain ⟨inodes, blocks⟩ := unchanged.counters sim' sim''
  rw [reply, reply'] at same
  rcases differs chance chance' with code | inode | block
  · exact code same
  · exact inode inodes
  · exact block blocks

theorem straddles_iff (sim : Sim g s v) {inum : UInt32} (inside : inum.toNat < g.numInodes)
    (offset nbytes : UInt32) : Straddles s inum offset nbytes ↔
      GoesOn g v inum.toNat offset.toNat nbytes.toNat ufsRegularFile := by
  have layout := g.layout
  have region : s.super.dataRegionLen.toNat = g.numData := by
    rw [sim.super]
    exact toNat_ofNat_lt (by omega)
  rw [Straddles, GoesOn, inodeOf_type sim inum inside, missing_eq, inodeOf_eq sim inum inside,
    sim.hghstAllocDblk, region, UInt32.lt_iff_toNat_lt, UInt32.lt_iff_toNat_lt, toNat_div_block,
    toNat_free]
  rfl

theorem creatSettles_iff (sim : Sim g s v) (sound : Sound g v) {pinum : UInt32}
    (bit : v.inodeBit pinum.toNat = true) (type : UInt32) {name : List UInt8}
    (short : name.length ≤ 28) :
    CreatSettles s pinum type name ↔ Settles g v pinum.toNat type name := by
  have layout := g.layout
  have inside := sound.inodeBit_lt _ bit
  have region : s.super.dataRegionLen.toNat = g.numData := by
    rw [sim.super]
    exact toNat_ofNat_lt (by omega)
  have listed : (∀ junk, (lookupFile s pinum name junk).isSome) ↔
      (v.lookup pinum.toNat name).isSome := by
    constructor
    · intro every
      exact (lookupFile_sim sim sound bit short noJunk).isSome ▸ every noJunk
    · intro found junk
      exact (lookupFile_sim sim sound bit short junk).isSome ▸ found
  have bound := sound.highestInode_lt
  have next : s.highestInode + 1 = s.super.numInodes - 1 ↔
      v.highestInode + 1 = g.numInodes - 1 := by
    rw [sim.super]
    refine (@eq_last (s.highestInode + 1) g.numInodes (by omega) (by omega)).trans ?_
    have sum : (s.highestInode + 1).toNat = v.highestInode + 1 := by
      simp only [UInt32.toNat_add, sim.highestInode, UInt32.reduceToNat]
      omega
    rw [sum]
  simp only [CreatSettles, Settles, inodeOf_type sim pinum inside, listed, highestInode_last sim,
    hghstAllocDblk_last sim, next, EntryFits, inodeOf_size sim pinum inside, ne_eq,
    inodeOf_hole sim pinum inside, sim.hghstAllocDblk, region, Nat.lt_succ_iff]

theorem code_injective : ∀ {ok ok' : Bool}, Vol.code ok = Vol.code ok' → ok = ok' := by
  decide

theorem write_repeats_iff (sim : Sim g s v) (sound : Sound g v) {inum offset nbytes : UInt32}
    {buf : Bytes} (admissible : Admissible v (.write inum buf offset nbytes)) :
    Repeats s (.write inum buf offset nbytes) ↔ ¬ Straddles s inum offset nbytes := by
  have bound := sound.hghstAllocDblk_lt
  have outcome := writeFile_outcome inum.toNat buf offset.toNat nbytes.toNat ufsRegularFile bound
  have sound' := serve_sound sound admissible ⟨buf, buf, false⟩
  have inside : inum.toNat < g.numInodes := sound.inodeBit_lt _ admissible.allocated
  rw [straddles_iff sim inside]
  constructor
  · intro repeats beyond
    obtain ⟨done, differs⟩ := WriteOutcome.not_again outcome bound sound'.hghstAllocDblk_lt beyond
    refine not_repeats_of sim sound admissible (fun _ _ => ?_) repeats
    simp only [Vol.serve, done]
    rcases differs with failed | more
    · exact Or.inl (by rw [failed]; decide)
    · exact Or.inr (Or.inr (by omega))
  · intro within
    refine repeats_of sim sound admissible fun _ _ => ?_
    simp only [Vol.serve, WriteOutcome.again outcome bound within]

theorem creat_repeats_iff (sim : Sim g s v) (sound : Sound g v) {pinum type : UInt32}
    {text : List UInt8} (admissible : Admissible v (.creat pinum type text))
    (ahead : (v.node pinum.toNat).type = ufsDirectory → v.lookup pinum.toNat text = none →
      Ahead g v) :
    Repeats s (.creat pinum type text) ↔ CreatSettles s pinum type text := by
  obtain ⟨bit, small, short⟩ := admissible
  simp only [inode, name] at bit short
  have admissible : Admissible v (.creat pinum type text) := ⟨bit, small, short⟩
  rw [creatSettles_iff sim sound bit type short]
  constructor
  · intro repeats
    by_contra unsettled
    refine not_repeats_of sim sound admissible (fun chance chance' => ?_) repeats
    rcases result : v.creatFile g pinum.toNat type text chance with ⟨ok, v'⟩
    have differs := creat_not_again sound ahead bit short unsettled result chance'
    simp only [Vol.serve, result]
    rcases differs with other | taken
    · exact Or.inl fun same => other (code_injective same)
    · exact Or.inr (Or.inl taken)
  · intro settles
    refine repeats_of sim sound admissible fun chance chance' => ?_
    rcases result : v.creatFile g pinum.toNat type text chance with ⟨ok, v'⟩
    simp only [Vol.serve, result, creat_again sound ahead bit short settles result chance']

theorem unlink_repeats_iff (sim : Sim g s v) (sound : Sound g v) {pinum : UInt32}
    {text : List UInt8} (admissible : Admissible v (.unlink pinum text)) :
    Repeats s (.unlink pinum text) ↔ Repeatable s (.unlink pinum text) := by
  constructor
  · intro repeats junk de addr found
    by_contra allowed
    -- the first unlink succeeds, so a second one with the same reply does too
    have first : replyCode s (.unlink pinum text) junk = 0 := by
      simp only [replyCode, serve, Serv.answer]
      exact unlinkFile_done found allowed
    obtain ⟨same, unchanged⟩ := repeats junk junk
    obtain ⟨chance, _, sim', _⟩ := serve_sim sim sound admissible junk
    have sound' := serve_sound sound admissible chance
    have bit' := serve_bit sound admissible chance
    obtain ⟨chance', reply', sim'', _⟩ := serve_sim sim' sound'
      ⟨bit', admissible.small, admissible.short⟩ junk
    rw [same, first] at reply'
    refine unlink_changes sim' sound' bit' ?_ sim'' unchanged.image
    by_contra failed
    simp only [Vol.serve, inode, Bool.not_eq_true] at reply' failed
    rw [failed] at reply'
    exact absurd reply' (by decide)
  · intro refused junk junk'
    have first := unlinkFile_refused (refused junk)
    have second : unlinkFile (s.answer minusOne) pinum text junk' =
        (minusOne, s.answer minusOne) := by
      apply unlinkFile_refused
      intro de addr found
      have same : lookupFile (s.answer minusOne) pinum text (junk'.call 0) =
          lookupFile s pinum text (junk'.call 0) :=
        @lookupFile_disk s (s.answer minusOne) rfl rfl _ _ _
      exact refused junk' de addr (same.symm.trans found)
    have served : serve s (.unlink pinum text) junk = s.answer minusOne := by
      simp only [serve, first]
    have served' : serve (s.answer minusOne) (.unlink pinum text) junk' =
        (s.answer minusOne).answer minusOne := by
      simp only [serve, second]
    rw [replyCode, replyCode, served, served']
    exact ⟨rfl, rfl, rfl, rfl⟩

/-- In every state of any number of sessions a request may be served twice exactly
if it is `Repeatable`; for a creat that calls `new_inode` the counters have to be
current. -/
theorem repeating_is_harmless (started : Started g s) {events : List Event}
    (all : Allowed step Sessions s events) {request : Request}
    (proper : Proper (run step s events) request)
    (current : ∀ pinum type name, request = .creat pinum type name →
      (inodeOf (run step s events) pinum).type = ufsDirectory →
      (∀ junk, lookupFile (run step s events) pinum name junk = none) →
        CountersCurrent (run step s events)) :
    Repeats (run step s events) request ↔ Repeatable (run step s events) request := by
  obtain ⟨v, sim, sound⟩ := sessions_sound started all
  generalize run step s events = s at *
  have admissible := proper.admissible sim sound
  cases request with
  | lookup | stat => exact iff_of_true (repeats_of sim sound admissible fun _ _ => rfl) trivial
  | read inum offset nbytes =>
    exact iff_of_true (repeats_of sim sound admissible fun _ _ => rfl) trivial
  | write inum buf offset nbytes => exact write_repeats_iff sim sound admissible
  | creat pinum type text =>
    refine creat_repeats_iff sim sound admissible fun dir absent => ?_
    have bit := admissible.allocated
    have missing : ∀ junk, lookupFile s pinum text junk = none := fun junk =>
      Located.of_none (absent ▸ lookupFile_sim sim sound bit admissible.short junk)
    have current := current pinum type text rfl
      ((inodeOf_type sim pinum (sound.inodeBit_lt _ bit)).trans dir) missing
    exact ⟨fun n => current.inode_le sim sound, fun k => current.block_le sim⟩
  | unlink pinum text => exact unlink_repeats_iff sim sound admissible
end Serving

/-- A second file may be asked for twice. -/
theorem creat_may_be_repeated : ∃ s, Allowed step Sessions s [creatA] ∧
    Repeatable (run step s [creatA]) (.creat 0 ufsRegularFile [98]) ∧
      Repeats (run step s [creatA]) (.creat 0 ufsRegularFile [98]) := by
  obtain ⟨s, started⟩ := started_exists smallest
  obtain ⟨⟨properA, _⟩, v, rooted⟩ := Started.creatA started
  have all : Allowed step Sessions s [creatA] := ⟨properA, trivial⟩
  have named : FileName [98] := ⟨by decide, by decide, by decide⟩
  have inside : (0 : UInt32).toNat < smallest.numInodes := by decide
  have size : (inodeOf (run step s [creatA]) 0).size.toNat = 96 := by
    rw [inodeOf_size rooted.backed.sim 0 inside]
    exact congrArg Node.size rooted.root
  have mapped : (inodeOf (run step s [creatA]) 0).ptr 0 ≠ minusOne := by
    rw [ne_eq, inodeOf_hole rooted.backed.sim 0 inside, UInt32.toNat_zero, rooted.root]
    exact Option.some_ne_none _
  have repeatable : Repeatable (run step s [creatA]) (.creat 0 ufsRegularFile [98]) := by
    refine Or.inr (Or.inr (Or.inr ?_))
    rw [if_neg (fun both => absurd both.1 (by decide)), EntryFits, size]
    exact ⟨by decide, Or.inl mapped⟩
  exact ⟨s, all, repeatable, (repeating_is_harmless started all
    (rooted.proper_creat ufsRegularFile named)
    fun _ _ _ _ _ _ => Synced.countersCurrent rooted.synced rooted.backed).mpr repeatable⟩

/-- The second of two unlinks of one file fails. -/
theorem unlink_may_not_be_repeated : ∃ s, Started smallest s ∧ Allowed step OneRun s [creatA] ∧
    Proper (run step s [creatA]) (.unlink 0 [97]) ∧
    replyCode (run step s [creatA]) (.unlink 0 [97]) noJunk = 0 ∧
    replyCode (serve (run step s [creatA]) (.unlink 0 [97]) noJunk) (.unlink 0 [97]) noJunk =
        minusOne ∧
      ¬ Repeats (run step s [creatA]) (.unlink 0 [97]) := by
  obtain ⟨s, started⟩ := started_exists smallest
  obtain ⟨all, v, rooted⟩ := Started.creatA started
  obtain ⟨first, v', rooted'⟩ := rooted.unlink letterA_fileName 2 1 (by simp) (by decide)
    (by simp [dot, dotDot]) (by decide) (by decide) noJunk
  have gone := rooted'.lookupFile_none letterA_fileName (by simp [dot, dotDot]) (Junk.call noJunk 0)
  have second := unlink_missing gone
  refine ⟨s, started, all, rooted.proper_unlink letterA_fileName, first, second, ?_⟩
  intro repeats
  have same : minusOne = (0 : UInt32) := second.symm.trans ((repeats noJunk noJunk).1.trans first)
  exact absurd same (by decide)

end OsProjects.Repetition
