import OsProjects.DotEntries
import OsProjects.EntryNames

/-!
The slots of directory blocks that hold no entry. `mkfs` and the creation of a
directory write -1 into every slot they do not use, and `unlink_file` into the
one it empties. A directory that grows into a further block gets a block of
zeros with one entry in it: its other slots are unused but have inode number 0.
They have no name, so a lookup still finds nothing that nobody created.
-/

namespace OsProjects.UnusedSlots

open ByteStore UfsLayout FileServer Volume VolumeSound VolumeRefinement MkfsImage Runs ServerRuns
  DirectoryBlocks BlockOwnership DirectorySlots DirectorySteps DirectoryMap FirstFiles SharedBlocks
  EntryNames

variable {g : Geometry} {s s' : Serv} {v v' : Vol}

abbrev Entries := UInt32 → List UInt8 → UInt32 → Prop

def rootEntries : Entries := fun d name inum => d = 0 ∧ inum = 0 ∧ (name = dot ∨ name = dotDot)

def Taken (s s' : Serv) (inum : UInt32) : Prop := ¬ Allocated s inum ∧ Allocated s' inum

/-- A `Creat` answered 0 that takes an inode writes an entry for it, and the two
of a new directory. An `Unlink` answered 0 removes the entry that it finds. -/
def account (s : Serv) : Event → Entries → Entries
  | .request (.creat pinum type name) junk, entries => fun d other inum => entries d other inum ∨
      (replyCode s (.creat pinum type name) junk = 0 ∧
        (d = pinum ∧ other = name ∧ Taken s (serve s (.creat pinum type name) junk) inum ∨
          type = ufsDirectory ∧ Taken s (serve s (.creat pinum type name) junk) d ∧
            (other = dot ∧ inum = d ∨ other = dotDot ∧ inum = pinum)))
  | .request (.unlink pinum name) junk, entries => fun d other inum => entries d other inum ∧
      ¬ (replyCode s (.unlink pinum name) junk = 0 ∧ d = pinum ∧ other = name ∧
        resolve s pinum name (junk.call 0) = some inum)
  | _, entries => entries

def Known (v : Vol) (live : List UInt8 → UInt32 → Prop) (blanks : Prop) (b j : Nat) : Prop :=
  v.entryInum b j = minusOne ∨ (blanks ∧ ∀ index < 32, v.entry b j index = 0) ∨
    ∃ name, live name (v.entryInum b j) ∧ v.hit name b j = true

structure Accounted (v : Vol) (entries : Entries) (blanks : Prop) : Prop where
  known : ∀ d : UInt32, v.inodeBit d.toNat = true → (v.node d.toNat).type = ufsDirectory →
    ∀ i b, (v.node d.toNat).direct i = some b → ∀ j < 128, Known v (entries d) blanks b j
  named : ∀ d name inum, entries d name inum → FileName name ∧ v.inodeBit inum.toNat = true
  once : ∀ d : UInt32, v.inodeBit d.toNat = true → (v.node d.toNat).type = ufsDirectory →
    ∀ i b j i' b' j' name, (v.node d.toNat).direct i = some b →
      (v.node d.toNat).direct i' = some b' → j < 128 → j' < 128 → FileName name →
      v.hit name b j = true → v.hit name b' j' = true → v.entryInum b j = v.entryInum b' j' →
      b = b' ∧ j = j'

section Volumes
variable {entries : Entries} {blanks : Prop} {name : List UInt8} {b j : Nat}

theorem Accounted.live (accounted : Accounted v entries blanks) {d : UInt32}
    (bit : v.inodeBit d.toNat = true) (dir : (v.node d.toNat).type = ufsDirectory) {i : Nat}
    (mapped : (v.node d.toNat).direct i = some b) (small : j < 128) (named : FileName name)
    (hit : v.hit name b j = true) : entries d name (v.entryInum b j) := by
  rcases accounted.known d bit dir i b mapped j small with unused | ⟨_, zero⟩ | ⟨other, live, hit'⟩
  · exact absurd unused (hit_live hit)
  · rw [hit_blank zero named] at hit
    cases hit
  · rwa [hit_unique named.plain (accounted.named _ _ _ live).1.plain hit hit']

end Volumes

/-- A `Creat` gives its directory a further block: the name is new, an inode is left,
and the block of the next entry is missing and can be had. -/
def Grows (s : Serv) (pinum type : UInt32) (name : List UInt8) (junk : Junk) : Prop :=
  (inodeOf s pinum).type = ufsDirectory ∧ lookupFile s pinum name junk = none ∧
    s.highestInode ≠ s.super.numInodes - 1 ∧ (inodeOf s pinum).size.toNat / 4096 < 30 ∧
    (inodeOf s pinum).ptr ((inodeOf s pinum).size.toNat / 4096) = minusOne ∧
    s.hghstAllocDblk.toNat + ownBlocks type + 1 < s.super.dataRegionLen.toNat

def KeepsBlocks (s : Serv) : Event → Prop
  | .request (.creat pinum type name) junk => ¬ Grows s pinum type name (junk.call 1)
  | _ => True

section Growing
variable {p : Nat} {type : UInt32} {name : List UInt8}

-- `Grows` on a volume
def Extends (g : Geometry) (v : Vol) (p : Nat) (type : UInt32) (name : List UInt8) : Prop :=
  (v.node p).type = ufsDirectory ∧ v.lookup p name = none ∧ v.highestInode + 1 < g.numInodes ∧
    (v.node p).size / 4096 ≤ 29 ∧ (v.node p).direct ((v.node p).size / 4096) = none ∧
    v.hghstAllocDblk + ownBlocks type + 1 < g.numData

def Gains (nd nd' : Node) : Prop := ∃ i, nd.direct i = none ∧ nd'.direct i ≠ none

theorem not_gains {nd nd' : Node} (same : nd'.direct = nd.direct) : ¬ Gains nd nd' := by
  rintro ⟨i, hole, mapped⟩
  exact mapped (by rw [same, hole])

theorem gains_iff_of_entry {de : Bytes} (outcome : EntryOutcome g v p de v')
    (dir : (v.node p).type = ufsDirectory) :
    Gains (v.node p) (v'.node p) ↔ (v.node p).size / 4096 ≤ 29 ∧
      (v.node p).direct ((v.node p).size / 4096) = none ∧ v.hghstAllocDblk + 1 < g.numData := by
  have enough := g.enough_data
  cases outcome with
  | lost reason =>
    refine iff_of_false (not_gains rfl) ?_
    rintro ⟨inside, hole, room⟩
    rcases reason with file | beyond | ⟨_, full⟩
    · exact file dir
    · omega
    · omega
  | old b _ _ mapped =>
    refine iff_of_false (not_gains ?_) ?_
    · simp [Vol.setNode]
    · rintro ⟨_, hole, _⟩
      rw [mapped] at hole
      cases hole
  | new v1 _ inside hole alloc next =>
    have bound := alloc.counter_lt
    refine iff_of_true ⟨_, hole, ?_⟩ ⟨inside, hole, by omega⟩
    simp [Vol.setNode, Node.setPtr]

theorem creat_gains_iff (sound : Sound g v) (tidy : Tidy g v) (synced : Synced v)
    (bit : v.inodeBit p = true) (chance : Chance) :
    Gains (v.node p) ((v.creatFile g p type name chance).2.node p) ↔ Extends g v p type name := by
  have low := synced.inodes _ bit
  have outcome := creatFile_outcome sound p type name chance
  generalize (v.creatFile g p type name chance).1 = ok at outcome
  generalize (v.creatFile g p type name chance).2 = v' at outcome ⊢
  -- the entry goes to the directory as it was, with the blocks that are left
  have entered : (v.node p).type = ufsDirectory → v.lookup p name = none →
      v.highestInode + 1 < g.numInodes → v.hghstAllocDblk + ownBlocks type < g.numData →
      (Gains (v.node p) (((opened g v p type chance).addEntry g p (v.highestInode + 1) name
        chance.entry).node p) ↔ Extends g v p type name) := by
    intro dir absent room blocks
    have first := opened_respects sound tidy synced room p type chance
    have node := (first.apart _ (by omega) bit).node
    have stored := gains_iff_of_entry (writeEntry_outcome (first.sound.node p (first.inodeBit _ bit))
      first.sound.hghstAllocDblk_lt (Vol.newEntry chance.entry (v.highestInode + 1) name))
      (by rw [node]; exact dir)
    rw [node, opened_counter sound room blocks] at stored
    rw [Vol.addEntry, node, stored, Extends]
    simp only [dir, absent, room, true_and]
  cases outcome with
  | notDir file => exact iff_of_false (not_gains rfl) fun extend => file extend.1
  | present dir found =>
    refine iff_of_false (not_gains rfl) fun extend => ?_
    rw [extend.2.1] at found
    cases found
  | noInode dir absent full =>
    refine iff_of_false (not_gains rfl) fun extend => ?_
    have room := extend.2.2.1
    omega
  | noBlock dir absent room isDir full =>
    refine iff_of_false (not_gains ?_) fun extend => ?_
    · have first := @newInode_respects g v sound tidy room type (fun m => m = v.highestInode + 1) rfl
      rw [(first.apart _ (by omega) bit).node]
    · have blocks := extend.2.2.2.2.2
      rw [ownBlocks, if_pos isDir] at blocks
      omega
  | file dir absent room isFile =>
    have blocks := sound.hghstAllocDblk_lt
    have result := entered dir absent room (by rwa [ownBlocks, if_neg isFile])
    rwa [opened, if_neg isFile] at result
  | dir dir absent room isDir block =>
    have result := entered dir absent room (by rwa [ownBlocks, if_pos isDir])
    rwa [opened, if_pos isDir] at result

theorem grows_iff (backed : Backed g s v) {pinum : UInt32} (bit : v.inodeBit pinum.toNat = true)
    (short : name.length ≤ 28) (junk : Junk) :
    Grows s pinum type name junk ↔ Extends g v pinum.toNat type name := by
  have layout := g.layout
  have inside := backed.sound.inodeBit_lt _ bit
  have inodes := backed.sound.highestInode_lt
  have region : s.super.dataRegionLen.toNat = g.numData := by
    rw [backed.sim.super]
    exact toNat_ofNat_lt (by omega)
  have left : ¬ v.highestInode = g.numInodes - 1 ↔ v.highestInode + 1 < g.numInodes := by omega
  rw [Grows, Extends, inodeOf_type backed.sim pinum inside, lookupFile_eq_none backed bit short,
    ne_eq, FailedRequests.highestInode_last backed.sim, left, inodeOf_size backed.sim pinum inside,
    inodeOf_hole backed.sim pinum inside, backed.sim.hghstAllocDblk, region, Nat.lt_succ_iff]
end Growing

section Serving
variable {entries : Entries} {blanks : Prop} {request : Request} {junk : Junk} {chance : Chance}

theorem taken_iff (backed : Backed g s v) (backed' : Backed g s' v') (inum : UInt32) :
    Taken s s' inum ↔ v.inodeBit inum.toNat = false ∧ v'.inodeBit inum.toNat = true := by
  rw [Taken, allocated_iff backed.sim backed.sound, allocated_iff backed'.sim backed'.sound,
    Bool.not_eq_true]

/-- An entry stays one while its slot is not the one an unlink empties. -/
theorem account_same (accounted : Accounted v entries blanks) (backed : Backed g s v)
    {d : UInt32} {i b j : Nat} {name : List UInt8} (bit : v.inodeBit d.toNat = true)
    (dir : (v.node d.toNat).type = ufsDirectory) (mapped : (v.node d.toNat).direct i = some b)
    (small : j < 128) (live : entries d name (v.entryInum b j)) (hit : v.hit name b j = true)
    (spared : ∀ pinum name i' j', request = .unlink pinum name → d.toNat = pinum.toNat →
      replyCode s request junk = 0 → v.lookup d.toNat name = some (i', j') →
        ¬ (b = (v.node d.toNat).at' i' ∧ j = j')) :
    account s (.request request junk) entries d name (v.entryInum b j) := by
  cases request with
  | creat pinum type text => exact .inl live
  | unlink pinum text =>
    refine ⟨live, ?_⟩
    rintro ⟨done, rfl, rfl, found⟩
    have named := (accounted.named _ _ _ live).1
    rw [resolve_eq backed bit (le_trans named.short (by decide))] at found
    obtain ⟨⟨i', j'⟩, place, number⟩ := Option.map_eq_some_iff.mp found
    obtain ⟨_, inside, small', hit'⟩ := lookup_found place
    -- the unlink finds this very slot, as no other has the name and the number
    exact spared d name i' j' rfl rfl done place (accounted.once d bit dir i b j i' _ j' name
      mapped ((backed.sound.node _ bit).scanned dir inside) small small' named hit hit'
      number.symm)
  | _ => exact live

variable (accounted : Accounted v entries blanks) (backed : Backed g s v) (synced : Synced v)
  (proper : Proper s request) (file : NamesFile request)
  (reply : replyCode s request junk = (v.serve g request chance).1)
  (backed' : Backed g (serve s request junk) (v.serve g request chance).2)
include accounted backed synced proper file reply backed'

theorem Accounted.known_serve (keeps : blanks ∨ KeepsBlocks s (.request request junk)) (d : UInt32)
    (bit' : (v.serve g request chance).2.inodeBit d.toNat = true)
    (dir' : ((v.serve g request chance).2.node d.toNat).type = ufsDirectory) (i b : Nat)
    (mapped : ((v.serve g request chance).2.node d.toNat).direct i = some b) (j : Nat)
    (small : j < 128) :
    Known (v.serve g request chance).2 (account s (.request request junk) entries d) blanks b
      j := by
  have layout := g.layout
  have admissible := proper.admissible backed.sim backed.sound
  have moved := serve_slotStep backed.sound backed.tidy (fun _ => synced) admissible chance bit'
    dir' mapped small
  have free := synced_free synced
  cases moved with
  | same old e place bytes spared =>
    have dir := serve_wasDir backed.sound backed.tidy (fun _ => synced) admissible chance dir' old
    rw [← reply] at spared
    rw [Known, entryInum_congr bytes]
    rcases accounted.known d old dir e b place j small with unused | ⟨allowed, zero⟩ |
      ⟨name, live, hit⟩
    · exact .inl unused
    · exact .inr (.inl ⟨allowed, fun index bound => (bytes index bound).trans (zero index bound)⟩)
    · have short := le_trans (accounted.named _ _ _ live).1.short (show 27 ≤ 28 by decide)
      refine .inr (.inr ⟨name, account_same accounted backed old dir place small
        live hit spared, ?_⟩)
      rwa [hit_congr short bytes]
  | dots pinum text memory asked done new taken contents only =>
    subst asked
    have inside := backed'.sound.inodeBit_lt _ bit'
    have inside' : pinum.toNat < g.numInodes := backed.sound.inodeBit_lt _ admissible.allocated
    have fresh : Taken s (serve s (.creat pinum ufsDirectory text) junk) d :=
      (taken_iff backed backed' d).mpr ⟨by rw [new]; exact free, bit'⟩
    rw [UInt32.ofNat_toNat] at contents
    rcases fresh_slot contents small (valid_inode inside) (valid_inode inside') with
      ⟨hit, inum⟩ | ⟨hit, inum⟩ | unused
    · refine .inr (.inr ⟨dot, ?_, hit⟩)
      rw [inum]
      exact .inr ⟨reply.trans done, .inr ⟨rfl, fresh, .inl ⟨rfl, rfl⟩⟩⟩
    · refine .inr (.inr ⟨dotDot, ?_, hit⟩)
      rw [inum]
      exact .inr ⟨reply.trans done, .inr ⟨rfl, fresh, .inr ⟨rfl, rfl⟩⟩⟩
    · exact .inl unused
  | entered pinum type text memory asked done parent old absent taken bytes place block =>
    subst asked
    have inodes := backed'.sound.highestInode_lt
    have number : (UInt32.ofNat (v.highestInode + 1)).toNat = v.highestInode + 1 :=
      toNat_ofNat_lt (by omega)
    obtain ⟨hit, inum⟩ := newEntry_hit bytes file (by omega)
    refine .inr (.inr ⟨text, ?_, hit⟩)
    rw [inum]
    refine .inr ⟨reply.trans done, .inl ⟨UInt32.toNat_inj.mp parent, rfl, ?_⟩⟩
    rw [taken_iff backed backed', number]
    exact ⟨free, backed'.sound.inodeBit_le _ taken.ge⟩
  -- the slots beside an entry that starts a block of its own
  | blank zero pinum type text asked parent old grown =>
    rcases keeps with allowed | keeps
    · exact .inr (.inl ⟨allowed, zero⟩)
    · subst asked
      cases UInt32.toNat_inj.mp parent
      have gains : Gains (v.node d.toNat)
          ((v.creatFile g d.toNat type text chance).2.node d.toNat) :=
        ⟨_, grown.1, fun hole => by cases grown.2.symm.trans hole⟩
      have extend := (creat_gains_iff backed.sound backed.tidy synced old chance).mp gains
      exact absurd ((grows_iff backed old admissible.short (junk.call 1)).mpr extend) keeps
  | cleared unused => exact .inl unused

theorem Accounted.named_serve (d : UInt32) (name : List UInt8) (inum : UInt32)
    (live : account s (.request request junk) entries d name inum) :
    FileName name ∧ (v.serve g request chance).2.inodeBit inum.toNat = true := by
  have admissible := proper.admissible backed.sim backed.sound
  have respects := serve_respects backed.sound backed.tidy (fun _ => synced) admissible chance
  have old : entries d name inum →
      FileName name ∧ (v.serve g request chance).2.inodeBit inum.toNat = true := fun live =>
    (accounted.named d name inum live).imp_right (respects.inodeBit _)
  cases request with
  | creat pinum type text =>
    rcases live with live | ⟨_, ⟨_, rfl, taken⟩ | ⟨_, taken, ⟨rfl, rfl⟩ | ⟨rfl, rfl⟩⟩⟩
    · exact old live
    · exact ⟨file, ((taken_iff backed backed' _).mp taken).2⟩
    · exact ⟨dot_fileName, ((taken_iff backed backed' _).mp taken).2⟩
    · exact ⟨dotDot_fileName, respects.inodeBit _ admissible.allocated⟩
  | unlink pinum text => exact old live.1
  | _ => exact old live

omit reply in
theorem Accounted.once_serve (d : UInt32)
    (bit' : (v.serve g request chance).2.inodeBit d.toNat = true)
    (dir' : ((v.serve g request chance).2.node d.toNat).type = ufsDirectory)
    (i b j i' b' j' : Nat) (name : List UInt8)
    (mapped : ((v.serve g request chance).2.node d.toNat).direct i = some b)
    (mapped' : ((v.serve g request chance).2.node d.toNat).direct i' = some b')
    (small : j < 128) (small' : j' < 128) (named : FileName name)
    (hit : (v.serve g request chance).2.hit name b j = true)
    (hit' : (v.serve g request chance).2.hit name b' j' = true)
    (inums : (v.serve g request chance).2.entryInum b j =
      (v.serve g request chance).2.entryInum b' j') : b = b' ∧ j = j' := by
  have admissible := proper.admissible backed.sim backed.sound
  have origin := fun {i b j} mapped small hit => hitStep (b := b) (j := j)
    (serve_slotStep (i := i) backed.sound backed.tidy (fun _ => synced) admissible chance bit' dir'
      mapped small) backed'.sound backed.sound admissible.allocated file small named hit
  have free := synced_free synced
  have dir := serve_wasDir backed.sound backed.tidy (fun _ => synced) admissible chance dir'
  -- the number of a new entry was not allocated, and that of an old one was
  have fresh : ∀ {e c k}, v.inodeBit d.toNat = true → (v.node d.toNat).direct e = some c →
      k < 128 → v.hit name c k = true →
      v.entryInum c k ≠ UInt32.ofNat (v.highestInode + 1) := by
    intro e c k old place below answers new
    have known := (accounted.named _ _ _ (accounted.live old (dir old) place below named answers)).2
    have layout := g.layout
    have inodes := backed.sound.highestInode_lt
    rw [new, toNat_ofNat_lt (by omega), free] at known
    cases known
  have newDir : d.toNat = v.highestInode + 1 → v.inodeBit d.toNat ≠ true := by
    intro new
    rw [new, free]
    decide
  -- two slots of one request: both old, both dots of a new directory, or the one new entry
  cases origin mapped small hit with
  | same old e place answers inum _ =>
    cases origin mapped' small' hit' with
    | same _ e' place' answers' inum' _ =>
      exact accounted.once d old (dir old) e b j e' b' j' name place place' small small' named
        answers answers' (inum.symm.trans (inums.trans inum'))
    | dots _ _ _ _ new => exact absurd old (newDir new)
    | entered _ _ _ _ _ _ inum' =>
      exact absurd (inum.symm.trans (inums.trans inum')) (fresh old place small answers)
  | dots pinum text _ _ new which only =>
    cases origin mapped' small' hit' with
    | same old => exact absurd old (newDir new)
    | dots _ _ _ _ _ which' _ =>
      refine ⟨(only i' b' mapped').symm, ?_⟩
      rcases which with ⟨rfl, rfl, _⟩ | ⟨rfl, rfl, _⟩
      · rcases which' with ⟨rfl, _⟩ | ⟨_, other, _⟩
        · rfl
        · cases other
      · rcases which' with ⟨_, other, _⟩ | ⟨rfl, _⟩
        · cases other
        · rfl
    | entered _ _ _ _ _ old => exact absurd old (newDir new)
  | entered _ _ _ _ _ old inum place block =>
    cases origin mapped' small' hit' with
    | same _ e' place' answers' inum' _ =>
      exact absurd (inum'.symm.trans (inums.symm.trans inum)) (fresh old place' small' answers')
    | dots _ _ _ _ new => exact absurd old (newDir new)
    | entered _ _ _ _ _ _ _ place' block' =>
      exact ⟨Option.some.inj (block.symm.trans block'), place.trans place'.symm⟩

theorem Accounted.serve (keeps : blanks ∨ KeepsBlocks s (.request request junk)) :
    Accounted (v.serve g request chance).2 (account s (.request request junk) entries) blanks :=
  ⟨accounted.known_serve backed synced proper file reply backed' keeps,
    accounted.named_serve backed synced proper file reply backed',
    accounted.once_serve backed synced proper file backed'⟩

end Serving

structure SlotState (g : Geometry) (s : Serv) (entries : Entries) (blanks : Prop) (v : Vol) :
    Prop where
  backed : Backed g s v
  synced : Synced v
  accounted : Accounted v entries blanks

def Marked (live : List UInt8 → UInt32 → Prop) (bytes : Bytes) : Prop :=
  wordAt bytes 28 = minusOne ∨ ∃ name, live name (wordAt bytes 28) ∧ streq bytes 0 name = true

def Blank (bytes : Bytes) : Prop :=
  wordAt bytes 28 = 0 ∧ ∀ name, FileName name → streq bytes 0 name = false

theorem Blank.not_marked {live : List UInt8 → UInt32 → Prop} {bytes : Bytes} (blank : Blank bytes)
    (named : ∀ name inum, live name inum → FileName name) : ¬ Marked live bytes := by
  rintro (unused | ⟨name, listed, hit⟩)
  · rw [blank.1] at unused
    cases unused
  · rw [blank.2 name (named name _ listed)] at hit
    cases hit

def AllMarked (s : Serv) (entries : Entries) : Prop :=
  ∀ d i j, Allocated s d → (inodeOf s d).type = ufsDirectory → i < 30 →
    (inodeOf s d).ptr i ≠ minusOne → j < 128 →
      Marked (entries d) (slotBytes s ((inodeOf s d).ptr i).toNat j)

section Runs
variable {entries : Entries} {blanks : Prop}

theorem Started.slotState (started : Started g s) (blanks : Prop) :
    ∃ v, SlotState g s rootEntries blanks v := by
  obtain ⟨v, backed, initial⟩ := Started.backed started
  refine ⟨v, backed, Initial.synced initial, ?_, ?_, ?_⟩
  · intro d bit _ i b mapped j small
    obtain ⟨root, _, junk, contents⟩ := Initial.block initial bit mapped
    have zero : d = 0 := UInt32.toNat_inj.mp root
    rcases fresh_slot contents small (by decide) (by decide) with
      ⟨hit, inum⟩ | ⟨hit, inum⟩ | unused
    · exact .inr (.inr ⟨dot, ⟨zero, inum, .inl rfl⟩, hit⟩)
    · exact .inr (.inr ⟨dotDot, ⟨zero, inum, .inr rfl⟩, hit⟩)
    · exact .inl unused
  · rintro d name inum ⟨_, rfl, dots⟩
    refine ⟨?_, by simp [initial.inodeBit]⟩
    rcases dots with rfl | rfl
    · exact dot_fileName
    · exact dotDot_fileName
  · intro d bit _ i b j i' b' j' name mapped mapped' small small' named hit hit' _
    obtain ⟨_, first, junk, contents⟩ := Initial.block initial bit mapped
    obtain ⟨_, first', _⟩ := Initial.block initial bit mapped'
    rw [first] at mapped
    rw [first'] at mapped'
    cases mapped.symm.trans mapped'
    refine ⟨rfl, ?_⟩
    rcases (hit_freshDir contents small (by decide) (by decide) named).mp ⟨hit, rfl⟩ with
      ⟨here, rfl, _⟩ | ⟨here, rfl, _⟩
    · rcases (hit_freshDir contents small' (by decide) (by decide) named).mp ⟨hit', rfl⟩ with
        ⟨there, _⟩ | ⟨_, other, _⟩
      · exact here.trans there.symm
      · cases other
    · rcases (hit_freshDir contents small' (by decide) (by decide) named).mp ⟨hit', rfl⟩ with
        ⟨_, other, _⟩ | ⟨there, _⟩
      · cases other
      · exact here.trans there.symm

theorem SlotState.step (state : SlotState g s entries blanks v) {event : Event}
    (taken : DirRun s event) (keeps : blanks ∨ KeepsBlocks s event) :
    ∃ v', SlotState g (ServerRuns.step s event) (account s event entries) blanks v' := by
  cases event with
  | restart junk => exact absurd taken id
  | request request junk =>
    obtain ⟨backed, synced, accounted⟩ := state
    obtain ⟨chance, reply, backed', _, respects⟩ := backed.serve taken.1 (fun _ => synced) junk
    exact ⟨_, backed', respects.synced synced,
      accounted.serve backed synced taken.1 taken.2 reply backed' keeps⟩

theorem SlotState.allMarked (state : SlotState g s entries False v) : AllMarked s entries := by
  obtain ⟨backed, _, accounted⟩ := state
  intro d i j allocated dir _ pointer small
  have bit := (allocated_iff backed.sim backed.sound d).mp allocated
  have inside := backed.sound.inodeBit_lt _ bit
  rw [inodeOf_type backed.sim d inside] at dir
  rw [ne_eq, inodeOf_hole backed.sim d inside] at pointer
  obtain ⟨b, mapped⟩ := Option.ne_none_iff_exists'.mp pointer
  obtain ⟨inum, text⟩ := slot_eq backed.sim backed.sound bit mapped small
  rw [Marked, inum]
  rcases accounted.known d bit dir i b mapped j small with unused | ⟨no, _⟩ | ⟨name, live, hit⟩
  · exact .inl unused
  · exact absurd no id
  · refine .inr ⟨name, live, ?_⟩
    rw [text name (accounted.named _ _ _ live).1]
    simp only [Vol.hit, Bool.and_eq_true] at hit
    exact hit.1

theorem SlotState.resolve (state : SlotState g s entries blanks v) {d inum : UInt32}
    {name : List UInt8} {junk : Junk} (allocated : Allocated s d) (named : FileName name)
    (found : DirectorySteps.resolve s d name junk = some inum) : entries d name inum := by
  obtain ⟨backed, _, accounted⟩ := state
  have bit := (allocated_iff backed.sim backed.sound d).mp allocated
  rw [resolve_eq backed bit (le_trans named.short (by decide))] at found
  obtain ⟨⟨i, j⟩, place, number⟩ := Option.map_eq_some_iff.mp found
  obtain ⟨dir, inside, small, hit⟩ := lookup_found place
  rw [← number]
  exact accounted.live bit dir ((backed.sound.node _ bit).scanned dir inside) small named hit

/-- A block that a `creat_file` adds to a directory has a slot besides the new
entry, and that slot is blank. -/
theorem grown_blank (sound : Sound g v) (tidy : Tidy g v) (synced : Synced v)
    {pinum type : UInt32} {name : List UInt8} (admissible : Admissible v (.creat pinum type name))
    (chance : Chance) {i b : Nat} (hole : (v.node pinum.toNat).direct i = none)
    (mapped : ((v.serve g (.creat pinum type name) chance).2.node pinum.toNat).direct i = some b) :
    (v.node pinum.toNat).type = ufsDirectory ∧ ∃ j < 128, ∀ index < 32,
        (v.serve g (.creat pinum type name) chance).2.entry b j index = 0 := by
  have bit : v.inodeBit pinum.toNat = true := admissible.allocated
  have dir : (v.node pinum.toNat).type = ufsDirectory := by
    by_contra file
    simp [Vol.serve, Vol.creatFile, file, hole] at mapped
  have respects := serve_respects sound tidy (fun _ => synced) admissible chance
  have moved := serve_dirStep sound tidy (fun _ => synced) admissible chance
    (respects.inodeBit _ bit)
    ((serve_type sound tidy (fun _ => synced) admissible chance bit).trans dir)
  refine ⟨dir, ?_⟩
  cases moved with
  | kept old apart _ =>
    rw [apart.node, hole] at mapped
    cases mapped
  | starved new =>
    rw [bit] at new
    cases new
  | made _ _ _ _ _ _ new =>
    rw [new, synced_free synced] at bit
    cases bit
  | appended _ _ _ c _ before _ _ _ _ _ _ appends =>
    have aligned := (sound.node _ bit).aligned dir
    rcases appends.mapped mapped with rfl | ⟨old, _⟩
    · rcases appends.source with ⟨here, _⟩ | ⟨_, _, _, zero⟩
      · -- the block would have been at another index before
        rw [appends.node] at mapped
        by_cases place : i = (v.node pinum.toNat).size / 4096
        · rw [place, here] at hole
          cases hole
        · rw [Node.setPtr_other place, hole] at mapped
          cases mapped
      · obtain ⟨j, small, other⟩ : ∃ j < 128, j ≠ (v.node pinum.toNat).size % 4096 / 32 := by
          by_cases first : (v.node pinum.toNat).size % 4096 / 32 = 0
          · exact ⟨1, by decide, by omega⟩
          · exact ⟨0, by decide, Ne.symm first⟩
        exact ⟨j, small, fun index bound =>
          (appends.entry_beside aligned other bound).trans (zero _ (by omega))⟩
    · rw [hole] at old
      cases old
  | removed _ _ _ _ asked => cases asked

theorem grown_slot (backed : Backed g s v) (synced : Synced v) {pinum type : UInt32}
    {name : List UInt8} {junk : Junk} (proper : Proper s (.creat pinum type name)) {i : Nat}
    (hole : (inodeOf s pinum).ptr i = minusOne)
    (grown : (inodeOf (serve s (.creat pinum type name) junk) pinum).ptr i ≠ minusOne) :
    (inodeOf (serve s (.creat pinum type name) junk) pinum).type = ufsDirectory ∧
      ∃ j < 128, Blank (slotBytes (serve s (.creat pinum type name) junk)
        ((inodeOf (serve s (.creat pinum type name) junk) pinum).ptr i).toNat j) := by
  obtain ⟨chance, _, backed', _, respects⟩ := backed.serve proper (fun _ => synced) junk
  have admissible := proper.admissible backed.sim backed.sound
  have bit' : (v.serve g (.creat pinum type name) chance).2.inodeBit pinum.toNat = true :=
    respects.inodeBit _ admissible.allocated
  have inside : pinum.toNat < g.numInodes := backed.sound.inodeBit_lt _ admissible.allocated
  rw [inodeOf_hole backed.sim pinum inside] at hole
  rw [ne_eq, inodeOf_hole backed'.sim pinum inside] at grown
  obtain ⟨b, mapped⟩ := Option.ne_none_iff_exists'.mp grown
  obtain ⟨dir, j, small, zero⟩ := grown_blank backed.sound backed.tidy synced admissible chance hole
    mapped
  obtain ⟨inum, text⟩ := slot_eq backed'.sim backed'.sound bit' mapped small
  rw [inodeOf_type backed'.sim pinum inside]
  refine ⟨(serve_type backed.sound backed.tidy (fun _ => synced) admissible chance
    admissible.allocated).trans dir, j, small, ?_⟩
  refine ⟨inum.trans (inum_blank zero), fun other named => ?_⟩
  rw [text other named, streq_blank (zero 0 (by decide)) named]

/-- A request after which all slots are marked took no block for its directory. -/
theorem SlotState.keepsBlocks (state : SlotState g s entries blanks v) {event : Event}
    (taken : DirRun s event)
    (marked : AllMarked (ServerRuns.step s event) (account s event entries)) :
    KeepsBlocks s event := by
  cases event with
  | restart junk => trivial
  | request request junk =>
    cases request with
    | creat pinum type name =>
      intro grows
      obtain ⟨backed, synced, accounted⟩ := state
      obtain ⟨chance, reply, backed', _, respects⟩ := backed.serve taken.1 (fun _ => synced) junk
      have admissible := taken.1.admissible backed.sim backed.sound
      have bit : v.inodeBit pinum.toNat = true := admissible.allocated
      have number := backed.sound.inodeBit_lt _ bit
      have allocated := (allocated_iff backed'.sim backed'.sound pinum).mpr
        (respects.inodeBit _ bit)
      have extend := (grows_iff backed bit admissible.short (junk.call 1)).mp grows
      obtain ⟨i, hole, mapped⟩ :=
        (creat_gains_iff backed.sound backed.tidy synced bit chance).mpr extend
      obtain ⟨b, grown⟩ := Option.ne_none_iff_exists'.mp mapped
      have inside := ((backed'.sound.node _ (respects.inodeBit _ bit)).pointer i b grown).1
      have grown := mt (inodeOf_hole backed'.sim pinum number i).mp mapped
      obtain ⟨dir, j, small, blank⟩ := grown_slot backed synced taken.1
        ((inodeOf_hole backed.sim pinum number i).mpr hole) grown
      exact blank.not_marked (fun text inum live => (accounted.named_serve backed synced taken.1
        taken.2 reply backed' pinum text inum live).1)
        (marked pinum i j allocated dir inside grown small)
    | _ => trivial

/-- The entries are those of the record, in every state of a session. -/
theorem Started.accounted (started : Started g s) {events : List Event}
    (all : Allowed step DirRun s events) :
    ∃ v, SlotState g (run (recorded step account) (s, rootEntries) events).1
      (run (recorded step account) (s, rootEntries) events).2 True v := by
  have all' : Allowed (recorded step account) (fun state event => DirRun state.1 event)
      (s, rootEntries) events := allowed_recorded.mpr all
  exact invariant (fun state => ∃ v, SlotState g state.1 state.2 True v)
    (Started.slotState started True)
    (fun state event ⟨v, holds⟩ taken => holds.step taken (.inl trivial)) all'

end Runs

/-- All slots are marked in every state of a session iff no directory grows by a
block. A name that is found is always that of an entry. -/
theorem slots_are_marked_iff (g : Geometry) (s : Serv) (started : Started g s)
    (events : List Event) (all : Allowed step DirRun s events) :
    ((∀ front, front <+: events →
        AllMarked (run step s front) (run (recorded step account) (s, rootEntries) front).2) ↔
      Allowed step KeepsBlocks s events) ∧
    ∀ d name inum junk, Allocated (run step s events) d → FileName name →
      resolve (run step s events) d name junk = some inum →
        (run (recorded step account) (s, rootEntries) events).2 d name inum := by
  constructor
  · have main : (∀ front, front <+: events →
        AllMarked (run (recorded step account) (s, rootEntries) front).1
          (run (recorded step account) (s, rootEntries) front).2) ↔
        Allowed (recorded step account) (fun state event => KeepsBlocks state.1 event)
          (s, rootEntries) events := by
      refine always_iff (fun state => ∃ v, SlotState g state.1 state.2 False v)
        (fun state => AllMarked state.1 state.2) ?_ ?_ ?_ (Started.slotState started False)
        (allowed_recorded.mpr all)
      · rintro state ⟨v, holds⟩
        exact holds.allMarked
      · rintro state event ⟨v, holds⟩ taken keeps
        exact holds.step taken (.inr keeps)
      · rintro state event ⟨v, holds⟩ taken marked
        exact holds.keepsBlocks taken marked
    simpa only [run_recorded] using main.trans allowed_recorded
  · intro d name inum junk allocated named found
    obtain ⟨v, state⟩ := Started.accounted started all
    rw [run_recorded] at state
    exact state.resolve allocated named found

/-- The first file takes a slot in the block the root directory has. -/
theorem first_file_leaves_marked_slots : ∃ s, Started smallest s ∧
    AllMarked (run step s [creatA]) (run (recorded step account) (s, rootEntries) [creatA]).2 ∧
    (run (recorded step account) (s, rootEntries) [creatA]).2 0 [97] 1 := by
  obtain ⟨s, started⟩ := started_exists smallest
  obtain ⟨v, rooted⟩ := Started.rooted started
  obtain ⟨allowed, v', rooted'⟩ := Started.creatA started
  have keeps : KeepsBlocks s creatA := by
    rintro ⟨_, _, _, _, hole, _⟩
    rw [inodeOf_size rooted.backed.sim 0 (by decide), inodeOf_hole rooted.backed.sim 0 (by decide),
      UInt32.toNat_zero, rooted.root] at hole
    cases hole
  obtain ⟨marked, live⟩ := slots_are_marked_iff smallest s started [creatA]
    ⟨⟨allowed.1, letterA_fileName⟩, trivial⟩
  obtain ⟨_, _, answer⟩ := rooted'.present letterA_fileName (.head _) (by decide) (by
    simp [dot, dotDot])
  refine ⟨s, started, marked.mpr ⟨keeps, trivial⟩ [creatA] (List.prefix_refl _),
    live 0 [97] 1 noJunk (rooted'.allocated 0 (by decide)) letterA_fileName ?_⟩
  have bit : v'.inodeBit (0 : UInt32).toNat = true := rooted'.bit 0 (Nat.zero_le _)
  exact (resolve_eq rooted'.backed bit (by decide) noJunk).trans answer

def growingRun : List Event := (List.range 127).map creatNumbered

theorem growing_block_has_blank_slots : ∃ s, Started roomy s ∧ Allowed step DirRun s growingRun ∧
    (∃ j < 128, Blank (slotBytes (run step s growingRun)
      ((inodeOf (run step s growingRun) 0).ptr 1).toNat j)) ∧
    ¬ AllMarked (run step s growingRun)
      (run (recorded step account) (s, rootEntries) growingRun).2 := by
  obtain ⟨s, started⟩ := started_exists roomy
  obtain ⟨allowed, v, rooted⟩ := fill_rooted 126 (by decide) started
  obtain ⟨v', b, backed', bit', second, _⟩ := second_block rooted
  have named := numbered_fileName (show 126 < 128 by decide)
  have split : growingRun = (List.range 126).map creatNumbered ++ [creatNumbered 126] := by
    rw [growingRun, List.range_succ, List.map_append, List.map_singleton]
  have whole : Allowed step DirRun s growingRun := by
    have session : Allowed step OneRun s growingRun := by
      rw [split, allowed_append]
      exact ⟨allowed, rooted.proper_creat _ named, trivial⟩
    refine allowed_of_mem ?_ session
    intro event listed state taken
    obtain ⟨n, below, rfl⟩ := List.mem_map.mp listed
    have := List.mem_range.mp below
    exact ⟨taken, numbered_fileName (by omega)⟩
  have last : run step s growingRun = serve (run step s ((List.range 126).map creatNumbered))
        (.creat 0 ufsRegularFile (numbered 126)) noJunk := by
    rw [split, run_append, run_cons, run_nil, creatNumbered, step]
  have hole : (inodeOf (run step s ((List.range 126).map creatNumbered)) 0).ptr 1 = minusOne := by
    rw [inodeOf_hole rooted.backed.sim 0 (by decide), UInt32.toNat_zero, rooted.root]
    rfl
  have grown : (inodeOf (run step s growingRun) 0).ptr 1 ≠ minusOne := by
    rw [last, ne_eq, inodeOf_hole backed'.sim 0 (by decide), UInt32.toNat_zero, second]
    exact Option.some_ne_none b
  have allocated : Allocated (run step s growingRun) 0 := by
    rw [last]
    exact (allocated_iff backed'.sim backed'.sound 0).mpr bit'
  rw [last] at grown
  obtain ⟨dir, j, small, blank⟩ := grown_slot rooted.backed rooted.synced
    (rooted.proper_creat _ named) hole grown
  rw [← last] at dir blank grown
  refine ⟨s, started, whole, ⟨j, small, blank⟩, fun marked => ?_⟩
  obtain ⟨_, state⟩ := Started.accounted started whole
  exact blank.not_marked (fun name inum live => (state.accounted.named 0 name inum live).1)
    (marked 0 1 j allocated dir (by decide) grown small)

end OsProjects.UnusedSlots
