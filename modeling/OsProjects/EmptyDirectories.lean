import OsProjects.EntryNames
import OsProjects.Repetition

/-!
Which directories `unlink_file` takes for empty. It looks at the size alone, which
a new entry raises by 32 and an unlink cuts to the offset of the removed slot in
its block. A directory without entries never has more than 64 bytes. One with
entries has more than that until the entry in an early slot is removed before
those behind it.
-/

namespace OsProjects.EmptyDirectories

open ByteStore UfsLayout FileServer Volume VolumeSound VolumeRefinement MkfsImage Runs ServerRuns
  DirectoryBlocks BlockOwnership DirectorySlots DirectorySteps DirectoryMap FirstFiles EntryNames

variable {g : Geometry} {s : Serv} {v v' : Vol} {d : Nat}

def EmptyDir (s : Serv) (d : UInt32) : Prop :=
  ∀ i j, i < 30 → (inodeOf s d).ptr i ≠ minusOne → j < 128 →
    wordAt (slotBytes s ((inodeOf s d).ptr i).toNat j) 28 ≠ minusOne →
      streq (slotBytes s ((inodeOf s d).ptr i).toNat j) 0 dot = true ∨
        streq (slotBytes s ((inodeOf s d).ptr i).toNat j) 0 dotDot = true

def Bare (v : Vol) (d : Nat) : Prop :=
  ∀ i b j, (v.node d).direct i = some b → j < 128 → v.entryInum b j ≠ minusOne →
    v.hit dot b j = true ∨ v.hit dotDot b j = true

theorem emptyDir_iff (backed : Backed g s v) {d : UInt32} (bit : v.inodeBit d.toNat = true) :
    EmptyDir s d ↔ Bare v d.toNat := by
  have inside := backed.sound.inodeBit_lt _ bit
  have hits : ∀ {b j}, v.entryInum b j ≠ minusOne → ∀ name,
      (v.hit name b j = true ↔ streq (v.entry b j) 0 name = true) := by
    intro b j live name
    simp [Vol.hit, live]
  constructor
  · intro empty i b j mapped small live
    obtain ⟨inum, text⟩ := slot_eq backed.sim backed.sound bit mapped small
    have pointer : (inodeOf s d).ptr i ≠ minusOne := by
      rw [ne_eq, inodeOf_hole backed.sim d inside, mapped]
      exact Option.some_ne_none b
    rw [hits live, hits live, ← text dot dot_fileName, ← text dotDot dotDot_fileName]
    exact empty i j ((backed.sound.node _ bit).pointer i b mapped).1 pointer small (inum ▸ live)
  · intro bare i j _ pointer small live
    rw [ne_eq, inodeOf_hole backed.sim d inside] at pointer
    obtain ⟨b, mapped⟩ := Option.ne_none_iff_exists'.mp pointer
    obtain ⟨inum, text⟩ := slot_eq backed.sim backed.sound bit mapped small
    rw [inum] at live
    rw [text dot dot_fileName, text dotDot dotDot_fileName, ← hits live, ← hits live]
    exact bare i b j mapped small live

/-- Of the blocks of a directory only the first one has unused slots, and those
are behind its size. The names `.` and `..` are in the first two slots. -/
structure Slotted (v : Vol) (d : Nat) : Prop where
  used : ∀ i b j, (v.node d).direct i = some b → j < 128 →
    (v.node d).direct 0 ≠ some b ∨ 32 * j < (v.node d).size → v.entryInum b j ≠ minusOne
  dots : ∀ i b j, (v.node d).direct i = some b → j < 128 →
    (v.hit dot b j = true → j = 0) ∧ (v.hit dotDot b j = true → j = 1)

def NamesUser : Request → Prop
  | .creat _ _ name => UserName name
  | .unlink _ name => UserName name
  | _ => True

theorem NamesUser.namesFile {request : Request} (user : NamesUser request) : NamesFile request := by
  cases request with
  | creat | unlink => exact user.toFileName
  | _ => trivial

/-- The third slot of a block of an empty directory is unused. -/
theorem Slotted.third_of_bare (slotted : Slotted v d) (bare : Bare v d) {i b : Nat}
    (mapped : (v.node d).direct i = some b) : v.entryInum b 2 = minusOne := by
  by_contra live
  have dots := slotted.dots i b 2 mapped (by decide)
  rcases bare i b 2 mapped (by decide) live with here | here
  · exact absurd (dots.1 here) (by decide)
  · exact absurd (dots.2 here) (by decide)

theorem Slotted.size_of_bare (slotted : Slotted v d) (sound : Sound g v)
    (bit : v.inodeBit d = true) (dir : (v.node d).type = ufsDirectory) (bare : Bare v d) :
    (v.node d).size ≤ 64 := by
  -- behind 64 bytes the third slot would be in use
  by_contra big
  have first := (sound.node d bit).scanned dir (show 0 < (v.node d).blocksUsed by
    simp only [Node.blocksUsed]
    omega)
  exact slotted.used 0 _ 2 first (by decide) (.inr (by omega)) (slotted.third_of_bare bare first)

section Fresh
variable {b : Nat} {junk : Bytes} {self parent : UInt32}
  (node : v.node d = { (Node.fresh ufsDirectory).setPtr 0 b with size := 64 })
  (contents : ∀ index < 4096, v.block b index = freshDir junk self parent index)
  (valid : self ≠ minusOne) (valid' : parent ≠ minusOne)
include node contents valid valid'

theorem fresh_slotted : Slotted v d := by
  constructor
  · intro i c j mapped small front
    have size : (v.node d).size = 64 := by rw [node]
    obtain ⟨rfl, rfl⟩ := fresh_mapped node mapped
    have below := front.resolve_left (fun apart => apart mapped)
    rw [inum_freshDir contents small]
    split
    · exact valid
    · rwa [if_pos (by omega)]
  · intro i c j mapped small
    obtain ⟨rfl, rfl⟩ := fresh_mapped node mapped
    constructor
    · intro hit
      rcases (hit_freshDir contents small valid valid' dot_fileName).mp ⟨hit, rfl⟩ with
        ⟨first, _⟩ | ⟨_, other, _⟩
      · exact first
      · cases other
    · intro hit
      rcases (hit_freshDir contents small valid valid' dotDot_fileName).mp ⟨hit, rfl⟩ with
        ⟨_, other, _⟩ | ⟨second, _⟩
      · cases other
      · exact second

theorem fresh_bare : Bare v d := by
  intro i c j mapped small live
  obtain ⟨rfl, rfl⟩ := fresh_mapped node mapped
  rcases fresh_slot contents small valid valid' with ⟨hit, _⟩ | ⟨hit, _⟩ | unused
  · exact .inl hit
  · exact .inr hit
  · exact absurd unused live

end Fresh

section Steps
variable {request : Request} {reply : UInt32}

theorem Appends.used {de before : Bytes} {b : Nat} (appends : Appends g v d de v' b before)
    (slotted : Slotted v d) (aligned : 32 ∣ (v.node d).size)
    (valid : v'.entryInum b ((v.node d).size % 4096 / 32) ≠ minusOne)
    {i c j : Nat} (mapped : (v'.node d).direct i = some c) (small : j < 128)
    (front : (v'.node d).direct 0 ≠ some c ∨ 32 * j < (v'.node d).size) :
    v'.entryInum c j ≠ minusOne := by
  rcases appends.mapped mapped with rfl | ⟨old, other⟩
  · by_cases slot : j = (v.node d).size % 4096 / 32
    · rwa [slot]
    · have beside := fun {index} (bound : index < 32) => appends.entry_beside aligned slot bound
      rcases appends.source with ⟨here, rfl⟩ | ⟨_, _, _, zero⟩
      · have same : v'.entryInum c j = v.entryInum c j := entryInum_congr fun index => beside
        rw [same]
        refine slotted.used _ c j here small ?_
        by_cases first : (v.node d).size / 4096 = 0
        · -- the entry went into the first block, right behind the used slots
          rw [appends.node] at front
          rcases front with apart | below
          · rw [first] at apart
            exact absurd (Node.setPtr_same (v.node d) 0 c) apart
          · simp only at below
            exact .inr (by omega)
        · exact .inr (by omega)
      -- a blank slot counts as used: its number is that of the root
      · rw [inum_blank fun index bound => (beside bound).trans (zero _ (by omega))]
        decide
  · have same : v'.entryInum c j = v.entryInum c j := entryInum_congr fun index _ =>
      appends.entry_other old other j index
    rw [same]
    refine slotted.used i c j old small ?_
    -- a directory that has not outgrown its first block appends to that one
    by_cases first : (v.node d).size / 4096 = 0
    · left
      rcases appends.source with ⟨here, _⟩ | ⟨hole, _⟩
      · rw [first] at here
        rw [here]
        exact fun same => other (Option.some.inj same).symm
      · rw [first] at hole
        rw [hole]
        exact (Option.some_ne_none c).symm
    · exact .inr (by omega)

theorem removed_used {name : List UInt8} {i j : Nat} (slotted : Slotted v d) (sound : Sound g v)
    (bit : v.inodeBit d = true) (found : v.lookup d name = some (i, j)) {e c k : Nat}
    (mapped : ((v.removeEntry d ((v.node d).at' i) j).node d).direct e = some c) (small : k < 128)
    (front : ((v.removeEntry d ((v.node d).at' i) j).node d).direct 0 ≠ some c ∨
      32 * k < ((v.removeEntry d ((v.node d).at' i) j).node d).size) :
    (v.removeEntry d ((v.node d).at' i) j).entryInum c k ≠ minusOne := by
  obtain ⟨dir, inside, _, _⟩ := lookup_found found
  have place := (sound.node d bit).scanned dir inside
  have same : ¬ (c = (v.node d).at' i ∧ k = j) →
      (v.removeEntry d ((v.node d).at' i) j).entryInum c k = v.entryInum c k :=
    fun other => entryInum_congr fun index bound => removeEntry_entry other bound
  -- the block of the removed entry becomes the first one, cut off at the entry
  simp only [Vol.removeEntry, Vol.setNode, Function.update_self, Node.setPtr_same] at front
  by_cases here : c = (v.node d).at' i
  · have below : 32 * k < min (32 * j) (v.node d).size :=
      front.resolve_left (fun apart => apart (by rw [here]))
    rw [same (by omega), here]
    exact slotted.used i _ k place small (.inr (by omega))
  · rw [same (fun both => here both.1)]
    rcases removeEntry_mapped mapped with ⟨_, block⟩ | ⟨_, old⟩
    · exact absurd block here
    · refine slotted.used e c k old small ?_
      by_cases first : i = 0
      · rw [first] at place here
        rw [place]
        exact .inl fun same => here (Option.some.inj same).symm
      · simp only [Node.blocksUsed] at inside
        exact .inr (by omega)

section
variable (slotted : v.inodeBit d = true → Slotted v d) (moved : DirStep g v request reply v' d)
  (sound : Sound g v) (sound' : Sound g v')
include slotted moved sound sound'

theorem Slotted.used_step
    (bit' : v'.inodeBit d = true) (bit : v.inodeBit (inode request).toNat = true)
    (dir : v.inodeBit d = true → (v.node d).type = ufsDirectory) (user : NamesUser request)
    {i b j : Nat} (mapped : (v'.node d).direct i = some b) (small : j < 128)
    (front : (v'.node d).direct 0 ≠ some b ∨ 32 * j < (v'.node d).size) :
    v'.entryInum b j ≠ minusOne := by
  have layout := g.layout
  cases moved with
  | kept old apart _ =>
    rw [apart.node] at mapped front
    rw [(Apart.slot apart mapped j).1]
    exact (slotted old).used i b j mapped small front
  | starved _ _ _ node =>
    rw [node] at mapped
    exact absurd mapped (by simp [Node.fresh])
  | made pinum name c junk asked done new taken node contents =>
    subst asked
    have inside := sound'.inodeBit_lt _ bit'
    exact (fresh_slotted node contents (ofNat_ne_minusOne (by omega))
      (valid_inode (sound.inodeBit_lt _ bit))).used i b j mapped small front
  | appended pinum type name c junk before asked done parent old absent taken appends =>
    subst asked
    have aligned := (sound.node d old).aligned (dir old)
    have inodes := sound'.highestInode_lt
    have new := newEntry_hit (fun index bound => appends.entry_new aligned rfl bound)
      user.toFileName (by omega)
    refine Appends.used appends (slotted old) aligned ?_ mapped small front
    rw [new.2]
    exact ofNat_ne_minusOne (by omega)
  | removed pinum name e k asked done parent old found result =>
    subst result
    exact removed_used (slotted old) sound old found mapped small front

theorem Slotted.dots_step (bit : v.inodeBit (inode request).toNat = true)
    (dir : v.inodeBit d = true → (v.node d).type = ufsDirectory) (user : NamesUser request)
    {i b j : Nat} (mapped : (v'.node d).direct i = some b) (small : j < 128) :
    (v'.hit dot b j = true → j = 0) ∧ (v'.hit dotDot b j = true → j = 1) := by
  have origin := fun {name} (named : FileName name) => hitStep
    (moved.slot sound dir mapped small) sound' sound bit user.namesFile small named
  constructor
  · intro hit
    cases origin dot_fileName hit with
    | same old e place before => exact ((slotted old).dots e b j place small).1 before
    | dots _ _ _ _ _ which =>
      rcases which with ⟨first, _⟩ | ⟨_, other, _⟩
      · exact first
      · cases other
    | entered _ _ asked =>
      subst asked
      exact absurd rfl user.notDot
  · intro hit
    cases origin dotDot_fileName hit with
    | same old e place before => exact ((slotted old).dots e b j place small).2 before
    | dots _ _ _ _ _ which =>
      rcases which with ⟨_, other, _⟩ | ⟨second, _⟩
      · cases other
      · exact second
    | entered _ _ asked =>
      subst asked
      exact absurd rfl user.notDotDot
end

structure Telling (g : Geometry) (v : Vol) (d : Nat) : Prop where
  sized : Starved g v d ∨ 64 ≤ (v.node d).size
  tells : (v.node d).size ≤ 64 → Bare v d

theorem Starved.telling (starved : Starved g v d) : Telling g v d := by
  refine ⟨.inl starved, fun _ i b j mapped => ?_⟩
  rw [starved.1] at mapped
  cases mapped

theorem Bare.absent (bare : Bare v d) (sound : Sound g v) (bit : v.inodeBit d = true)
    {name : List UInt8} (user : UserName name) : v.lookup d name = none := by
  by_contra present
  obtain ⟨⟨i, j⟩, found⟩ := Option.ne_none_iff_exists'.mp present
  obtain ⟨dir, inside, small, hit⟩ := lookup_found found
  have mapped := (sound.node d bit).scanned dir inside
  rcases bare i _ j mapped small (hit_live hit) with here | here
  · exact user.notDot (hit_unique user.plain dot_plain hit here)
  · exact user.notDotDot (hit_unique user.plain dotDot_plain hit here)

theorem removed_telling {name : List UInt8} {i j : Nat} (slotted : Slotted v d)
    (slotted' : Slotted (v.removeEntry d ((v.node d).at' i) j) d) (sound : Sound g v)
    (bit : v.inodeBit d = true) (found : v.lookup d name = some (i, j)) (big : 64 < (v.node d).size)
    (clears : j ≤ 2 → Bare (v.removeEntry d ((v.node d).at' i) j) d) :
    Telling g (v.removeEntry d ((v.node d).at' i) j) d := by
  obtain ⟨dir, inside, small, _⟩ := lookup_found found
  have size : ((v.removeEntry d ((v.node d).at' i) j).node d).size =
      min (32 * j) (v.node d).size := by
    simp [Vol.removeEntry, Vol.setNode]
  have first : ((v.removeEntry d ((v.node d).at' i) j).node d).direct 0 =
      some ((v.node d).at' i) := by
    simp [Vol.removeEntry, Vol.setNode]
  by_cases early : j ≤ 2
  · refine ⟨.inr ?_, fun _ => clears early⟩
    by_contra cut
    -- the removed slot is one of the first two, and the third one stays in use
    have other : j ≠ 2 := by omega
    have live := slotted.used i _ 2 ((sound.node d bit).scanned dir inside) (by decide)
      (.inr (by omega))
    rw [← entryInum_congr fun index bound => removeEntry_entry (fun both => other both.2.symm)
      bound] at live
    exact live (slotted'.third_of_bare (clears early) first)
  · exact ⟨.inr (by omega), fun cut => absurd cut (by omega)⟩

theorem Telling.step (telling : v.inodeBit d = true → Telling g v d)
    (slotted : v.inodeBit d = true → Slotted v d) (slotted' : Slotted v' d)
    (moved : DirStep g v request reply v' d) (sound : Sound g v) (sound' : Sound g v')
    (bit' : v'.inodeBit d = true) (bit : v.inodeBit (inode request).toNat = true)
    (low : v.inodeBit d = true → d ≤ v.highestInode) (more : v.hghstAllocDblk ≤ v'.hghstAllocDblk)
    (user : NamesUser request)
    (clears : ∀ pinum name i j, request = .unlink pinum name → d = pinum.toNat → reply = 0 →
      v.lookup d name = some (i, j) → j ≤ 2 → Bare v' d) : Telling g v' d := by
  have layout := g.layout
  have bound := sound'.hghstAllocDblk_lt
  have inside := sound'.inodeBit_lt _ bit'
  cases was : v.inodeBit d with
  | true =>
    rcases (telling was).sized with starved | sized
    · exact Starved.telling (starved.step moved sound' more (low was))
    cases moved with
    | kept old apart _ =>
      refine ⟨.inr (by rwa [apart.node]), fun small i b j mapped below live => ?_⟩
      rw [apart.node] at small mapped
      obtain ⟨inum, hits⟩ := Apart.slot apart mapped j
      rw [inum] at live
      rw [hits, hits]
      exact (telling was).tells small i b j mapped below live
    | starved new =>
      rw [was] at new
      cases new
    | made _ _ _ _ _ _ new =>
      have := low was
      omega
    | appended _ _ _ _ _ _ _ _ _ _ _ _ appends =>
      have size : (v'.node d).size = (v.node d).size + 32 := by rw [appends.node]
      exact ⟨.inr (by omega), fun small => absurd small (by omega)⟩
    | removed pinum name i j asked done parent old found result =>
      have big : 64 < (v.node d).size := by
        by_contra small
        subst asked
        rw [((telling was).tells (by omega)).absent sound was user] at found
        cases found
      have clear := clears pinum name i j asked parent done found
      subst result
      exact removed_telling (slotted was) slotted' sound was found big clear
  | false =>
    have changed : v.inodeBit d ≠ true := by simp [was]
    cases moved with
    | kept old => exact absurd old changed
    | starved _ _ full node => exact Starved.telling ⟨node, by omega⟩
    | made pinum _ _ _ asked _ _ _ node contents =>
      subst asked
      exact ⟨.inr (by rw [node]), fun _ => fresh_bare node contents
        (ofNat_ne_minusOne (by omega)) (valid_inode (sound.inodeBit_lt _ bit))⟩
    | appended _ _ _ _ _ _ _ _ _ old => exact absurd old changed
    | removed _ _ _ _ _ _ _ old => exact absurd old changed

end Steps

def UserRun (s : Serv) : Event → Prop
  | .request request junk => OneRun s (.request request junk) ∧ NamesUser request
  | .restart _ => False

def Refuses (s : Serv) (de : Bytes) (junk : Junk) : Prop :=
  (readInode s (wordAt de 28) (junk.call 1)).2.type = ufsDirectory ∧
    (readInode s (wordAt de 28) (junk.call 1)).2.size > 64

/-- The entry at `addr` is the only live one but `.` and `..` in the blocks that the
directory has after the unlink: `unlink_file` puts the block of the entry in the
place of the first one. -/
def LastEntry (s : Serv) (d addr : UInt32) : Prop :=
  ∀ i j, i < 30 → (inodeOf s d).ptr i ≠ minusOne →
    i ≠ 0 ∨ (inodeOf s d).ptr i = addr / 4096 → j < 128 →
    wordAt (slotBytes s ((inodeOf s d).ptr i).toNat j) 28 ≠ minusOne →
      addr.toNat = 4096 * ((inodeOf s d).ptr i).toNat + 32 * j ∨
        streq (slotBytes s ((inodeOf s d).ptr i).toNat j) 0 dot = true ∨
        streq (slotBytes s ((inodeOf s d).ptr i).toNat j) 0 dotDot = true

def ClearsLast (s : Serv) : Event → Prop
  | .request (.unlink pinum name) junk => ∀ de addr,
      lookupFile s pinum name (junk.call 0) = some (de, addr) → ¬ Refuses s de junk →
        (addr % 4096).toNat ≤ 64 → LastEntry s pinum addr
  | _ => True

section Clearing
variable {b j : Nat}

-- `LastEntry` on a volume
def Alone (v : Vol) (d b j : Nat) : Prop :=
  ∀ i c k, (v.node d).direct i = some c → i ≠ 0 ∨ c = b → k < 128 → v.entryInum c k ≠ minusOne →
    (c = b ∧ k = j) ∨ v.hit dot c k = true ∨ v.hit dotDot c k = true

theorem bare_removed_iff {i : Nat} (mapped : (v.node d).direct i = some b) :
    Bare (v.removeEntry d b j) d ↔ Alone v d b j := by
  have same : ∀ {c k}, ¬ (c = b ∧ k = j) → (v.removeEntry d b j).entryInum c k = v.entryInum c k ∧
        ((v.removeEntry d b j).hit dot c k = v.hit dot c k ∧
          (v.removeEntry d b j).hit dotDot c k = v.hit dotDot c k) := by
    intro c k other
    have bytes := fun index (bound : index < 32) =>
      @removeEntry_entry v d b c j k other index bound
    exact ⟨entryInum_congr bytes, hit_congr (by decide) bytes, hit_congr (by decide) bytes⟩
  constructor
  · intro bare e c k place stays small live
    by_cases here : c = b ∧ k = j
    · exact .inl here
    · right
      obtain ⟨inum, dots, dotDots⟩ := same here
      rw [← dots, ← dotDots]
      have kept : ∃ e', ((v.removeEntry d b j).node d).direct e' = some c := by
        simp only [Vol.removeEntry, Vol.setNode, Function.update_self]
        by_cases first : e = 0
        · exact ⟨0, by rw [stays.resolve_left fun later => later first]; simp⟩
        · exact ⟨e, by simpa [Node.setPtr_other first] using place⟩
      obtain ⟨e', place'⟩ := kept
      exact bare e' c k place' small (by rwa [inum])
  · intro alone e c k place small live
    have other : ¬ (c = b ∧ k = j) := by
      rintro ⟨rfl, rfl⟩
      exact live (removeEntry_inum v d c k)
    obtain ⟨inum, dots, dotDots⟩ := same other
    rw [inum] at live
    rw [dots, dotDots]
    rcases removeEntry_mapped place with ⟨_, rfl⟩ | ⟨later, old⟩
    · exact (alone i c k mapped (.inr rfl) small live).resolve_left other
    · exact (alone e c k old (.inl later) small live).resolve_left other

theorem lastEntry_iff (backed : Backed g s v) {d addr : UInt32}
    (bit : v.inodeBit d.toNat = true) (place : addr.toNat = 4096 * b + 32 * j) (below : j < 128) :
    LastEntry s d addr ↔ Alone v d.toNat b j := by
  have inside := backed.sound.inodeBit_lt _ bit
  have hits : ∀ {c k}, v.entryInum c k ≠ minusOne → ∀ name,
      (v.hit name c k = true ↔ streq (v.entry c k) 0 name = true) := by
    intro c k live name
    simp [Vol.hit, live]
  -- a mapped pointer, its block and its slots
  have slots : ∀ {i c k}, (v.node d.toNat).direct i = some c → k < 128 →
      v.entryInum c k ≠ minusOne →
      ((inodeOf s d).ptr i = addr / 4096 ↔ c = b) ∧
        ((addr.toNat = 4096 * ((inodeOf s d).ptr i).toNat + 32 * k ∨
          streq (slotBytes s ((inodeOf s d).ptr i).toNat k) 0 dot = true ∨
          streq (slotBytes s ((inodeOf s d).ptr i).toNat k) 0 dotDot = true) ↔
        ((c = b ∧ k = j) ∨ v.hit dot c k = true ∨ v.hit dotDot c k = true)) := by
    intro i c k mapped small live
    have number := inodeOf_ptr backed.sim d inside mapped
    obtain ⟨_, text⟩ := slot_eq backed.sim backed.sound bit mapped small
    have quotient : (addr / 4096).toNat = b := by
      rw [UInt32.toNat_div, place]
      simp only [UInt32.reduceToNat]
      omega
    have here : addr.toNat = 4096 * c + 32 * k ↔ c = b ∧ k = j := by omega
    rw [← UInt32.toNat_inj, quotient, text dot dot_fileName, text dotDot dotDot_fileName,
      hits live, hits live, number, here]
    exact ⟨Iff.rfl, Iff.rfl⟩
  constructor
  · intro last i c k mapped stays small live
    obtain ⟨block, found⟩ := slots mapped small live
    have pointer : (inodeOf s d).ptr i ≠ minusOne := by
      rw [ne_eq, inodeOf_hole backed.sim d inside, mapped]
      exact Option.some_ne_none c
    obtain ⟨inum, _⟩ := slot_eq backed.sim backed.sound bit mapped small
    exact found.mp (last i k ((backed.sound.node _ bit).pointer i c mapped).1 pointer
      (stays.imp_right block.mpr) small (inum ▸ live))
  · intro alone i k _ pointer stays small live
    rw [ne_eq, inodeOf_hole backed.sim d inside] at pointer
    obtain ⟨c, mapped⟩ := Option.ne_none_iff_exists'.mp pointer
    obtain ⟨inum, _⟩ := slot_eq backed.sim backed.sound bit mapped small
    rw [inum] at live
    obtain ⟨block, found⟩ := slots mapped small live
    exact found.mpr (alone i c k mapped (stays.imp_right block.mp) small live)

end Clearing

def SizeTells (s : Serv) (d : UInt32) : Prop := (inodeOf s d).size.toNat ≤ 64 → EmptyDir s d

def SizesTell (s : Serv) : Prop :=
  ∀ d, Allocated s d → (inodeOf s d).type = ufsDirectory → SizeTells s d

def RightVerdict (s : Serv) (p : UInt32) (x : List UInt8) (d : UInt32) (junk : Junk) : Prop :=
  (replyCode s (.unlink p x) junk = 0 ↔ EmptyDir s d) ∧
    (¬ EmptyDir s d → replyCode s (.unlink p x) junk = minusOne)

structure SizeState (g : Geometry) (s : Serv) (v : Vol) : Prop where
  backed : Backed g s v
  synced : Synced v
  slotted : ∀ d, v.inodeBit d = true → (v.node d).type = ufsDirectory → Slotted v d

structure TellState (g : Geometry) (s : Serv) (v : Vol) : Prop extends SizeState g s v where
  telling : ∀ d, v.inodeBit d = true → (v.node d).type = ufsDirectory → Telling g v d

section Runs

theorem Started.tellState (started : Started g s) : ∃ v, TellState g s v := by
  obtain ⟨v, backed, initial⟩ := Started.backed started
  obtain ⟨junk, contents⟩ := initial.entries
  have root : ∀ d, v.inodeBit d = true → d = 0 := by simp [initial.inodeBit]
  refine ⟨v, ⟨backed, Initial.synced initial, ?_⟩, ?_⟩
  · intro d bit _
    cases root d bit
    exact fresh_slotted (Initial.node initial) contents (by decide) (by decide)
  · intro d bit _
    cases root d bit
    exact ⟨.inr (by rw [initial.root]), fun _ =>
      fresh_bare (Initial.node initial) contents (by decide) (by decide)⟩

/-- An unlink that is not refused clears the last entry iff it leaves the directory
empty. -/
theorem clearsLast_iff (backed : Backed g s v) {pinum : UInt32} {name : List UInt8} {junk : Junk}
    {chance : Chance} (bit : v.inodeBit pinum.toNat = true) (short : name.length ≤ 28)
    (reply : replyCode s (.unlink pinum name) junk = (v.serve g (.unlink pinum name) chance).1) :
    ClearsLast s (.request (.unlink pinum name) junk) ↔
      ((v.serve g (.unlink pinum name) chance).1 = 0 → ∀ i j,
        v.lookup pinum.toNat name = some (i, j) → j ≤ 2 →
          Bare (v.serve g (.unlink pinum name) chance).2 pinum.toNat) := by
  have located := lookupFile_sim backed.sim backed.sound bit short (junk.call 0)
  rw [ClearsLast]
  cases found : v.lookup pinum.toNat name with
  | none =>
    rw [found] at located
    rw [located.of_none]
    exact iff_of_true (fun _ _ absent => by cases absent) (fun _ _ _ absent => by cases absent)
  | some slot =>
    obtain ⟨i, j⟩ := slot
    rw [found] at located
    obtain ⟨de, addr, result, place, _⟩ := located.of_some
    obtain ⟨dir, inside, small, _⟩ := lookup_found found
    have mapped := (backed.sound.node _ bit).scanned dir inside
    have early : (addr % 4096).toNat ≤ 64 ↔ j ≤ 2 := by
      rw [UInt32.toNat_mod, place]
      simp only [UInt32.reduceToNat]
      omega
    have done : (v.serve g (.unlink pinum name) chance).1 = 0 ↔ ¬ Refuses s de junk := by
      rw [← reply]
      constructor
      · intro zero refused
        have failed := Repetition.unlinkFile_refused fun de' addr' other => by
          cases result.symm.trans other
          exact refused
        simp only [replyCode, serve, failed, Serv.answer] at zero
        cases zero
      · intro allowed
        simp only [replyCode, serve, Repetition.unlinkFile_done result allowed, Serv.answer]
    have last := lastEntry_iff backed bit place small
    rw [← bare_removed_iff mapped] at last
    constructor
    · rintro clears zero i' j' ⟨⟩ low
      obtain ⟨_, _, again, removed⟩ := unlink_done zero
      cases found.symm.trans again
      rw [removed]
      exact last.mp (clears de addr result (done.mp zero) (early.mpr low))
    · rintro clears de' addr' other allowed low
      cases result.symm.trans other
      have zero := done.mpr allowed
      obtain ⟨_, _, again, removed⟩ := unlink_done zero
      cases found.symm.trans again
      refine last.mpr ?_
      rw [← removed]
      exact clears zero i j rfl (early.mp low)

theorem SizeState.slotted_serve (state : SizeState g s v) {request : Request} {chance : Chance}
    (proper : Proper s request) (user : NamesUser request)
    (sound' : Sound g (v.serve g request chance).2)
    (d : Nat) (bit' : (v.serve g request chance).2.inodeBit d = true)
    (dir' : ((v.serve g request chance).2.node d).type = ufsDirectory) :
    Slotted (v.serve g request chance).2 d := by
  obtain ⟨backed, synced, slotted⟩ := state
  have admissible := proper.admissible backed.sim backed.sound
  have moved := serve_dirStep backed.sound backed.tidy (fun _ => synced) admissible chance bit' dir'
  have dir := serve_wasDir backed.sound backed.tidy (fun _ => synced) admissible chance dir'
  have before := fun old => slotted d old (dir old)
  constructor
  · intro i b j
    exact Slotted.used_step before moved backed.sound sound' bit' admissible.allocated dir user
  · intro i b j
    exact Slotted.dots_step before moved backed.sound sound' admissible.allocated dir user

theorem SizeState.step (state : SizeState g s v) {event : Event} (taken : UserRun s event) :
    ∃ v', SizeState g (ServerRuns.step s event) v' := by
  cases event with
  | restart junk => exact absurd taken id
  | request request junk =>
    obtain ⟨chance, _, backed', _, respects⟩ := state.backed.serve taken.1
      (fun _ => state.synced) junk
    exact ⟨_, backed', respects.synced state.synced,
      state.slotted_serve taken.1 taken.2 backed'.sound⟩

theorem TellState.step (state : TellState g s v) {event : Event} (taken : UserRun s event)
    (clears : ClearsLast s event) : ∃ v', TellState g (ServerRuns.step s event) v' := by
  cases event with
  | restart junk => exact absurd taken id
  | request request junk =>
    have slotted' := fun {chance} =>
      @SizeState.slotted_serve g s v state.toSizeState request chance taken.1 taken.2
    obtain ⟨⟨backed, synced, slotted⟩, telling⟩ := state
    obtain ⟨proper, user⟩ := taken
    have admissible := Proper.admissible proper backed.sim backed.sound
    obtain ⟨chance, reply, backed', _, respects⟩ := backed.serve proper (fun _ => synced) junk
    have more := serve_counter_le backed.sound backed.tidy admissible chance
    refine ⟨_, ⟨backed', respects.synced synced, slotted' backed'.sound⟩, fun d bit' dir' => ?_⟩
    have moved := serve_dirStep backed.sound backed.tidy (fun _ => synced) admissible chance bit'
      dir'
    have dir := serve_wasDir backed.sound backed.tidy (fun _ => synced) admissible chance dir'
    refine Telling.step (fun old => telling d old (dir old)) (fun old => slotted d old (dir old))
      (slotted' backed'.sound d bit' dir') moved backed.sound backed'.sound bit'
      admissible.allocated (synced.inodes d) more user ?_
    rintro pinum name i j rfl rfl done found early
    exact (clearsLast_iff backed admissible.allocated admissible.short reply).mp clears done i j
      found early

theorem TellState.sizesTell (state : TellState g s v) : SizesTell s := by
  obtain ⟨⟨backed, _, _⟩, telling⟩ := state
  intro d allocated dir small
  have bit := (allocated_iff backed.sim backed.sound d).mp allocated
  have inside := backed.sound.inodeBit_lt _ bit
  rw [inodeOf_type backed.sim d inside] at dir
  rw [inodeOf_size backed.sim d inside] at small
  exact (emptyDir_iff backed bit).mpr ((telling _ bit dir).tells small)

/-- After an unlink of an early slot the size is small, so the directory must
be empty if the size is to tell it. -/
theorem TellState.clearsLast (state : TellState g s v) {event : Event} (taken : UserRun s event)
    (tell : SizesTell (ServerRuns.step s event)) : ClearsLast s event := by
  cases event with
  | restart junk => trivial
  | request request junk =>
    cases request with
    | unlink pinum name =>
      obtain ⟨⟨backed, synced, _⟩, _⟩ := state
      have admissible := Proper.admissible taken.1 backed.sim backed.sound
      have bit : v.inodeBit pinum.toNat = true := admissible.allocated
      obtain ⟨chance, reply, backed', _, respects⟩ := backed.serve taken.1 (fun _ => synced) junk
      have bit' := respects.inodeBit _ bit
      have inside := backed.sound.inodeBit_lt _ bit
      have short : name.length ≤ 28 := admissible.short
      refine (clearsLast_iff backed bit short reply).mpr fun done i j found early => ?_
      obtain ⟨i', j', found', result⟩ := unlink_done done
      cases found.symm.trans found'
      refine (emptyDir_iff backed' bit').mp (tell pinum ?_ ?_ ?_)
      · exact (allocated_iff backed'.sim backed'.sound pinum).mpr bit'
      · rw [ServerRuns.step, inodeOf_type backed'.sim pinum inside, result]
        simpa [Vol.removeEntry, Vol.setNode] using (lookup_found found).1
      · rw [ServerRuns.step, inodeOf_size backed'.sim pinum inside, result]
        simp only [Vol.removeEntry, Vol.setNode, Function.update_self]
        omega
    | _ => trivial

/-- What an unlink of a directory answers depends on its size alone. -/
theorem unlink_reply (backed : Backed g s v) (synced : Synced v) {p d : UInt32} {x : List UInt8}
    {junk' : Junk} (allocated : Allocated s p) (named : FileName x)
    (leads : resolve s p x junk' = some d) (there : Allocated s d)
    (dir : (inodeOf s d).type = ufsDirectory) (junk : Junk) :
    replyCode s (.unlink p x) junk = if (inodeOf s d).size.toNat ≤ 64 then 0 else minusOne := by
  have bit := (allocated_iff backed.sim backed.sound p).mp allocated
  have bit' := (allocated_iff backed.sim backed.sound d).mp there
  have inside := backed.sound.inodeBit_lt _ bit'
  have short := le_trans named.short (show 27 ≤ 28 by decide)
  rw [inodeOf_type backed.sim d inside] at dir
  rw [resolve_eq backed bit short] at leads
  obtain ⟨chance, reply, _, decides, _⟩ := backed.serve
    (show Proper s (.unlink p x) from ⟨allocated, Nat.zero_le _, short⟩) (fun _ => synced) junk
  have refuse := decides p x d rfl leads bit'
  obtain ⟨⟨i, j⟩, found, _⟩ := Option.map_eq_some_iff.mp leads
  rw [reply, inodeOf_size backed.sim d inside]
  simp only [dir, true_and] at refuse
  by_cases small : (v.node d.toNat).size ≤ 64
  · rw [decide_eq_false (by omega)] at refuse
    simp [Vol.serve, Vol.unlinkFile, found, refuse, small, Vol.code]
  · rw [decide_eq_true (by omega)] at refuse
    simp [Vol.serve, Vol.unlinkFile, found, refuse, small, Vol.code]

theorem SizeState.verdict (state : SizeState g s v) {p d : UInt32} {x : List UInt8}
    {junk' : Junk} (allocated : Allocated s p) (named : FileName x)
    (leads : resolve s p x junk' = some d) (there : Allocated s d)
    (dir : (inodeOf s d).type = ufsDirectory) (junk : Junk) :
    RightVerdict s p x d junk ↔ SizeTells s d := by
  obtain ⟨backed, synced, slotted⟩ := state
  have reply := unlink_reply backed synced allocated named leads there dir junk
  have bit := (allocated_iff backed.sim backed.sound d).mp there
  have inside := backed.sound.inodeBit_lt _ bit
  have small : EmptyDir s d → (inodeOf s d).size.toNat ≤ 64 := by
    intro empty
    rw [inodeOf_type backed.sim d inside] at dir
    rw [inodeOf_size backed.sim d inside]
    exact (slotted _ bit dir).size_of_bare backed.sound bit dir ((emptyDir_iff backed bit).mp empty)
  rw [RightVerdict, SizeTells, reply]
  by_cases fits : (inodeOf s d).size.toNat ≤ 64
  · rw [if_pos fits]
    constructor
    · intro right _
      exact right.1.mp rfl
    · intro tells
      exact ⟨iff_of_true rfl (tells fits), fun live => absurd (tells fits) live⟩
  · rw [if_neg fits]
    exact iff_of_true ⟨iff_of_false (by decide) fun empty => fits (small empty), fun _ => rfl⟩
      fun low => absurd low fits

end Runs

/-- Sizes tell which directories are empty in every state of a session iff every
unlink of an early slot removes the last entry. In any state, `unlink_file` is
right about a directory iff its size tells. -/
theorem unlink_removes_empty_directories_iff (g : Geometry) (s : Serv) (started : Started g s)
    (events : List Event) (all : Allowed step UserRun s events) :
    ((∀ front, front <+: events → SizesTell (run step s front)) ↔
      Allowed step ClearsLast s events) ∧
    ∀ p x d junk junk', Allocated (run step s events) p → FileName x →
      resolve (run step s events) p x junk' = some d → Allocated (run step s events) d →
      (inodeOf (run step s events) d).type = ufsDirectory →
        (RightVerdict (run step s events) p x d junk ↔ SizeTells (run step s events) d) := by
  constructor
  · refine always_iff (fun state => ∃ v, TellState g state v) SizesTell ?_ ?_ ?_
      (Started.tellState started) all
    · rintro state ⟨v, holds⟩
      exact holds.sizesTell
    · rintro state event ⟨v, holds⟩ taken clears
      exact holds.step taken clears
    · rintro state event ⟨v, holds⟩ taken tell
      exact holds.clearsLast taken tell
  · intro p x d junk junk' allocated named leads there dir
    obtain ⟨v, holds⟩ := Started.tellState started
    obtain ⟨v', state⟩ := invariant (fun state => ∃ v, SizeState g state v) ⟨v, holds.toSizeState⟩
      (fun state event ⟨v, holds⟩ taken => holds.step taken) all
    exact state.verdict allocated named leads there dir junk

section FirstDirectory
variable {size highest counter : Nat} {slots : List (Nat × List UInt8 × UInt32)}

theorem leads_to_first (filling : Filling smallest s 1 (smallest.dataRegionAddr + 1) size highest
      counter slots v)
    (root : OneBlock v 0 smallest.dataRegionAddr 96 [(2, [98], 1), (0, dot, 0), (1, dotDot, 0)]) :
    Allocated s 0 ∧ Allocated s 1 ∧ (inodeOf s 1).type = ufsDirectory ∧
      resolve s 0 [98] noJunk = some 1 := by
  have bit : v.inodeBit (0 : UInt32).toNat = true := filling.bit 0 (Nat.zero_le _)
  obtain ⟨_, _, answer⟩ := root.present filling.backed.sound bit letterB_fileName (.head _)
    (by decide) (by simp [dot, dotDot])
  refine ⟨(allocated_iff filling.backed.sim filling.backed.sound 0).mpr bit, filling.allocated, ?_,
    (resolve_eq filling.backed bit (by decide) noJunk).trans answer⟩
  rw [inodeOf_type filling.backed.sim 1 (by decide)]
  exact filling.block.dir

end FirstDirectory

/-- A new directory is rightly taken for empty. -/
theorem first_directory_is_judged_right : ∃ s, Started smallest s ∧
    RightVerdict (run step s [mkdirB]) 0 [98] 1 noJunk := by
  obtain ⟨s, started⟩ := started_exists smallest
  obtain ⟨proper, _, _, v, filling, root⟩ := Started.mkdirB started
  obtain ⟨parent, allocated, dir, leads⟩ := leads_to_first filling root
  obtain ⟨sizes, verdicts⟩ := unlink_removes_empty_directories_iff smallest s started [mkdirB]
    ⟨⟨proper, letter_userName 98 (by decide) (by decide)⟩, trivial⟩
  have tell := sizes.mpr ⟨trivial, trivial⟩ [mkdirB] (List.prefix_refl _)
  exact ⟨s, started, (verdicts 0 [98] 1 noJunk noJunk parent letterB_fileName leads allocated
    dir).mpr (tell 1 allocated dir)⟩

def cutRun : List Event :=
  [mkdirB, .request (.creat 1 ufsRegularFile [97]) noJunk,
    .request (.creat 1 ufsRegularFile [99]) noJunk, .request (.unlink 1 [97]) noJunk]

/-- Then `b` can be unlinked, with `c` in it. -/
theorem unlink_removes_a_directory_with_a_file : ∃ s, Started smallest s ∧
    Allowed step UserRun s cutRun ∧ resolve (run step s cutRun) 0 [98] noJunk = some 1 ∧
      resolve (run step s cutRun) 1 [99] noJunk = some 3 ∧ ¬ EmptyDir (run step s cutRun) 1 ∧
      replyCode (run step s cutRun) (.unlink 0 [98]) noJunk = 0 := by
  obtain ⟨s, started⟩ := started_exists smallest
  have letterA := letter_userName 97 (by decide) (by decide)
  have letterC := letter_userName 99 (by decide) (by decide)
  obtain ⟨proper, _, _, v1, filling1, root1⟩ := Started.mkdirB started
  obtain ⟨_, v2, _, respects2, _, filling2⟩ := filling1.creat letterA.toFileName (by simp [dot, dotDot])
    (by decide) (by decide) noJunk
  obtain ⟨_, v3, _, respects3, _, filling3⟩ := filling2.creat letterC.toFileName (by simp [dot, dotDot])
    (by decide) (by decide) noJunk
  obtain ⟨_, v4, respects4, _, filling4⟩ := filling3.unlink letterA.toFileName
    (.tail _ (.head _)) (by decide) (by simp [dot, dotDot]) (by decide) (by decide) noJunk
  have root2 := root1.apart (respects2.apart 0 (by decide) (filling1.bit 0 (Nat.zero_le _)))
  have root3 := root2.apart (respects3.apart 0 (by decide) (filling2.bit 0 (Nat.zero_le _)))
  have root4 := root3.apart (respects4.apart 0 (by decide) (filling3.bit 0 (Nat.zero_le _)))
  have last : run step s cutRun = serve (serve (serve (run step s [mkdirB])
      (.creat 1 ufsRegularFile [97]) noJunk) (.creat 1 ufsRegularFile [99]) noJunk)
        (.unlink 1 [97]) noJunk := by
    simp only [cutRun, run_cons, run_nil, step]
  rw [← last] at filling4
  obtain ⟨parent, allocated, dir, leads⟩ := leads_to_first filling4 root4
  have bit : v4.inodeBit (1 : UInt32).toNat = true := filling4.bit _ filling4.low
  obtain ⟨_, found, answer⟩ := filling4.block.present filling4.backed.sound bit letterC.toFileName
    (List.mem_filter.mpr ⟨.head _, by decide⟩) (by decide) (by simp [dot, dotDot])
  refine ⟨s, started, ?_, leads, (resolve_eq filling4.backed bit (by decide) noJunk).trans answer,
    ?_, ?_⟩
  · exact ⟨⟨proper, letter_userName 98 (by decide) (by decide)⟩,
      ⟨filling1.proper_creat _ letterA.toFileName, letterA⟩,
      ⟨filling2.proper_creat _ letterC.toFileName, letterC⟩,
      ⟨filling3.proper_unlink letterA.toFileName, letterA⟩, trivial⟩
  · rw [emptyDir_iff filling4.backed bit]
    intro bare
    rw [bare.absent filling4.backed.sound bit letterC] at found
    cases found
  · have size : (inodeOf (run step s cutRun) 1).size.toNat = 64 := by
      rw [inodeOf_size filling4.backed.sim 1 (by decide), filling4.block.node]
      rfl
    refine (unlink_reply filling4.backed filling4.synced parent letterB_fileName leads allocated
      dir noJunk).trans (if_pos (le_of_eq size))

end OsProjects.EmptyDirectories
