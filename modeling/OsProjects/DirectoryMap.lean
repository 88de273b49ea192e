import OsProjects.FirstFiles

/-!
A directory as a finite map from names to inode numbers. `Mapped` ties the slots
of all directories to such a map. A `Creat` that has room for its entry, in a
slot nobody uses, adds one name to it, and an `Unlink` in a directory of one
block removes one; under these conditions a whole run does what the map says.
Without them entries are lost.
-/

namespace OsProjects.DirectoryMap

open ByteStore UfsLayout FileServer Volume VolumeSound VolumeRefinement MkfsImage Runs ServerRuns
  DirectoryBlocks BlockOwnership DirectorySlots FirstFiles

structure UserName (name : List UInt8) : Prop extends FileName name where
  notDot : name ≠ dot
  notDotDot : name ≠ dotDot

abbrev Names := Nat → List UInt8 → Option UInt32

def assign (names : Names) (p : Nat) (name : List UInt8) (inum : Option UInt32) : Names :=
  fun q other => if q = p ∧ other = name then inum else names q other

structure DirOk (v : Vol) (p : Nat) : Prop where
  size : 64 ≤ (v.node p).size
  used : ∀ i, (v.node p).direct i ≠ none → i < (v.node p).blocksUsed
  first : ∃ inum, Carries v p 0 dot inum
  second : ∃ inum, Carries v p 1 dotDot inum
  once : ∀ name k k' inum inum', FileName name → Carries v p k name inum →
    Carries v p k' name inum' → k = k'

structure Mapped (v : Vol) (names : Names) : Prop where
  dirs : ∀ p, v.inodeBit p = true → (v.node p).type = ufsDirectory → DirOk v p
  holds : ∀ p name inum, v.inodeBit p = true → (v.node p).type = ufsDirectory → UserName name →
    (names p name = some inum ↔ ∃ k, Carries v p k name inum)
  fresh : ∀ p name, v.inodeBit p = false → names p name = none

variable {g : Geometry} {v v' : Vol} {names : Names} {p : Nat} {name : List UInt8}

theorem DirOk.scanned (ok : DirOk v p) {k : Nat} {inum : UInt32} (carries : Carries v p k name inum) :
    k < 128 * (v.node p).blocksUsed := by
  obtain ⟨b, mapped, _⟩ := carries
  have := ok.used (k / 128) (by rw [mapped]; exact Option.some_ne_none b)
  omega

theorem DirOk.behind (ok : DirOk v p) (named : UserName name) {k : Nat} {inum : UInt32}
    (carries : Carries v p k name inum) : 2 ≤ k := by
  obtain ⟨self, first⟩ := ok.first
  obtain ⟨parent, second⟩ := ok.second
  by_contra early
  have either : k = 0 ∨ k = 1 := by omega
  rcases either with rfl | rfl
  · exact named.notDot (Carries.unique named.plain dot_plain carries first).1
  · exact named.notDotDot (Carries.unique named.plain dotDot_plain carries second).1

/-- The conditions on a directory look at its inode and its blocks only. -/
theorem DirOk.apart (ok : DirOk v p) (apart : Apart p v v') : DirOk v' p := by
  have same : ∀ {name k inum}, FileName name →
      (Carries v' p k name inum ↔ Carries v p k name inum) :=
    fun named => Apart.carries apart (le_trans named.short (by decide))
  refine {
    size := apart.node ▸ ok.size, used := apart.node ▸ ok.used, first := ?_, second := ?_
    once := ?_ }
  · obtain ⟨inum, carries⟩ := ok.first
    exact ⟨inum, (same dot_fileName).mpr carries⟩
  · obtain ⟨inum, carries⟩ := ok.second
    exact ⟨inum, (same dotDot_fileName).mpr carries⟩
  · intro name k k' inum inum' named here there
    exact ok.once name k k' inum inum' named ((same named).mp here) ((same named).mp there)

theorem Mapped.lookupInum (mapped : Mapped v names) (sound : Sound g v)
    (bit : v.inodeBit p = true) (dir : (v.node p).type = ufsDirectory) (named : UserName name) :
    v.lookupInum p name = names p name := by
  have ok := mapped.dirs p bit dir
  cases held : names p name with
  | some inum =>
    obtain ⟨k, carries⟩ := (mapped.holds p name inum bit dir named).mp held
    exact lookupInum_of_carries sound bit dir named.plain carries (ok.scanned carries)
      fun k' inum' other => ok.once name k' k inum' inum named.toFileName other carries
  | none =>
    have absent : v.lookup p name = none := by
      rw [lookup_none_iff sound bit dir]
      intro k inum _ carries
      have := (mapped.holds p name inum bit dir named).mpr ⟨k, carries⟩
      rw [held] at this
      cases this
    rw [Vol.lookupInum, absent]
    rfl

theorem dirOk_dots {self parent : UInt32} (size : (v.node p).size = 64)
    (single : ∀ i, i ≠ 0 → (v.node p).direct i = none)
    (slots : ∀ k other inum, FileName other → (Carries v p k other inum ↔
      k = 0 ∧ other = dot ∧ inum = self ∨ k = 1 ∧ other = dotDot ∧ inum = parent)) : DirOk v p := by
  refine ⟨size.ge, ?_, ⟨_, (slots 0 dot _ dot_fileName).mpr (Or.inl ⟨rfl, rfl, rfl⟩)⟩,
    ⟨_, (slots 1 dotDot _ dotDot_fileName).mpr (Or.inr ⟨rfl, rfl, rfl⟩)⟩, ?_⟩
  · intro i used
    by_cases start : i = 0
    · simp [start, Node.blocksUsed, size]
    · exact absurd (single i start) used
  · intro other k k' inum inum' asked here there
    rw [slots _ _ _ asked] at here there
    rcases here with ⟨first, rfl, _⟩ | ⟨second, rfl, _⟩
    · rcases there with ⟨first', _, _⟩ | ⟨_, impossible, _⟩
      · omega
      · exact absurd impossible (by decide)
    · rcases there with ⟨_, impossible, _⟩ | ⟨second', _, _⟩
      · exact absurd impossible (by decide)
      · omega

theorem Initial.mapped (initial : Initial g v) : Mapped v fun _ _ => none := by
  have root : ∀ p, v.inodeBit p = true → p = 0 := by
    intro p bit
    simpa [initial.inodeBit] using bit
  refine ⟨?_, ?_, fun _ _ _ => rfl⟩
  · intro p bit dir
    rw [root p bit]
    exact dirOk_dots (by rw [initial.root]) (fun i other => by simp [initial.root, other])
      fun k other inum asked => Initial.carries initial asked
  · intro p name inum bit dir named
    rw [root p bit]
    constructor
    · intro impossible
      cases impossible
    · rintro ⟨k, carries⟩
      rcases (Initial.carries initial named.toFileName).mp carries with ⟨_, same, _⟩ | ⟨_, same, _⟩
      · exact absurd same named.notDot
      · exact absurd same named.notDotDot

section Steps
variable {type : UInt32} {b : Nat}

def SlotUnused (v : Vol) (p : Nat) : Prop :=
  ∀ other inum, FileName other → ¬ Carries v p ((v.node p).size / 32) other inum

theorem Created.dirOk_parent (created : Created g v p type name v' b) (ok : DirOk v p)
    (absent : ∀ k inum, ¬ Carries v p k name inum) : DirOk v' p := by
  have size := ok.size
  constructor
  · rw [created.node]
    simp only
    omega
  · intro i used
    rw [created.node] at used ⊢
    by_cases new : i = (v.node p).size / 4096
    · simp only [Node.blocksUsed]
      omega
    · simp only [Node.setPtr_other new] at used
      have := ok.used i used
      simp only [Node.blocksUsed] at this ⊢
      omega
  · obtain ⟨inum, carries⟩ := ok.first
    exact ⟨inum, (created.carries 0 dot inum dot_fileName).mpr (Or.inr ⟨by omega, carries⟩)⟩
  · obtain ⟨inum, carries⟩ := ok.second
    exact ⟨inum, (created.carries 1 dotDot inum dotDot_fileName).mpr (Or.inr ⟨by omega, carries⟩)⟩
  · intro other k k' inum inum' asked here there
    rw [created.carries _ _ _ asked] at here there
    rcases here with ⟨at', same, _⟩ | ⟨_, old⟩
    · rcases there with ⟨at'', _, _⟩ | ⟨_, old⟩
      · omega
      · exact absurd (same ▸ old) (absent k' inum')
    · rcases there with ⟨_, same, _⟩ | ⟨_, old'⟩
      · exact absurd (same ▸ old) (absent k inum)
      · exact ok.once other k k' inum inum' asked old old'

theorem Created.dirOk_new (created : Created g v p ufsDirectory name v' b) :
    DirOk v' (v.highestInode + 1) := by
  obtain ⟨node, slots⟩ := created.dir rfl
  refine dirOk_dots (by rw [node]) (fun i other => ?_) slots
  rw [node]
  exact Node.setPtr_other other

/-- One name of one directory changes. Every other directory is left alone or is
new, and a new one has no names of users. -/
theorem Mapped.assigned (mapped : Mapped v names) (bit : v.inodeBit p = true)
    (dir : (v.node p).type = ufsDirectory) (respects : Respects g (fun m => m = p) v v')
    (ok : DirOk v' p) {value : Option UInt32}
    (own : ∀ inum, value = some inum ↔ ∃ k, Carries v' p k name inum)
    (rest : ∀ other inum, UserName other → other ≠ name →
      ((∃ k, Carries v' p k other inum) ↔ ∃ k, Carries v p k other inum))
    (new : ∀ q, v'.inodeBit q = true → v.inodeBit q = false → (v'.node q).type = ufsDirectory →
      DirOk v' q ∧ ∀ k other inum, UserName other → ¬ Carries v' q k other inum) :
    Mapped v' (assign names p name value) := by
  refine ⟨?_, ?_, ?_⟩
  · intro q bitQ dirQ
    by_cases same : q = p
    · exact same ▸ ok
    · by_cases old : v.inodeBit q = true
      · have apart := respects.apart q same old
        exact (mapped.dirs q old (apart.node ▸ dirQ)).apart apart
      · exact (new q bitQ (by simpa using old) dirQ).1
  · intro q other inum bitQ dirQ asked
    by_cases same : q = p
    · subst same
      by_cases equal : other = name
      · subst equal
        simp only [assign, and_self, ↓reduceIte]
        exact own inum
      · simp only [assign, equal, and_false, ↓reduceIte]
        rw [mapped.holds q other inum bit dir asked, rest other inum asked equal]
    · simp only [assign, same, false_and, ↓reduceIte]
      by_cases old : v.inodeBit q = true
      · have apart := respects.apart q same old
        rw [mapped.holds q other inum old (apart.node ▸ dirQ) asked]
        apply exists_congr
        intro k
        rw [Apart.carries apart (le_trans asked.short (by decide))]
      · rw [mapped.fresh q other (by simpa using old)]
        constructor
        · intro impossible
          cases impossible
        · rintro ⟨k, carries⟩
          exact absurd carries ((new q bitQ (by simpa using old) dirQ).2 k other inum asked)
  · intro q other clear
    have before : v.inodeBit q = false := by
      by_contra set
      rw [respects.inodeBit q (by simpa using set)] at clear
      cases clear
    have same : q ≠ p := by
      rintro rfl
      rw [bit] at before
      cases before
    simp only [assign, same, false_and, ↓reduceIte]
    exact mapped.fresh q other before

/-- A new name in an unused slot is one more name of the map. -/
theorem Mapped.creat (mapped : Mapped v names) (sound : Sound g v) (bit : v.inodeBit p = true)
    (dir : (v.node p).type = ufsDirectory) (named : UserName name)
    (absent : v.lookup p name = none) (unused : SlotUnused v p)
    (created : Created g v p type name v' b) (respects : Respects g (fun m => m = p) v v') :
    Mapped v' (assign names p name (some (UInt32.ofNat (v.highestInode + 1)))) := by
  have ok := mapped.dirs p bit dir
  have missing : ∀ k inum, ¬ Carries v p k name inum := fun k inum carries =>
    (lookup_none_iff sound bit dir).mp absent k inum (ok.scanned carries) carries
  refine mapped.assigned bit dir respects (Created.dirOk_parent created ok missing) ?_ ?_ ?_
  · intro inum
    rw [Option.some.injEq]
    constructor
    · rintro rfl
      exact ⟨_, (created.carries _ _ _ named.toFileName).mpr (Or.inl ⟨rfl, rfl, rfl⟩)⟩
    · rintro ⟨k, carries⟩
      rcases (created.carries _ _ _ named.toFileName).mp carries with ⟨_, _, rfl⟩ | ⟨_, old⟩
      · rfl
      · exact absurd old (missing k inum)
  · intro other inum asked different
    apply exists_congr
    intro k
    rw [created.carries k other inum asked.toFileName]
    constructor
    · rintro (⟨_, equal, _⟩ | ⟨_, carries⟩)
      · exact absurd equal different
      · exact carries
    · intro carries
      refine Or.inr ⟨?_, carries⟩
      rintro rfl
      exact unused other inum asked.toFileName carries
  · intro q bitQ clear dirQ
    rcases (created.inodeBit q).mp bitQ with old | rfl
    · rw [old] at clear
      cases clear
    · by_cases isDir : type = ufsDirectory
      · subst isDir
        refine ⟨Created.dirOk_new created, ?_⟩
        intro k other inum asked carries
        rcases ((created.dir rfl).2 k other inum asked.toFileName).mp carries with
          ⟨_, equal, _⟩ | ⟨_, equal, _⟩
        · exact absurd equal asked.notDot
        · exact absurd equal asked.notDotDot
      · rw [created.file isDir] at dirQ
        exact absurd dirQ isDir

/-- An unlink in a directory of one block takes its name out of the map. -/
theorem Mapped.unlink (mapped : Mapped v names) (sound : Sound g v) (single : AllSingle v)
    (bit : v.inodeBit p = true) (named : UserName name) {i j : Nat}
    (found : v.lookup p name = some (i, j)) (oneBlock : (v.node p).size ≤ 4096)
    (respects : Respects g (fun m => m = p) v (v.removeEntry p ((v.node p).at' i) j)) :
    Mapped (v.removeEntry p ((v.node p).at' i) j) (assign names p name none) := by
  obtain ⟨dir, inside, small, _⟩ := lookup_found found
  have ok := mapped.dirs p bit dir
  have size := ok.size
  have front : i = 0 := by
    simp only [Node.blocksUsed] at inside
    omega
  subst front
  have first : (v.node p).direct 0 = some ((v.node p).at' 0) :=
    (sound.node p bit).scanned dir inside
  have slots := fun k other inum => @removeEntry_carries g v p name other inum sound bit
    (single p bit) 0 j found first k
  rw [Nat.mul_zero, Nat.zero_add] at slots
  have here : Carries v p j name (v.entryInum ((v.node p).at' 0) j) := by
    simpa using (lookup_carries sound bit found).2
  have behind := ok.behind named here
  have node : (v.removeEntry p ((v.node p).at' 0) j).node p =
      { (v.node p) with size := min (32 * j) (v.node p).size } := by
    simp [Vol.removeEntry, Vol.setNode, Node.setPtr, ← first]
  have kept : DirOk (v.removeEntry p ((v.node p).at' 0) j) p := by
    constructor
    · rw [node]
      simp only
      omega
    · intro i used
      rw [node] at used ⊢
      have := ok.used i used
      simp only [Node.blocksUsed] at this ⊢
      omega
    · obtain ⟨inum, carries⟩ := ok.first
      exact ⟨inum, (slots 0 dot inum dot_fileName).mpr ⟨by omega, carries⟩⟩
    · obtain ⟨inum, carries⟩ := ok.second
      exact ⟨inum, (slots 1 dotDot inum dotDot_fileName).mpr ⟨by omega, carries⟩⟩
    · intro other k k' inum inum' asked this that
      exact ok.once other k k' inum inum' asked ((slots _ _ _ asked).mp this).2
        ((slots _ _ _ asked).mp that).2
  refine mapped.assigned bit dir respects kept ?_ ?_ ?_
  · intro inum
    constructor
    · intro impossible
      cases impossible
    · rintro ⟨k, carries⟩
      obtain ⟨apart, old⟩ := (slots _ _ _ named.toFileName).mp carries
      exact absurd (ok.once _ _ _ _ _ named.toFileName old here) apart
  · intro other inum asked different
    apply exists_congr
    intro k
    rw [slots _ _ _ asked.toFileName]
    constructor
    · exact fun both => both.2
    · intro carries
      refine ⟨?_, carries⟩
      rintro rfl
      exact different (Carries.unique asked.plain named.plain carries here).1
  · -- an unlink brings no inode
    intro q bitQ clear _
    exact absurd (bitQ.symm.trans clear) (by decide)
end Steps

section Runs
variable {s : Serv}

def MapRun (s : Serv) : Event → Prop
  | .request (.creat pinum type name) junk =>
    Allocated s pinum ∧ (inodeOf s pinum).type = ufsDirectory ∧ UserName name ∧
      replyCode s (.creat pinum type name) junk = 0
  | .request (.unlink pinum name) junk =>
    Allocated s pinum ∧ (inodeOf s pinum).type = ufsDirectory ∧ UserName name ∧
      replyCode s (.unlink pinum name) junk = 0
  | _ => False

def EntryFits (s : Serv) (pinum type : UInt32) : Prop :=
  (inodeOf s pinum).size.toNat / 4096 < 30 ∧
    ((inodeOf s pinum).ptr ((inodeOf s pinum).size.toNat / 4096) ≠ minusOne ∨
      s.hghstAllocDblk.toNat + ownBlocks type + 1 < s.super.dataRegionLen.toNat)

def EntryFree (s : Serv) (pinum : UInt32) : Prop :=
  let block := (inodeOf s pinum).ptr ((inodeOf s pinum).size.toNat / 4096)
  let addr := 4096 * block.toNat + (inodeOf s pinum).size.toNat % 4096
  block = minusOne ∨ wordAt s.image.bytes (addr + 28) = minusOne ∨ s.image.bytes addr = 0

def Careful (s : Serv) : Event → Prop
  | .request (.creat pinum type name) junk =>
    lookupFile s pinum name (junk.call 1) = none → EntryFits s pinum type ∧ EntryFree s pinum
  | .request (.unlink pinum _) _ => (inodeOf s pinum).size.toNat ≤ 4096
  | _ => True

def record (s : Serv) (names : Names) : Event → Names
  | .request (.creat pinum type name) junk =>
    if names pinum.toNat name = none then
      assign names pinum.toNat name (some (serve s (.creat pinum type name) junk).highestInode)
    else names
  | .request (.unlink pinum name) _ => assign names pinum.toNat name none
  | _ => names

def history (s : Serv) (names : Names) : List Event → Names
  | [] => names
  | event :: rest => history (step s event) (record s names event) rest

def Concerns (p : Nat) (name : List UInt8) : Event → Prop
  | .request (.creat pinum _ other) _ => p = pinum.toNat ∧ name = other
  | .request (.unlink pinum other) _ => p = pinum.toNat ∧ name = other
  | _ => False

def lastCreates (p : Nat) (name : List UInt8) (last : Bool) : List Event → Bool
  | [] => last
  | .request (.creat pinum _ other) _ :: rest =>
    lastCreates p name (if p = pinum.toNat ∧ name = other then true else last) rest
  | .request (.unlink pinum other) _ :: rest =>
    lastCreates p name (if p = pinum.toNat ∧ name = other then false else last) rest
  | _ :: rest => lastCreates p name last rest

structure MapState (g : Geometry) (s : Serv) (names : Names) (v : Vol) : Prop where
  backed : Backed g s v
  synced : Synced v
  single : AllSingle v
  mapped : Mapped v names

theorem EntryFree.slotUnused {pinum : UInt32} (free : EntryFree s pinum) (backed : Backed g s v)
    (bit : v.inodeBit pinum.toNat = true) (dir : (v.node pinum.toNat).type = ufsDirectory) :
    SlotUnused v pinum.toNat := by
  have layout := g.layout
  have inside := backed.sound.inodeBit_lt _ bit
  have ok := backed.sound.node _ bit
  have whole := ok.aligned dir
  rintro other inum asked ⟨b, mapped, hit, _⟩
  rw [show (v.node pinum.toNat).size / 32 / 128 = (v.node pinum.toNat).size / 4096 by omega]
    at mapped
  obtain ⟨_, k, bound, _, place⟩ := ok.pointer _ b mapped
  have bytes : ∀ index < 32, s.image.bytes (4096 * b + (v.node pinum.toNat).size % 4096 + index) =
      v.entry b ((v.node pinum.toNat).size / 32 % 128) index := by
    intro index small
    rw [Vol.entry, ← backed.sim.shows'.block b (by omega) (by omega) _ (by omega)]
    congr 1
    omega
  simp only [EntryFree, inodeOf_size backed.sim pinum inside,
    inodeOf_ptr backed.sim pinum inside mapped, inodeOf_hole backed.sim pinum inside, mapped] at free
  rcases free with impossible | dead | blank
  · cases impossible
  · have unused : v.entryInum b ((v.node pinum.toNat).size / 32 % 128) = minusOne := by
      rw [← dead]
      apply wordAt_congr
      intro index small
      rw [← bytes _ (by omega)]
      congr 1
      omega
    exact hit_live hit unused
  · have zero : v.entry b ((v.node pinum.toNat).size / 32 % 128) 0 = 0 := by
      rw [← bytes 0 (by omega)]
      exact blank
    simp [Vol.hit, streq_blank zero asked] at hit

/-- A `Creat` answered 0 that did not find its name took an inode, and a block
for a new directory. -/
theorem creat_took {type : UInt32} {chance : Chance} (sound : Sound g v)
    (dir : (v.node p).type = ufsDirectory) (absent : v.lookup p name = none)
    (answered : Vol.code (v.creatFile g p type name chance).1 = 0) :
    v.highestInode + 1 < g.numInodes ∧ v.hghstAllocDblk + ownBlocks type < g.numData := by
  have bound := sound.hghstAllocDblk_lt
  have outcome := creatFile_outcome sound p type name chance
  generalize v.creatFile g p type name chance = result at outcome answered
  obtain ⟨ok, v'⟩ := result
  simp only at outcome answered
  cases outcome with
  | notDir file => exact absurd dir file
  | present _ found => simp [absent] at found
  | noInode | noBlock => cases answered
  | file _ _ room isFile => exact ⟨room, by simp only [ownBlocks, isFile, ↓reduceIte]; omega⟩
  | dir _ _ room isDir block => exact ⟨room, by simp only [ownBlocks, isDir, ↓reduceIte]; omega⟩

theorem MapRun.request {event : Event} (taken : MapRun s event) :
    ∃ request junk, event = .request request junk ∧ Proper s request := by
  cases event with
  | restart junk => exact absurd taken id
  | request request junk =>
    refine ⟨request, junk, rfl, ?_⟩
    cases request with
    | creat pinum type name | unlink pinum name =>
      exact ⟨taken.1, Nat.zero_le _, le_trans taken.2.2.1.short (by decide)⟩
    | _ => exact absurd taken id

theorem MapState.creat (state : MapState g s names v) {pinum type : UInt32} {junk : Junk}
    (taken : MapRun s (.request (.creat pinum type name) junk))
    (careful : Careful s (.request (.creat pinum type name) junk)) :
    ∃ v', MapState g (serve s (.creat pinum type name) junk)
      (record s names (.request (.creat pinum type name) junk)) v' := by
  obtain ⟨backed, synced, single, mapped⟩ := state
  obtain ⟨allocated, dir, named, answered⟩ := taken
  have bit := (allocated_iff backed.sim backed.sound pinum).mp allocated
  have inside := backed.sound.inodeBit_lt _ bit
  have short : name.length ≤ 28 := le_trans named.short (by decide)
  have proper : Proper s (.creat pinum type name) := ⟨allocated, Nat.zero_le _, short⟩
  rw [inodeOf_type backed.sim pinum inside] at dir
  obtain ⟨chance, reply, backed', _, respects⟩ := backed.serve proper (fun _ => synced) junk
  have single' := serve_single backed.sound backed.tidy synced
    (proper.admissible backed.sim backed.sound) chance
    (fun _ _ _ _ impossible => by cases impossible) single
  have held := mapped.lookupInum backed.sound bit dir named
  cases found : v.lookup pinum.toNat name with
  | some slot =>
    -- the name is there: nothing happens
    have served : (v.serve g (.creat pinum type name) chance).2 = v := by
      simp [Vol.serve, Vol.creatFile, dir, found]
    rw [served] at backed'
    refine ⟨v, backed', synced, single, ?_⟩
    have known : names pinum.toNat name ≠ none := by
      rw [← held, Vol.lookupInum, found]
      exact Option.some_ne_none _
    simp only [record, known, ↓reduceIte]
    exact mapped
  | none =>
    have located := lookupFile_sim backed.sim backed.sound bit short (junk.call 1)
    rw [found] at located
    obtain ⟨⟨pointers, place⟩, free⟩ := careful located.of_none
    rw [inodeOf_size backed.sim pinum inside] at pointers place
    rw [ne_eq, inodeOf_hole backed.sim pinum inside, backed.sim.hghstAllocDblk, backed.sim.super,
      show g.super.dataRegionLen.toNat = g.numData from toNat_ofNat_lt (by
        have := g.layout
        omega)] at place
    rw [answered] at reply
    obtain ⟨room, blocks⟩ := creat_took backed.sound dir found reply.symm
    obtain ⟨v', b, result, created⟩ := creat_created backed.sound backed.tidy synced single bit
      dir named.toFileName found room blocks (by omega) place chance
    have served : (v.serve g (.creat pinum type name) chance).2 = v' := by
      simp [Vol.serve, result]
    rw [served] at backed' single' respects
    refine ⟨v', backed', respects.synced synced, single', ?_⟩
    have unknown : names pinum.toNat name = none := by
      rw [← held, Vol.lookupInum, found]
      rfl
    have number : (serve s (.creat pinum type name) junk).highestInode =
        UInt32.ofNat (v.highestInode + 1) := by
      have := g.layout
      rw [← UInt32.toNat_inj, backed'.sim.highestInode, created.highestInode,
        toNat_ofNat_lt (by omega)]
    simp only [record, unknown, ↓reduceIte, number]
    exact mapped.creat backed.sound bit dir named found (free.slotUnused backed bit dir)
      created respects

theorem MapState.unlink (state : MapState g s names v) {pinum : UInt32} {junk : Junk}
    (taken : MapRun s (.request (.unlink pinum name) junk))
    (careful : Careful s (.request (.unlink pinum name) junk)) :
    ∃ v', MapState g (serve s (.unlink pinum name) junk)
      (record s names (.request (.unlink pinum name) junk)) v' := by
  obtain ⟨backed, synced, single, mapped⟩ := state
  obtain ⟨allocated, _, named, answered⟩ := taken
  have bit := (allocated_iff backed.sim backed.sound pinum).mp allocated
  have inside := backed.sound.inodeBit_lt _ bit
  have proper : Proper s (.unlink pinum name) :=
    ⟨allocated, Nat.zero_le _, le_trans named.short (by decide)⟩
  have oneBlock : (v.node pinum.toNat).size ≤ 4096 := by
    rw [← inodeOf_size backed.sim pinum inside]
    exact careful
  obtain ⟨chance, reply, backed', _, respects⟩ := backed.serve proper (fun _ => synced) junk
  rw [answered] at reply
  cases found : v.lookup pinum.toNat name with
  | none =>
    simp only [Vol.serve, Vol.unlinkFile, found] at reply
    cases reply
  | some slot =>
    obtain ⟨i, j⟩ := slot
    have front : i = 0 := by
      have := (lookup_found found).2.1
      simp only [Node.blocksUsed] at this
      omega
    have first : (v.node pinum.toNat).direct 0 = some ((v.node pinum.toNat).at' i) := by
      obtain ⟨dir, scanned, _⟩ := lookup_found found
      rw [← (backed.sound.node _ bit).scanned dir scanned, front]
    cases refused : chance.refuse with
    | true =>
      simp only [Vol.serve, Vol.unlinkFile, found, refused, ↓reduceIte] at reply
      cases reply
    | false =>
      have served : (v.serve g (.unlink pinum name) chance).2 =
          v.removeEntry pinum.toNat ((v.node pinum.toNat).at' i) j := by
        simp [Vol.serve, Vol.unlinkFile, found, refused]
      rw [served] at backed' respects
      exact ⟨_, backed', respects.synced synced, removeEntry_single j bit first single,
        mapped.unlink backed.sound single bit named found oneBlock respects⟩

theorem MapState.step (state : MapState g s names v) {event : Event} (taken : MapRun s event)
    (careful : Careful s event) :
    ∃ v', MapState g (ServerRuns.step s event) (record s names event) v' := by
  cases event with
  | restart junk => exact absurd taken id
  | request request junk =>
    cases request with
    | creat pinum type name => exact state.creat taken careful
    | unlink pinum name => exact state.unlink taken careful
    | _ => exact absurd taken id

theorem MapState.run (state : MapState g s names v) {events : List Event}
    (all : Allowed ServerRuns.step (fun s event => MapRun s event ∧ Careful s event) s events) :
    ∃ v', MapState g (Runs.run ServerRuns.step s events) (history s names events) v' := by
  induction events generalizing s names v with
  | nil => exact ⟨v, state⟩
  | cons event rest ih =>
    obtain ⟨v', state'⟩ := state.step all.1.1 all.1.2
    exact ih state' all.2

theorem Started.mapState (started : Started g s) : ∃ v, MapState g s (fun _ _ => none) v := by
  obtain ⟨v, backed, initial⟩ := Started.backed started
  exact ⟨v, backed, Initial.synced initial, Initial.single initial, Initial.mapped initial⟩

theorem MapState.lookup (state : MapState g s names v) {pinum : UInt32}
    (allocated : Allocated s pinum) (dir : (inodeOf s pinum).type = ufsDirectory)
    (named : UserName name) (junk : Junk) :
    (lookupFile s pinum name junk).map (fun found => wordAt found.1 28) =
      names pinum.toNat name := by
  have bit := (allocated_iff state.backed.sim state.backed.sound pinum).mp allocated
  rw [inodeOf_type state.backed.sim pinum (state.backed.sound.inodeBit_lt _ bit)] at dir
  rw [← state.mapped.lookupInum state.backed.sound bit dir named]
  exact lookupFile_inum state.backed.sim state.backed.sound bit (le_trans named.short (by decide))
    junk

theorem history_isSome (names : Names) (events : List Event) (p : Nat) (name : List UInt8) :
    (history s names events p name).isSome = lastCreates p name (names p name).isSome events := by
  induction events generalizing s names with
  | nil => rfl
  | cons event rest ih =>
    rw [history, ih]
    cases event with
    | restart junk => rfl
    | request request junk =>
      cases request with
      | creat pinum type other =>
        rw [lastCreates]
        congr 1
        by_cases own : p = pinum.toNat ∧ name = other
        · obtain ⟨rfl, rfl⟩ := own
          cases held : names pinum.toNat name with
          | none => simp [record, held, assign]
          | some inum => simp [record, held]
        · simp only [record, own, ↓reduceIte]
          split
          · simp [assign, own]
          · rfl
      | unlink pinum other =>
        rw [lastCreates]
        congr 1
        by_cases own : p = pinum.toNat ∧ name = other
        · simp [record, assign, own]
        · simp [record, assign, own]
      | _ => rfl

/-- Requests on other names leave what a name is assigned to. -/
theorem record_other (names : Names) {event : Event} {p : Nat} (other : ¬ Concerns p name event) :
    record s names event p name = names p name := by
  cases event with
  | restart junk => rfl
  | request request junk =>
    cases request with
    | creat pinum type text =>
      simp only [Concerns] at other
      simp only [record]
      split
      · simp [assign, other]
      · rfl
    | unlink pinum text =>
      simp only [Concerns] at other
      simp [record, assign, other]
    | _ => rfl

/-- In a run of careful requests every directory is a finite map: a name is
found iff the last request on it was a `Creat`, with the inode of the first
`Creat` since the last `Unlink`, and a further request on another name does not
change what is found. -/
theorem directories_are_finite_maps (started : Started g s) {events : List Event}
    (all : Allowed step (fun s event => MapRun s event ∧ Careful s event) s events)
    {pinum : UInt32} (allocated : Allocated (run step s events) pinum)
    (dir : (inodeOf (run step s events) pinum).type = ufsDirectory) (named : UserName name)
    (junk : Junk) :
    (lookupFile (run step s events) pinum name junk).isSome =
        lastCreates pinum.toNat name false events ∧
      (lookupFile (run step s events) pinum name junk).map (fun found => wordAt found.1 28) =
        history s (fun _ _ => none) events pinum.toNat name ∧
      ∀ event, MapRun (run step s events) event → Careful (run step s events) event →
        ¬ Concerns pinum.toNat name event → ∀ junk',
          (lookupFile (step (run step s events) event) pinum name junk').map
              (fun found => wordAt found.1 28) =
            (lookupFile (run step s events) pinum name junk).map fun found => wordAt found.1 28 := by
  obtain ⟨v, start⟩ := Started.mapState started
  obtain ⟨v', state⟩ := start.run all
  have answer := state.lookup allocated dir named
  refine ⟨?_, answer junk, ?_⟩
  · rw [← Option.isSome_map, answer junk, history_isSome]
    rfl
  · intro event taken careful other junk'
    obtain ⟨v'', state'⟩ := state.step taken careful
    obtain ⟨request, junk'', rfl, proper⟩ := taken.request
    have kept := state.backed.keeps state.synced proper junk'' allocated
    rw [dir] at kept
    rw [state'.lookup kept.1 kept.2 named junk', record_other _ other, answer junk]
end Runs

section Losing
variable {s : Serv} {size highest : Nat} {slots : List (Nat × List UInt8 × UInt32)}

theorem letter_userName (letter : UInt8) (plain : letter ≠ 0) (other : letter ≠ 46) :
    UserName [letter] := by
  refine ⟨⟨by simp, by simp, ?_⟩, ?_, ?_⟩
  · simpa using plain.symm
  · simpa [dot] using other
  · simp [dotDot]

theorem Rooted.mapRun_creat (rooted : Rooted g s size highest slots v) (named : UserName name)
    (missing : ∀ k inum, (k, name, inum) ∉ slots) (room : highest + 1 < g.numInodes)
    (space : size < 4096) (junk : Junk) : MapRun s (.request (.creat 0 ufsRegularFile name) junk) :=
  ⟨rooted.allocated 0 (Nat.zero_le _), rooted.inodeOf_dir, named,
    (rooted.creat named.toFileName missing room space junk).1⟩

theorem Rooted.careful_creat (rooted : Rooted g s size highest slots v) (space : size < 4096)
    (whole : 32 ∣ size) (unused : ∀ name inum, (size / 32, name, inum) ∉ slots) (junk : Junk) :
    Careful s (.request (.creat 0 ufsRegularFile name) junk) := by
  have layout := g.layout
  have inside : (0 : UInt32).toNat < g.numInodes := by simp only [UInt32.toNat_zero]; omega
  have length : (inodeOf s 0).size.toNat = size := by
    rw [inodeOf_size rooted.backed.sim 0 inside, UInt32.toNat_zero, rooted.root]
  have mapped : (v.node (0 : UInt32).toNat).direct 0 = some g.dataRegionAddr := rooted.block.mapped
  have pointer := inodeOf_ptr rooted.backed.sim 0 inside mapped
  have zero : (inodeOf s 0).size.toNat / 4096 = 0 := by rw [length]; omega
  intro _
  refine ⟨⟨by omega, Or.inl ?_⟩, Or.inr (Or.inl ?_)⟩
  · rw [zero, ne_eq, inodeOf_hole rooted.backed.sim 0 inside, mapped]
    exact Option.some_ne_none _
  · have free : v.entryInum g.dataRegionAddr (size / 32) = minusOne := by
      by_contra live
      obtain ⟨other, inum, member⟩ := rooted.listed _ (by omega) live
      exact unused other inum member
    rw [zero, pointer, length, ← free]
    apply wordAt_congr
    intro index small
    rw [show 4096 * g.dataRegionAddr + size % 4096 + 28 + index =
      4096 * g.dataRegionAddr + (32 * (size / 32) + (28 + index)) by omega,
      rooted.backed.sim.shows'.block _ (le_refl _) (by omega) _ (by omega), Vol.entry]

def carefulRun : List Event :=
  [.request (.creat 0 ufsRegularFile [97]) noJunk, .request (.creat 0 ufsRegularFile [98]) noJunk,
    .request (.unlink 0 [97]) noJunk, .request (.creat 0 ufsRegularFile [99]) noJunk]

theorem Started.carefulRun (started : Started smallest s) :
    Allowed step (fun s event => MapRun s event ∧ Careful s event) s DirectoryMap.carefulRun ∧
      ∃ v, Rooted smallest (run step s DirectoryMap.carefulRun) 96 3
        [(2, [99], 3), (3, [98], 2), (0, dot, 0), (1, dotDot, 0)] v := by
  obtain ⟨v0, rooted0⟩ := Started.rooted started
  have namedA := letter_userName 97 (by decide) (by decide)
  have namedB := letter_userName 98 (by decide) (by decide)
  have namedC := letter_userName 99 (by decide) (by decide)
  have missingA : ∀ k inum, (k, [97], inum) ∉ [(0, dot, (0 : UInt32)), (1, dotDot, 0)] := by
    simp [dot, dotDot]
  obtain ⟨_, v1, rooted1⟩ := rooted0.creat namedA.toFileName missingA (by decide) (by decide) noJunk
  have missingB : ∀ k inum, (k, [98], inum) ∉
      [(2, [97], (1 : UInt32)), (0, dot, 0), (1, dotDot, 0)] := by
    simp [dot, dotDot]
  obtain ⟨_, v2, rooted2⟩ := rooted1.creat namedB.toFileName missingB (by decide) (by decide) noJunk
  have onceA : ∀ k inum, (k, [97], inum) ∈
      [(3, [98], (2 : UInt32)), (2, [97], 1), (0, dot, 0), (1, dotDot, 0)] → k = 2 := by
    simp [dot, dotDot]
  obtain ⟨reply, v3, rooted3⟩ := rooted2.unlink namedA.toFileName 2 1
    (by decide) (by decide) onceA (by decide) (by decide) noJunk
  have missingC : ∀ k inum, (k, [99], inum) ∉
      [(3, [98], (2 : UInt32)), (0, dot, 0), (1, dotDot, 0)] := by
    simp [dot, dotDot]
  obtain ⟨_, v4, rooted4⟩ := rooted3.creat namedC.toFileName missingC (by decide) (by decide) noJunk
  -- the slot at the size is unused before each `Creat`
  simp only [DirectoryMap.carefulRun, Allowed, run_cons, run_nil, step]
  refine ⟨⟨⟨?_, ?_⟩, ⟨?_, ?_⟩, ⟨?_, ?_⟩, ⟨?_, ?_⟩, trivial⟩, v4, rooted4⟩
  · exact Rooted.mapRun_creat rooted0 namedA missingA (by decide) (by decide) noJunk
  · exact Rooted.careful_creat rooted0 (by decide) (by decide) (by simp) noJunk
  · exact Rooted.mapRun_creat rooted1 namedB missingB (by decide) (by decide) noJunk
  · exact Rooted.careful_creat rooted1 (by decide) (by decide) (by simp) noJunk
  · exact ⟨rooted2.allocated 0 (Nat.zero_le _), rooted2.inodeOf_dir, namedA, reply⟩
  · change (inodeOf _ 0).size.toNat ≤ 4096
    rw [inodeOf_size rooted2.backed.sim 0 (by decide), UInt32.toNat_zero, rooted2.root]
    decide
  · exact Rooted.mapRun_creat rooted3 namedC missingC (by decide) (by decide) noJunk
  · exact Rooted.careful_creat rooted3 (by decide) (by decide) (by simp) noJunk

/-- After three `Creat`s and an `Unlink`, `a` is gone, `b` is there, and `c` is found
with its inode. -/
theorem created_name_is_found : ∃ s, Started smallest s ∧
    Allowed step (fun s event => MapRun s event ∧ Careful s event) s carefulRun ∧
      (lookupFile (run step s carefulRun) 0 [97] noJunk).isSome = false ∧
      (lookupFile (run step s carefulRun) 0 [98] noJunk).isSome = true ∧
      (lookupFile (run step s carefulRun) 0 [99] noJunk).map (fun found => wordAt found.1 28) =
        some 3 := by
  obtain ⟨s, started⟩ := started_exists smallest
  obtain ⟨all, v, rooted⟩ := Started.carefulRun started
  have maps := fun letter plain other => directories_are_finite_maps started all
    (rooted.allocated 0 (Nat.zero_le _)) rooted.inodeOf_dir (letter_userName letter plain other)
    noJunk
  refine ⟨s, started, all, (maps 97 (by decide) (by decide)).1, (maps 98 (by decide) (by decide)).1,
    (maps 99 (by decide) (by decide)).2.1.trans ?_⟩
  have number : (run step s carefulRun).highestInode = 3 := by
    rw [← UInt32.toNat_inj, rooted.backed.sim.highestInode, rooted.highestInode]
    rfl
  simp only [carefulRun, run_cons, run_nil, step] at number
  simp [carefulRun, history, record, assign, step, number]

def losingRun : List Event := carefulRun ++ [.request (.creat 0 ufsRegularFile [100]) noJunk]

/-- The entry of `b` is overwritten by that of `d`. -/
theorem unlink_then_creat_loses_a_name : ∃ s, Started smallest s ∧
    Allowed step MapRun s losingRun ∧ lastCreates 0 [98] false losingRun = true ∧
      lookupFile (run step s losingRun) 0 [98] noJunk = none := by
  obtain ⟨s, started⟩ := started_exists smallest
  obtain ⟨all, v, rooted⟩ := Started.carefulRun started
  have named := letter_userName 100 (by decide) (by decide)
  have missing : ∀ k inum, (k, [100], inum) ∉
      [(2, [99], (3 : UInt32)), (3, [98], 2), (0, dot, 0), (1, dotDot, 0)] := by
    simp [dot, dotDot]
  obtain ⟨_, v', rooted'⟩ := rooted.creat named.toFileName missing (by decide) (by decide) noJunk
  -- slot 3 now belongs to d
  have lost : ∀ k inum, (k, [98], inum) ∉
      [(3, [100], (4 : UInt32)), (2, [99], 3), (0, dot, 0), (1, dotDot, 0)] := by
    simp [dot, dotDot]
  have last := Rooted.mapRun_creat rooted named missing (by decide) (by decide) noJunk
  refine ⟨s, started, ?_, rfl, ?_⟩
  · rw [losingRun, allowed_append]
    exact ⟨allowed_mono (fun _ _ both => both.1) all, last, trivial⟩
  · rw [losingRun, run_append]
    exact rooted'.lookupFile_none (letter_userName 98 (by decide) (by decide)).toFileName lost noJunk
end Losing

end OsProjects.DirectoryMap
