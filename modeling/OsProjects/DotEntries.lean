import OsProjects.DirectoryMap
import OsProjects.DirectorySteps
import OsProjects.SharedBlocks

/-!
The entries `.` and `..` of a directory. They stand in the first two slots of
its first block, and a new entry never goes there as long as the size is not
lowered below them. `unlink_file` does not spare them: an unlink of `.` or `..`,
or one that finds its entry in another block and puts that block in front, takes
them away.
-/

namespace OsProjects.DotEntries

open ByteStore UfsLayout FileServer Volume VolumeSound MkfsImage Runs ServerRuns DirectoryBlocks
  BlockOwnership DirectorySlots DirectorySteps DirectoryMap FirstFiles SharedBlocks

variable {g : Geometry} {s : Serv} {v v' : Vol} {d : Nat} {own parent : UInt32}

structure Dotted (v : Vol) (d : Nat) (own parent : UInt32) : Prop where
  size : 64 ≤ (v.node d).size
  alone : ∀ i b, (v.node d).direct 0 = some b → (v.node d).direct i = some b → i = 0
  first : ∀ k inum, Carries v d k dot inum ↔ k = 0 ∧ inum = own
  second : ∀ k inum, Carries v d k dotDot inum ↔ k = 1 ∧ inum = parent

namespace Dotted

section
variable (dotted : Dotted v d own parent)
include dotted

theorem block : ∃ b, (v.node d).direct 0 = some b ∧ (v.hit dot b 0 = true ∧ v.entryInum b 0 = own) ∧
      v.hit dotDot b 1 = true ∧ v.entryInum b 1 = parent := by
  obtain ⟨b, mapped, hit, inum⟩ := (dotted.first 0 own).mpr ⟨rfl, rfl⟩
  obtain ⟨c, mapped', hit', inum'⟩ := (dotted.second 1 parent).mpr ⟨rfl, rfl⟩
  cases mapped.symm.trans mapped'
  exact ⟨b, mapped, ⟨hit, inum⟩, hit', inum'⟩

theorem hit_dot {i b j : Nat}
    (mapped : (v.node d).direct i = some b) (small : j < 128) (hit : v.hit dot b j = true) :
    i = 0 ∧ j = 0 := by
  have := ((dotted.first _ _).mp (carries_of_hit mapped small hit)).1
  omega

theorem hit_dotDot {i b j : Nat}
    (mapped : (v.node d).direct i = some b) (small : j < 128) (hit : v.hit dotDot b j = true) :
    i = 0 ∧ j = 1 := by
  have := ((dotted.second _ _).mp (carries_of_hit mapped small hit)).1
  omega

theorem apart (apart : Apart d v v') : Dotted v' d own parent := by
  refine ⟨by rw [apart.node]; exact dotted.size, by rw [apart.node]; exact dotted.alone, ?_, ?_⟩
  · intro k inum
    rw [Apart.carries apart (by decide)]
    exact dotted.first k inum
  · intro k inum
    rw [Apart.carries apart (by decide)]
    exact dotted.second k inum

/-- A step that keeps the two slots and writes the two names nowhere else. -/
theorem keeps (pointer : (v'.node d).direct 0 = (v.node d).direct 0) (size : 64 ≤ (v'.node d).size)
    (alone : ∀ i b, (v'.node d).direct 0 = some b → (v'.node d).direct i = some b → i = 0)
    (slots : ∀ b, (v.node d).direct 0 = some b → ∀ j < 2, ∀ index < 32,
      v'.entry b j index = v.entry b j index)
    (back : ∀ i b j name, name = dot ∨ name = dotDot → (v'.node d).direct i = some b → j < 128 →
      v'.hit name b j = true → ∃ i', (v.node d).direct i' = some b ∧ v.hit name b j = true) :
    Dotted v' d own parent := by
  obtain ⟨b, mapped, ⟨hit, inum⟩, hit', inum'⟩ := dotted.block
  have same0 := slots b mapped 0 (by decide)
  have same1 := slots b mapped 1 (by decide)
  -- a slot that answers did so before, and there it was the only one
  refine ⟨size, alone, fun k n => ⟨?_, ?_⟩, fun k n => ⟨?_, ?_⟩⟩
  · rintro ⟨c, here, answers, number⟩
    obtain ⟨i, old, answers'⟩ := back _ c _ dot (.inl rfl) here (Nat.mod_lt _ (by decide)) answers
    obtain ⟨rfl, slot⟩ := dotted.hit_dot old (Nat.mod_lt _ (by decide)) answers'
    cases mapped.symm.trans old
    have front := alone _ b (pointer.trans mapped) here
    rw [slot, entryInum_congr same0, inum] at number
    exact ⟨by omega, number.symm⟩
  · rintro ⟨rfl, rfl⟩
    exact ⟨b, pointer.trans mapped, by rw [hit_congr (by decide) same0]; exact hit,
      by rw [entryInum_congr same0]; exact inum⟩
  · rintro ⟨c, here, answers, number⟩
    obtain ⟨i, old, answers'⟩ := back _ c _ dotDot (.inr rfl) here (Nat.mod_lt _ (by decide))
      answers
    obtain ⟨rfl, slot⟩ := dotted.hit_dotDot old (Nat.mod_lt _ (by decide)) answers'
    cases mapped.symm.trans old
    have front := alone _ b (pointer.trans mapped) here
    rw [slot, entryInum_congr same1, inum'] at number
    exact ⟨by omega, number.symm⟩
  · rintro ⟨rfl, rfl⟩
    exact ⟨b, pointer.trans mapped, by rw [hit_congr (by decide) same1]; exact hit',
      by rw [entryInum_congr same1]; exact inum'⟩

theorem lookups (sound : Sound g v) (bit : v.inodeBit d = true)
    (dir : (v.node d).type = ufsDirectory) :
    v.lookupInum d dot = some own ∧ v.lookupInum d dotDot = some parent := by
  have used : 0 < (v.node d).blocksUsed := by
    have := dotted.size
    rw [Node.blocksUsed]
    omega
  constructor
  · exact lookupInum_of_carries sound bit dir dot_plain ((dotted.first 0 own).mpr ⟨rfl, rfl⟩)
      (by omega) fun k inum carries => ((dotted.first k inum).mp carries).1
  · exact lookupInum_of_carries sound bit dir dotDot_plain
      ((dotted.second 1 parent).mpr ⟨rfl, rfl⟩) (by omega)
      fun k inum carries => ((dotted.second k inum).mp carries).1

theorem found (sound : Sound g v) (bit : v.inodeBit d = true)
    (dir : (v.node d).type = ufsDirectory) : v.lookup d dot ≠ none ∧ v.lookup d dotDot ≠ none := by
  obtain ⟨first, second⟩ := dotted.lookups sound bit dir
  constructor
  · intro absent
    rw [Vol.lookupInum, absent] at first
    cases first
  · intro absent
    rw [Vol.lookupInum, absent] at second
    cases second
end

section Steps
variable {request : Request} {reply : UInt32}

theorem back {b j : Nat} (dotted : Dotted v d own parent)
    (moved : SlotStep v request reply v' d b j) (sound : Sound g v) (bit : v.inodeBit d = true)
    (dir : (v.node d).type = ufsDirectory) (low : d ≤ v.highestInode)
    (named : NamesFile request) {name : List UInt8} (dots : name = dot ∨ name = dotDot)
    (hit : v'.hit name b j = true) : ∃ i, (v.node d).direct i = some b ∧ v.hit name b j = true := by
  have dotName : FileName name := by
    rcases dots with rfl | rfl
    · exact dot_fileName
    · exact dotDot_fileName
  have short : name.length ≤ 28 := le_trans dotName.short (by decide)
  cases moved with
  | same old i mapped bytes spared => exact ⟨i, mapped, by rwa [hit_congr short bytes] at hit⟩
  | dots pinum _ junk asked done new taken contents only => omega
  | entered pinum type text junk asked done _ old absent taken bytes place block =>
    subst asked
    -- the new name is absent before, and these are not
    have present := dotted.found sound bit dir
    rw [← hit_newEntry bytes named.plain dotName hit] at absent
    rcases dots with rfl | rfl
    · exact absurd absent present.1
    · exact absurd absent present.2
  | blank zero _ _ _ asked =>
    rw [hit_blank zero dotName] at hit
    cases hit
  | cleared unused => exact absurd unused (hit_live hit)

theorem appends {de before : Bytes} {b : Nat} (dotted : Dotted v d own parent)
    (appends : Appends g v d de v' b before) (aligned : 32 ∣ (v.node d).size)
    (back : ∀ i c j name, name = dot ∨ name = dotDot → (v'.node d).direct i = some c → j < 128 →
      v'.hit name c j = true → ∃ i', (v.node d).direct i' = some c ∧ v.hit name c j = true) :
    Dotted v' d own parent := by
  obtain ⟨b0, first, _⟩ := dotted.block
  have large := dotted.size
  -- the block of the new entry is the first one only while the directory has no other
  have block : b = b0 → (v.node d).size / 4096 = 0 ∧ before = v.block b := by
    rintro rfl
    rcases appends.source with ⟨mapped, same⟩ | ⟨_, _, fresh, _⟩
    · exact ⟨dotted.alone _ _ first mapped, same⟩
    · exact absurd first (fresh 0)
  have pointer : (v'.node d).direct 0 = (v.node d).direct 0 := by
    rw [appends.node]
    by_cases start : (v.node d).size / 4096 = 0
    · rcases appends.source with ⟨mapped, _⟩ | ⟨hole, _⟩
      · rw [start] at mapped ⊢
        simp [mapped]
      · rw [start, first] at hole
        cases hole
    · exact Node.setPtr_other (Ne.symm start)
  refine dotted.keeps pointer (by rw [appends.node]; simp only; omega) ?_ ?_ back
  · intro i c here there
    rw [pointer, first] at here
    cases here
    rcases appends.mapped there with same | ⟨old, _⟩
    · rw [appends.node] at there
      by_cases slot : i = (v.node d).size / 4096
      · exact slot.trans (block same.symm).1
      · exact dotted.alone i b0 first (by simpa [Node.setPtr_other slot] using there)
    · exact dotted.alone i b0 first old
  · intro c here j small index bound
    rw [first] at here
    cases here
    by_cases same : b0 = b
    · obtain ⟨start, rfl⟩ := block same.symm
      rw [same]
      exact appends.entry_beside aligned (by omega) bound
    · exact appends.entry_other first same j index

/-- A removed entry of the first block that is none of the two. -/
theorem removes {name : List UInt8} {i j : Nat} (dotted : Dotted v d own parent)
    (found : v.lookup d name = some (i, j)) (plain : 0 ∉ name) (other : name ≠ dot)
    (other' : name ≠ dotDot) (front : (v.node d).direct 0 = some ((v.node d).at' i))
    (result : v' = v.removeEntry d ((v.node d).at' i) j)
    (back : ∀ i c j name, name = dot ∨ name = dotDot → (v'.node d).direct i = some c → j < 128 →
      v'.hit name c j = true → ∃ i', (v.node d).direct i' = some c ∧ v.hit name c j = true) :
    Dotted v' d own parent := by
  subst result
  obtain ⟨b0, first, ⟨hit, _⟩, hit', _⟩ := dotted.block
  cases first.symm.trans front
  have large := dotted.size
  have answers := (lookup_found found).2.2.2
  -- the first two slots carry other names, so the cut is behind them
  have behind : 2 ≤ j := by
    by_contra early
    rcases (show j = 0 ∨ j = 1 by omega) with rfl | rfl
    · exact other (hit_unique plain dot_plain answers hit)
    · exact other' (hit_unique plain dotDot_plain answers hit')
  have pointer : ((v.removeEntry d ((v.node d).at' i) j).node d).direct 0 =
      (v.node d).direct 0 := by
    simp [Vol.removeEntry, Vol.setNode, front]
  refine dotted.keeps pointer ?_ ?_ ?_ back
  · simp only [Vol.removeEntry, Vol.setNode, Function.update_self]
    omega
  · intro e c here there
    rw [pointer, front] at here
    cases here
    rcases removeEntry_mapped there with ⟨start, _⟩ | ⟨_, old⟩
    · exact start
    · exact dotted.alone e _ front old
  · intro c here k small index bound
    exact removeEntry_entry (fun same => by omega) bound

/-- Every step keeps the two entries, if it is none that `unlink_file` should
have refused. -/
theorem step (dotted : Dotted v d own parent) (moved : DirStep g v request reply v' d)
    (sound : Sound g v) (bit : v.inodeBit d = true) (dir : (v.node d).type = ufsDirectory)
    (low : d ≤ v.highestInode) (named : NamesFile request)
    (spares : ∀ pinum name i j, request = .unlink pinum name → d = pinum.toNat → reply = 0 →
      v.lookup d name = some (i, j) → name ≠ dot ∧ name ≠ dotDot ∧
        (v.node d).direct 0 = some ((v.node d).at' i)) : Dotted v' d own parent := by
  have back : ∀ i c j name, name = dot ∨ name = dotDot → (v'.node d).direct i = some c → j < 128 →
      v'.hit name c j = true → ∃ i', (v.node d).direct i' = some c ∧ v.hit name c j = true :=
    fun i c j name dots mapped small hit =>
      dotted.back (moved.slot sound (fun _ => dir) mapped small) sound bit dir low named dots hit
  cases moved with
  | kept old apart spared => exact dotted.apart apart
  | starved new failed full node =>
    rw [bit] at new
    cases new
  -- a new directory has a number above all that were allocated
  | made pinum name b junk asked done new => omega
  | appended pinum type name b junk before asked done _ old absent taken appended =>
    exact dotted.appends appended ((sound.node d bit).aligned dir) back
  | removed pinum name i j asked done here old found result =>
    obtain ⟨other, other', front⟩ := spares pinum name i j asked here done found
    subst asked
    exact dotted.removes found named.plain other other' front result back
end Steps

/-- After a removal the one block that a lookup scans is that of the removed entry. -/
theorem removed_hit {name text : List UInt8} {i j : Nat} (found : v.lookup d name = some (i, j))
    (still : (v.removeEntry d ((v.node d).at' i) j).lookup d text ≠ none)
    (short : text.length ≤ 28) : ∃ j' < 128, j' ≠ j ∧ v.hit text ((v.node d).at' i) j' = true := by
  obtain ⟨⟨i', j'⟩, there⟩ := Option.ne_none_iff_exists'.mp still
  obtain ⟨_, inside, small, hit⟩ := lookup_found there
  have slot := (lookup_found found).2.2.1
  -- the new size is at most one block
  have front : i' = 0 := by
    simp only [Vol.removeEntry, Vol.setNode, Function.update_self, Node.blocksUsed] at inside
    omega
  subst front
  have block : ((v.removeEntry d ((v.node d).at' i) j).node d).at' 0 = (v.node d).at' i := by
    simp [Vol.removeEntry, Vol.setNode, Node.at']
  rw [block] at hit
  have other : j' ≠ j := by
    rintro rfl
    exact hit_live hit (removeEntry_inum v d _ _)
  refine ⟨j', small, other, ?_⟩
  rwa [hit_congr short fun index bound => removeEntry_entry (fun same => other same.2) bound] at hit

/-- If both entries are found after a removal, it was one that spares them. -/
theorem spared {name : List UInt8} {i j : Nat} (dotted : Dotted v d own parent)
    (sound : Sound g v) (bit : v.inodeBit d = true) (found : v.lookup d name = some (i, j))
    (here : (v.removeEntry d ((v.node d).at' i) j).lookup d dot ≠ none)
    (there : (v.removeEntry d ((v.node d).at' i) j).lookup d dotDot ≠ none) :
    name ≠ dot ∧ name ≠ dotDot ∧ (v.node d).direct 0 = some ((v.node d).at' i) := by
  obtain ⟨dir, inside, small, answers⟩ := lookup_found found
  have mapped := (sound.node d bit).scanned dir inside
  obtain ⟨k, low, other, hit⟩ := removed_hit found here (by decide)
  obtain ⟨k', low', other', hit'⟩ := removed_hit found there (by decide)
  obtain ⟨front, rfl⟩ := dotted.hit_dot mapped low hit
  obtain ⟨_, rfl⟩ := dotted.hit_dotDot mapped low' hit'
  refine ⟨?_, ?_, by rw [← front]; exact mapped⟩
  · rintro rfl
    exact other (dotted.hit_dot mapped small answers).2.symm
  · rintro rfl
    exact other' (dotted.hit_dotDot mapped small answers).2.symm

theorem fresh {b : Nat} {junk : Bytes}
    (node : v.node d = { (Node.fresh ufsDirectory).setPtr 0 b with size := 64 })
    (contents : ∀ index < 4096, v.block b index = freshDir junk own parent index)
    (valid : own ≠ minusOne) (valid' : parent ≠ minusOne) : Dotted v d own parent := by
  refine ⟨by rw [node], fun i c _ there => (fresh_mapped node there).1, fun k inum => ?_,
    fun k inum => ?_⟩
  · rw [fresh_carries node contents valid valid' dot_fileName]
    simp [dot, dotDot]
  · rw [fresh_carries node contents valid valid' dotDot_fileName]
    simp [dot, dotDot]

end Dotted

/-! Over a whole run. -/

abbrev Parents := UInt32 → UInt32 → Prop

def onlyRoot : Parents := fun d parent => d = 0 ∧ parent = 0

def enter (s : Serv) : Event → Parents → Parents
  | .request (.creat pinum type name) junk, parents => fun d parent => parents d parent ∨
      (type = ufsDirectory ∧ parent = pinum ∧ replyCode s (.creat pinum type name) junk = 0 ∧
        ¬ Allocated s d ∧ Allocated (serve s (.creat pinum type name) junk) d)
  | _, parents => parents

def DotsStand (s : Serv) (parents : Parents) : Prop :=
  ∀ d parent, parents d parent → ∀ junk,
    resolve s d dot junk = some d ∧ resolve s d dotDot junk = some parent

def SparesDots (s : Serv) : Event → Prop
  | .request (.unlink pinum name) junk => replyCode s (.unlink pinum name) junk = 0 →
      name ≠ dot ∧ name ≠ dotDot ∧ FirstBlock s (.request (.unlink pinum name) junk)
  | _ => True

structure DotState (g : Geometry) (s : Serv) (parents : Parents) (v : Vol) : Prop where
  backed : Backed g s v
  synced : Synced v
  dirs : ∀ d : UInt32, v.inodeBit d.toNat = true → (v.node d.toNat).type = ufsDirectory →
    Starved g v d.toNat ∨ ∃ parent, parents d parent
  dotted : ∀ d parent, parents d parent → v.inodeBit d.toNat = true ∧
    (v.node d.toNat).type = ufsDirectory ∧ Dotted v d.toNat d parent

section Runs
variable {parents : Parents}

theorem DotState.stand (state : DotState g s parents v) : DotsStand s parents := by
  intro d parent placed junk
  obtain ⟨bit, dir, dotted⟩ := state.dotted d parent placed
  rw [resolve_eq state.backed bit (by decide), resolve_eq state.backed bit (by decide)]
  exact dotted.lookups state.backed.sound bit dir

theorem Started.dotState (started : Started g s) : ∃ v, DotState g s onlyRoot v := by
  obtain ⟨v, backed, initial⟩ := Started.backed started
  refine ⟨v, backed, Initial.synced initial, ?_, ?_⟩
  · intro d bit _
    have root : d.toNat = 0 := by simpa [initial.inodeBit] using bit
    exact .inr ⟨0, UInt32.toNat_inj.mp root, rfl⟩
  · rintro d parent ⟨rfl, rfl⟩
    obtain ⟨junk, contents⟩ := initial.entries
    refine ⟨by simp [initial.inodeBit], by simp [initial.root], ?_⟩
    exact Dotted.fresh (Initial.node initial) contents (by decide) (by decide)

/-- A directory that was not there: without a block, or with the two entries. -/
theorem born {request : Request} {reply : UInt32} {d : UInt32}
    (moved : DirStep g v request reply v' d.toNat) (new : v.inodeBit d.toNat = false)
    (sound : Sound g v) (sound' : Sound g v') (bit' : v'.inodeBit d.toNat = true)
    (bit : v.inodeBit (inode request).toNat = true) (more : v.hghstAllocDblk ≤ v'.hghstAllocDblk) :
    reply = minusOne ∧ Starved g v' d.toNat ∨
      ∃ pinum name, request = .creat pinum ufsDirectory name ∧ reply = 0 ∧
        Dotted v' d.toNat d pinum := by
  have layout := g.layout
  have bound := sound'.hghstAllocDblk_lt
  have inside := sound'.inodeBit_lt _ bit'
  have changed : v.inodeBit d.toNat ≠ true := by simp [new]
  cases moved with
  | kept old apart spared => exact absurd old changed
  | starved _ failed full node => exact .inl ⟨failed, node, by omega⟩
  | made pinum name b junk asked done _ taken node contents =>
    subst asked
    rw [UInt32.ofNat_toNat] at contents
    exact .inr ⟨pinum, name, rfl, done, Dotted.fresh node contents (valid_inode inside)
      (valid_inode (sound.inodeBit_lt _ bit))⟩
  | appended pinum type name b junk before asked done parent old => exact absurd old changed
  | removed pinum name i j asked done parent old => exact absurd old changed

/-- A directory keeps its two entries through a request that spares them. -/
theorem DotState.dotted_serve (state : DotState g s parents v) {request : Request} {junk : Junk}
    {chance : Chance} (taken : DirRun s (.request request junk))
    (spares : SparesDots s (.request request junk))
    (reply : replyCode s request junk = (v.serve g request chance).1) {d parent : UInt32}
    (placed : parents d parent) :
    (v.serve g request chance).2.inodeBit d.toNat = true ∧
      ((v.serve g request chance).2.node d.toNat).type = ufsDirectory ∧
      Dotted (v.serve g request chance).2 d.toNat d parent := by
  obtain ⟨backed, synced, _, dotted⟩ := state
  obtain ⟨proper, named⟩ := taken
  have admissible := Proper.admissible proper backed.sim backed.sound
  obtain ⟨bit, dir, old⟩ := dotted d parent placed
  have bit' := (serve_respects backed.sound backed.tidy (fun _ => synced) admissible
    chance).inodeBit _ bit
  have dir' := (serve_type backed.sound backed.tidy (fun _ => synced) admissible chance bit).trans
    dir
  have moved := serve_dirStep backed.sound backed.tidy (fun _ => synced) admissible chance bit' dir'
  refine ⟨bit', dir', old.step moved backed.sound bit dir (synced.inodes _ bit) named ?_⟩
  rintro pinum name i j rfl here done found
  rw [UInt32.toNat_inj.mp here] at found ⊢
  obtain ⟨other, other', first⟩ := spares (reply.trans done)
  exact ⟨other, other', (firstBlock_iff backed admissible.allocated admissible.short).mp first i j
    found⟩

/-- What is recorded of a request is what was, and the directory it made. -/
theorem enter_iff (request : Request) (junk : Junk) (d parent : UInt32) :
    enter s (.request request junk) parents d parent ↔ parents d parent ∨
      ∃ name, request = .creat parent ufsDirectory name ∧ replyCode s request junk = 0 ∧
        ¬ Allocated s d ∧ Allocated (serve s request junk) d := by
  cases request with
  | creat pinum type name =>
    refine or_congr_right ⟨?_, ?_⟩
    · rintro ⟨rfl, rfl, done⟩
      exact ⟨name, rfl, done⟩
    · rintro ⟨_, same, done⟩
      cases same
      exact ⟨rfl, rfl, done⟩
  | _ => simp [enter]

theorem DotState.step (state : DotState g s parents v) {event : Event} (taken : DirRun s event)
    (spares : SparesDots s event) :
    ∃ v', DotState g (ServerRuns.step s event) (enter s event parents) v' := by
  cases event with
  | restart junk => exact absurd taken id
  | request request junk =>
    have keeps := fun {chance} => @DotState.dotted_serve g s v parents state request junk chance
      taken spares
    obtain ⟨backed, synced, dirs, dotted⟩ := state
    have admissible := Proper.admissible taken.1 backed.sim backed.sound
    obtain ⟨chance, reply, backed', _, respects⟩ := backed.serve taken.1 (fun _ => synced) junk
    have more := serve_counter_le backed.sound backed.tidy admissible chance
    have moved := fun {d} => @serve_dirStep g v d backed.sound backed.tidy request
      (fun _ => synced) admissible chance
    have births := fun {d : UInt32} bit' dir' old => born (d := d) (moved bit' dir') old
      backed.sound backed'.sound bit' admissible.allocated more
    refine ⟨_, backed', respects.synced synced, ?_, ?_⟩
    · intro d bit' dir'
      cases old : v.inodeBit d.toNat with
      | true =>
        have dir := serve_wasDir backed.sound backed.tidy (fun _ => synced) admissible chance
          dir' old
        rcases dirs d old dir with starved | ⟨parent, placed⟩
        · exact .inl (starved.step (moved bit' dir') backed'.sound more (synced.inodes _ old))
        · exact .inr ⟨parent, (enter_iff request junk d parent).mpr (.inl placed)⟩
      | false =>
        rcases births bit' dir' old with ⟨_, starved⟩ | ⟨pinum, name, asked, done, _⟩
        · exact .inl starved
        · refine .inr ⟨pinum, (enter_iff request junk d pinum).mpr
            (.inr ⟨name, asked, reply.trans done, ?_, ?_⟩)⟩
          · rw [allocated_iff backed.sim backed.sound, old]
            decide
          · exact (allocated_iff backed'.sim backed'.sound d).mpr bit'
    · intro d parent placed
      rcases (enter_iff request junk d parent).mp placed with
        placed | ⟨name, asked, done, new, got⟩
      · exact keeps reply placed
      · have old : v.inodeBit d.toNat = false := by
          rw [allocated_iff backed.sim backed.sound] at new
          exact Bool.eq_false_of_not_eq_true new
        have bit' := (allocated_iff backed'.sim backed'.sound d).mp got
        obtain ⟨_, type, _, same, dir'⟩ := serve_new backed.sound backed.tidy (fun _ => synced)
          admissible chance old bit'
        rw [asked] at same
        cases same
        rcases births bit' dir' old with ⟨failed, _⟩ | ⟨pinum, _, asked', _, born⟩
        · rw [← reply, done] at failed
          cases failed
        · rw [asked] at asked'
          cases asked'
          exact ⟨bit', dir', born⟩

/-- A request after which all dot entries are found spares them. -/
theorem DotState.spares (state : DotState g s parents v) {event : Event} (taken : DirRun s event)
    (stand : DotsStand (ServerRuns.step s event) (enter s event parents)) : SparesDots s event := by
  cases event with
  | restart junk => exact absurd taken id
  | request request junk =>
    cases request with
    | unlink pinum name =>
      intro done
      obtain ⟨backed, synced, dirs, dotted⟩ := state
      obtain ⟨proper, named⟩ := taken
      have admissible := Proper.admissible proper backed.sim backed.sound
      have bit : v.inodeBit pinum.toNat = true := admissible.allocated
      obtain ⟨chance, reply, backed', _, respects⟩ := backed.serve proper (fun _ => synced) junk
      have bit' := respects.inodeBit _ bit
      obtain ⟨i, j, found, result⟩ := unlink_done (reply.symm.trans done)
      rw [result] at backed' bit'
      obtain ⟨dir, inside, _⟩ := lookup_found found
      rcases dirs pinum bit dir with starved | ⟨parent, placed⟩
      · rw [starved.1] at inside
        exact absurd inside (Nat.not_lt_zero i)
      · obtain ⟨_, _, old⟩ := dotted pinum parent placed
        obtain ⟨here, there⟩ := stand pinum parent placed junk
        simp only [ServerRuns.step] at here there
        rw [resolve_eq backed' bit' (by decide)] at here there
        obtain ⟨other, other', front⟩ := old.spared backed.sound bit found
          (fun absent => by rw [Vol.lookupInum, absent] at here; cases here)
          (fun absent => by rw [Vol.lookupInum, absent] at there; cases there)
        refine ⟨other, other', (firstBlock_iff backed bit
          (le_trans named.short (by decide))).mpr fun i' j' same => ?_⟩
        cases found.symm.trans same
        exact front
    | _ => trivial
end Runs

/-- The dot entries stand in every state of a session iff every unlink that
succeeds spares them. -/
theorem dots_stand_iff (g : Geometry) (s : Serv) (started : Started g s) (events : List Event)
    (all : Allowed step DirRun s events) :
    (∀ front, front <+: events →
        DotsStand (run step s front) (run (recorded step enter) (s, onlyRoot) front).2) ↔
      Allowed step SparesDots s events := by
  have main : (∀ front, front <+: events →
      DotsStand (run (recorded step enter) (s, onlyRoot) front).1
        (run (recorded step enter) (s, onlyRoot) front).2) ↔
      Allowed (recorded step enter) (fun state event => SparesDots state.1 event) (s, onlyRoot)
        events := by
    refine always_iff (fun state => ∃ v, DotState g state.1 state.2 v)
      (fun state => DotsStand state.1 state.2) ?_ ?_ ?_ (Started.dotState started)
      (allowed_recorded.mpr all)
    · rintro state ⟨v, holds⟩
      exact holds.stand
    · rintro state event ⟨v, holds⟩ taken spares
      exact holds.step taken spares
    · rintro state event ⟨v, holds⟩ taken stand
      exact holds.spares taken stand
  simpa only [run_recorded] using main.trans allowed_recorded

theorem Started.mkdirB_enters (started : Started smallest s) :
    DirRun s mkdirB ∧ enter s mkdirB onlyRoot 1 0 := by
  obtain ⟨proper, new, reply, v, filling, _⟩ := Started.mkdirB started
  refine ⟨⟨proper, letterB_fileName⟩, .inr ⟨rfl, rfl, reply, new, ?_⟩⟩
  exact (allocated_iff filling.backed.sim filling.backed.sound 1).mpr (filling.bit 1 (le_refl _))

/-- The first directory leads to itself and to the root. -/
theorem first_directory_has_its_dots : ∃ s, Started smallest s ∧
    resolve (run step s [mkdirB]) 1 dot noJunk = some 1 ∧
      resolve (run step s [mkdirB]) 1 dotDot noJunk = some 0 := by
  obtain ⟨s, started⟩ := started_exists smallest
  obtain ⟨allowed, placed⟩ := Started.mkdirB_enters started
  have stand := (dots_stand_iff smallest s started [mkdirB] ⟨allowed, trivial⟩).mpr
    ⟨trivial, trivial⟩ [mkdirB] (List.prefix_refl _)
  exact ⟨s, started, stand 1 0 placed noJunk⟩

/-- `unlink_file` takes `.` out of an empty root directory. -/
theorem unlink_dot_removes_it : ∃ s, Started smallest s ∧
    Allowed step DirRun s [.request (.unlink 0 dot) noJunk] ∧ ∀ junk,
      lookupFile (run step s [.request (.unlink 0 dot) noJunk]) 0 dot junk = none := by
  obtain ⟨s, started⟩ := started_exists smallest
  obtain ⟨v, rooted⟩ := Started.rooted started
  obtain ⟨_, found, answer⟩ := rooted.present dot_fileName (.head _) (by decide) (by
    simp [dot, dotDot])
  have proper := rooted.proper_unlink dot_fileName
  have bit : v.inodeBit (0 : UInt32).toNat = true := rooted.bit 0 (Nat.zero_le _)
  obtain ⟨chance, _, backed', decides, respects⟩ := rooted.backed.serve proper
    (fun _ => rooted.synced) noJunk
  have allow : chance.refuse = false := by
    rw [decides 0 dot 0 rfl answer bit, UInt32.toNat_zero, rooted.root]
    decide
  have result : (v.serve smallest (.unlink 0 dot) chance).2 =
      v.removeEntry 0 ((v.node 0).at' 0) 0 := by
    simp [Vol.serve, Vol.unlinkFile, found, allow]
  refine ⟨s, started, ⟨⟨proper, dot_fileName⟩, trivial⟩, fun junk => ?_⟩
  refine (lookupFile_eq_none backed' (respects.inodeBit _ bit) (by decide) junk).mpr ?_
  rw [result]
  simp [Vol.lookup, Vol.findEntry, Vol.slots, Vol.removeEntry, Vol.setNode, Node.blocksUsed]

end OsProjects.DotEntries
