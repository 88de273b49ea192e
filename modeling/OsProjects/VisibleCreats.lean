import OsProjects.EntryNames
import OsProjects.Repetition
import OsProjects.SharedBlocks

/-!
A `Creat` answered 0 and the entry a lookup finds right after it. `creat_file`
drops the answer of the `write_file` that stores the entry, so it also answers 0
when the directory has no block left for one more entry.
-/

namespace OsProjects.VisibleCreats

open ByteStore UfsLayout FileServer Volume VolumeSteps VolumeSound VolumeRefinement MkfsImage Runs
  ServerRuns DirectoryBlocks BlockOwnership DirectorySlots DirectorySteps DirectoryMap FirstFiles
  EntryNames Restarts Repetition SharedBlocks List

variable {g : Geometry} {s : Serv} {v v' : Vol} {d : Nat} {name : List UInt8}

def Pointing (v : Vol) : Prop :=
  ∀ d, v.inodeBit d = true → (v.node d).type = ufsDirectory → ∀ i b, (v.node d).direct i = some b →
    ∀ j < 128, v.entryInum b j = minusOne ∨ v.inodeBit (v.entryInum b j).toNat = true

/-- Also a name that fills its field leaves an inode number up to the one stored. -/
theorem newEntry_inum_le (junk : Bytes) {n : Nat} (small : n < 4294967296)
    (short : name.length ≤ 28) : (wordAt (Vol.newEntry junk n name) 28).toNat ≤ n := by
  have number : (UInt32.ofNat n).toNat = n := toNat_ofNat_lt small
  -- the terminator of such a name falls on the lowest byte of the number
  by_cases full : name.length = 28
  · have stored := entryOf_full junk (UInt32.ofNat n) full
    simp only [entryOf, number] at stored
    rw [Vol.newEntry, stored]
    exact Nat.sub_le _ _
  · rw [newEntry_inum junk n (by omega), number]

theorem Pointing.slotStep {request : Request} {reply : UInt32} {b j : Nat}
    (moved : SlotStep v request reply v' d b j) (pointing : Pointing v) (sound' : Sound g v')
    (short : (VolumeSound.name request).length ≤ 28)
    (bits : ∀ m, v.inodeBit m = true → v'.inodeBit m = true)
    (allocated : v.inodeBit (inode request).toNat = true) (bit' : v'.inodeBit d = true)
    (dir : v.inodeBit d = true → (v.node d).type = ufsDirectory) (small : j < 128) :
    v'.entryInum b j = minusOne ∨ v'.inodeBit (v'.entryInum b j).toNat = true := by
  have layout := g.layout
  have inodes := sound'.highestInode_lt
  have low : ∀ n ≤ v'.highestInode, v'.inodeBit n = true := sound'.inodeBit_le
  cases moved with
  | same old i mapped bytes spared =>
    rw [entryInum_congr bytes]
    exact (pointing d old (dir old) i b mapped j small).imp_right (bits _)
  | dots pinum name junk asked done new taken contents only =>
    subst asked
    rw [inum_freshDir contents small]
    split
    · rw [toNat_ofNat_lt (by omega)]
      exact .inr bit'
    split
    · exact .inr (bits _ allocated)
    · exact .inl rfl
  | entered pinum type name junk asked done parent old absent taken bytes place block =>
    subst asked
    have word : v'.entryInum b j = wordAt (Vol.newEntry junk (v.highestInode + 1) name) 28 :=
      wordAt_congr _ _ _ _ fun index bound => bytes _ (by omega)
    rw [word]
    exact .inr (low _ (le_trans (newEntry_inum_le junk (by omega) short) (by omega)))
  | blank zero _ _ _ asked =>
    rw [inum_blank zero]
    -- zeros are the number of the root, and that is allocated
    exact .inr (low _ (Nat.zero_le _))
  | cleared unused => exact .inl unused

theorem Pointing.serve {request : Request} {chance : Chance} (pointing : Pointing v)
    (sound : Sound g v) (tidy : Tidy g v) (current : Allocating request → Synced v)
    (admissible : Admissible v request) : Pointing (v.serve g request chance).2 := by
  intro d bit' dir' i b mapped j small
  have respects := serve_respects sound tidy current admissible chance
  have moved := serve_slotStep sound tidy current admissible chance bit' dir' mapped small
  exact Pointing.slotStep moved pointing respects.sound admissible.short respects.inodeBit
    admissible.allocated bit'
    (serve_wasDir sound tidy current admissible chance dir') small

theorem Initial.pointing (initial : Initial g v) : Pointing v := by
  intro d bit dir i b mapped j small
  obtain ⟨root, _, junk, contents⟩ := Initial.block initial bit mapped
  rw [inum_freshDir contents small]
  have first : v.inodeBit (0 : UInt32).toNat = true := by simp [initial.inodeBit]
  split
  · exact .inr first
  split
  · exact .inr first
  · exact .inl rfl

/-- A volume behind the server whose directories lead to allocated inodes. -/
theorem run_pointing (started : Started g s) {events : List Event}
    (all : Allowed step (fun s event => Sessions s event ∧ Current s event) s events) :
    ∃ v, Backed g (run step s events) v ∧ Pointing v := by
  apply invariant (fun s => ∃ v, Backed g s v ∧ Pointing v) _ _ all
  · obtain ⟨v, backed, initial⟩ := Started.backed started
    exact ⟨v, backed, Initial.pointing initial⟩
  · rintro s event ⟨v, backed, pointing⟩ ⟨proper, current⟩
    cases event with
    | restart junk => exact ⟨_, backed.restart junk, pointing⟩
    | request request junk =>
      have synced : Allocating request → Synced v :=
        fun allocating => (current allocating).synced backed
      obtain ⟨chance, _, backed', _, _⟩ := backed.serve proper synced junk
      exact ⟨_, backed', pointing.serve backed.sound backed.tidy synced
        (Proper.admissible proper backed.sim backed.sound)⟩

section Lookups

theorem slots_succ (blocks : Nat) :
    Vol.slots (blocks + 1) = Vol.slots blocks ++ (range 128).map fun j => (blocks, j) := by
  rw [Vol.slots, @range_succ blocks, flatMap_append, flatMap_singleton, Vol.slots]

variable {junk before : Bytes} {n b : Nat}

theorem appends_hit (appends : Appends g v d (Vol.newEntry junk n name) v' b before)
    (aligned : 32 ∣ (v.node d).size) (named : FileName name) (valid : n < 4294967295) :
    v'.hit name b ((v.node d).size % 4096 / 32) = true ∧
      v'.entryInum b ((v.node d).size % 4096 / 32) = UInt32.ofNat n :=
  newEntry_hit (fun _ bound => appends.entry_new aligned rfl bound) named valid

section
variable (appends : Appends g v d (Vol.newEntry junk n name) v' b before) (sound : Sound g v)
  (bit : v.inodeBit d = true) (dir : (v.node d).type = ufsDirectory)
  (absent : v.lookup d name = none) (named : FileName name) (valid : n < 4294967295)
include appends sound bit dir absent named valid

/-- In the blocks that were scanned before nothing else answers to it. -/
theorem appends_scanned {i j : Nat} (inside : i < (v.node d).blocksUsed) (small : j < 128)
    (hit : v'.hit name ((v'.node d).at' i) j = true) :
    v'.entryInum ((v'.node d).at' i) j = UInt32.ofNat n := by
  have aligned := (sound.node d bit).aligned dir
  have scanned := (sound.node d bit).scanned dir inside
  -- an unchanged slot does not answer, as the name was absent
  have missing : ∀ c, (v.node d).direct i = some c →
      (∀ index < 32, v'.entry c j index = v.entry c j index) → v'.hit name c j = false := by
    intro c mapped bytes
    rw [hit_congr (le_trans named.short (by decide)) bytes]
    by_contra found
    exact (lookup_none_iff sound bit dir).mp absent _ _ (by omega)
      (carries_of_hit mapped small (by simpa using found))
  -- a scanned block was mapped before, so the append put no other in its place
  have same : (v'.node d).at' i = (v.node d).at' i := by
    rw [appends.node]
    by_cases slot : i = (v.node d).size / 4096
    · rcases appends.source with ⟨here, _⟩ | ⟨hole, _⟩
      · rw [← slot] at here ⊢
        simp [Node.at', here]
      · rw [← slot, scanned] at hole
        cases hole
    · simp [Node.at', Node.setPtr_other slot]
  rw [same] at hit ⊢
  by_cases block : (v.node d).at' i = b
  · rw [block] at hit scanned ⊢
    by_cases slot : j = (v.node d).size % 4096 / 32
    · rw [slot]
      exact (appends_hit appends aligned named valid).2
    · rcases appends.source with ⟨_, rfl⟩ | ⟨_, _, fresh, _⟩
      · rw [missing b scanned fun index bound => appends.entry_beside aligned slot bound] at hit
        cases hit
      · exact absurd scanned (fresh i)
  · rw [missing _ scanned fun index _ => appends.entry_other scanned block j index] at hit
    cases hit

theorem appends_lookupInum : v'.lookupInum d name = some (UInt32.ofNat n) := by
  obtain ⟨m, whole⟩ := (sound.node d bit).aligned dir
  obtain ⟨hit, inum⟩ := appends_hit appends ⟨m, whole⟩ named valid
  have dir' : (v'.node d).type = ufsDirectory := by
    rw [appends.node]
    exact dir
  have here : (v'.node d).at' ((v.node d).size / 4096) = b := by
    rw [appends.node]
    simp [Node.at']
  have used : (v'.node d).blocksUsed = ((v.node d).size + 32 + 4095) / 4096 := by
    rw [appends.node]
    rfl
  have scanned : ∀ i j, i < (v.node d).blocksUsed → j < 128 →
      v'.hit name ((v'.node d).at' i) j = true →
      v'.entryInum ((v'.node d).at' i) j = UInt32.ofNat n := fun i j inside small found =>
    appends_scanned appends sound bit dir absent named valid inside small found
  rw [Vol.lookupInum, Vol.lookup, if_pos dir', Vol.findEntry]
  by_cases more : (v.node d).size % 4096 = 0
  · -- the entry starts a block that was not scanned before
    have next : (v'.node d).blocksUsed = (v.node d).blocksUsed + 1 := by
      rw [used, Node.blocksUsed]
      omega
    have first : (v.node d).blocksUsed = (v.node d).size / 4096 := by
      rw [Node.blocksUsed]
      omega
    rw [next, slots_succ, find?_append]
    cases early : (Vol.slots (v.node d).blocksUsed).find?
        (fun slot => v'.hit name ((v'.node d).at' slot.1) slot.2) with
    | some slot =>
      obtain ⟨inside, small⟩ := mem_slots.mp (mem_of_find?_eq_some early)
      have found := find?_some early
      simp only [Option.some_or, Option.map_some]
      rw [scanned _ _ inside small found]
    | none =>
      rw [more] at hit inum
      have head : ((range 128).map fun j => ((v.node d).blocksUsed, j)).find?
          (fun slot => v'.hit name ((v'.node d).at' slot.1) slot.2) =
            some ((v.node d).blocksUsed, 0) := by
        rw [show range 128 = 0 :: (range 127).map Nat.succ from range_succ_eq_map,
          map_cons, find?_cons_of_pos]
        rw [first, here]
        exact hit
      rw [head, Option.none_or, Option.map_some, first, here]
      exact congrArg some inum
  -- it goes into the last block of the scan
  · have same : (v'.node d).blocksUsed = (v.node d).blocksUsed := by
      rw [used, Node.blocksUsed]
      omega
    have inside : (v.node d).size / 4096 < (v.node d).blocksUsed := by
      rw [Node.blocksUsed]
      omega
    rw [same]
    cases found : (Vol.slots (v.node d).blocksUsed).find?
        (fun slot => v'.hit name ((v'.node d).at' slot.1) slot.2) with
    | some slot =>
      obtain ⟨low, small⟩ := mem_slots.mp (mem_of_find?_eq_some found)
      have answers := find?_some found
      rw [Option.map_some, scanned _ _ low small answers]
    | none =>
      have none := find?_eq_none.mp found _
        (mem_slots.mpr ⟨inside, show (v.node d).size % 4096 / 32 < 128 by omega⟩)
      simp only [here] at none
      exact absurd hit none
end

/-- A new directory resolves `.` to itself and `..` to its parent. -/
theorem fresh_dots {self parent : UInt32} (sound : Sound g v) (bit : v.inodeBit d = true)
    (node : v.node d = { (Node.fresh ufsDirectory).setPtr 0 b with size := 64 })
    (contents : ∀ index < 4096, v.block b index = freshDir junk self parent index)
    (valid : self ≠ minusOne) (valid' : parent ≠ minusOne) :
    v.lookupInum d dot = some self ∧ v.lookupInum d dotDot = some parent := by
  have block : OneBlock v d b 64 [(0, dot, self), (1, dotDot, parent)] := by
    refine ⟨node.trans (fresh_oneBlock b 64), fun k other inum asked => ?_⟩
    rw [fresh_carries node contents valid valid' asked]
    simp
  obtain ⟨_, _, own⟩ := block.present sound bit dot_fileName (.head _) (by decide)
    (by simp [dot, dotDot])
  obtain ⟨_, _, up⟩ := block.present sound bit dotDot_fileName (.tail _ (.head _)) (by decide)
    (by simp [dot, dotDot])
  exact ⟨own, up⟩

/-- Without room for the entry the name is not found afterwards. -/
theorem lost_entry {p : Nat} {type : UInt32} {chance : Chance} (sound : Sound g v)
    (tidy : Tidy g v) (synced : Synced v) (bit : v.inodeBit p = true)
    (dir : (v.node p).type = ufsDirectory) (absent : v.lookup p name = none)
    (room : v.highestInode + 1 < g.numInodes) (short : name.length ≤ 28)
    (full : ¬ Room g (opened g v p type chance) p) :
    ((opened g v p type chance).addEntry g p (v.highestInode + 1) name chance.entry).lookup p
      name = none := by
  have first := opened_respects sound tidy synced room p type chance
  have low := synced.inodes _ bit
  rw [addEntry_full first.sound (first.inodeBit _ bit) full]
  exact Repetition.Apart.absent (first.apart _ (by omega) bit) sound first.sound bit
    (first.inodeBit _ bit) dir short absent
end Lookups

structure AsAsked (s : Serv) (pinum kind inum : UInt32) : Prop where
  type : (inodeOf s inum).type = kind
  file : kind = ufsRegularFile → (inodeOf s inum).size = 0
  dir : kind = ufsDirectory → ∀ junk,
    resolve s inum dot junk = some inum ∧ resolve s inum dotDot junk = some pinum

/-- A lookup finds an entry with an allocated inode, which is a new one of the
kind that was asked for if the name was absent in `s`. -/
def Visible (s s' : Serv) (pinum type : UInt32) (name : List UInt8) : Prop :=
  ∃ inum, (∀ junk, resolve s' pinum name junk = some inum) ∧ Allocated s' inum ∧
    ((∀ junk, lookupFile s pinum name junk = none) → AsAsked s' pinum type inum)

section Serving
variable {pinum type : UInt32} {junk : Junk}

/-- There is a place for the entry, on the server and on its volume. -/
theorem entryFits_iff (backed : Backed g s v) (synced : Synced v)
    (bit : v.inodeBit pinum.toNat = true) (room : v.highestInode + 1 < g.numInodes)
    (blocks : v.hghstAllocDblk + ownBlocks type < g.numData) (chance : Chance) :
    EntryFits s pinum type ↔ Room g (opened g v pinum.toNat type chance) pinum.toNat := by
  have layout := g.layout
  have low := synced.inodes _ bit
  have inside := backed.sound.inodeBit_lt _ bit
  have apart := (opened_respects backed.sound backed.tidy synced room pinum.toNat type
    chance).apart _ (by omega) bit
  have count : g.super.dataRegionLen.toNat = g.numData := toNat_ofNat_lt (by omega)
  rw [EntryFits, Room, inodeOf_size backed.sim pinum inside, ne_eq,
    inodeOf_hole backed.sim pinum inside, backed.sim.hghstAllocDblk, backed.sim.super, count,
    apart.node, opened_counter backed.sound room blocks]
  exact and_congr_left' Nat.lt_succ_iff

theorem entered_asAsked {v' : Vol} {s' : Serv} {chance : Chance} (backed : Backed g s v)
    (backed' : Backed g s' v') (synced : Synced v) (bit : v.inodeBit pinum.toNat = true)
    (room : v.highestInode + 1 < g.numInodes)
    (blocks : v.hghstAllocDblk + ownBlocks type < g.numData)
    (kind : type = ufsDirectory ∨ type = ufsRegularFile)
    (result : v' = (opened g v pinum.toNat type chance).addEntry g pinum.toNat
      (v.highestInode + 1) name chance.entry) :
    Allocated s' (UInt32.ofNat (v.highestInode + 1)) ∧
      AsAsked s' pinum type (UInt32.ofNat (v.highestInode + 1)) := by
  have layout := g.layout
  have inside := backed.sound.inodeBit_lt _ bit
  have number : (UInt32.ofNat (v.highestInode + 1)).toNat = v.highestInode + 1 :=
    toNat_ofNat_lt (by omega)
  have new : v'.inodeBit (v.highestInode + 1) = true :=
    (entered_bit backed.sound backed.tidy synced bit room result _).mpr (.inr rfl)
  have type' := inodeOf_type backed'.sim (UInt32.ofNat (v.highestInode + 1)) (by omega)
  have size' := inodeOf_size backed'.sim (UInt32.ofNat (v.highestInode + 1)) (by omega)
  rw [number] at type' size'
  -- only a directory has a block of its own
  refine ⟨(allocated_iff backed'.sim backed'.sound _).mpr (by rwa [number]), ?_⟩
  rcases kind with rfl | rfl
  · obtain ⟨b, node, contents⟩ := entered_dir backed.sound backed.tidy synced bit room blocks result
      rfl
    refine ⟨by rw [type', node]; rfl, fun other => absurd other (by decide), fun _ junk => ?_⟩
    rw [resolve_eq backed' (by rwa [number]) (by decide), resolve_eq backed' (by rwa [number])
      (by decide), number]
    refine fresh_dots backed'.sound new node contents (ofNat_ne_minusOne (by omega)) ?_
    rw [← UInt32.ofNat_toNat (x := pinum)]
    exact ofNat_ne_minusOne (by omega)
  · have node := entered_file backed.sound backed.tidy synced bit room result (by decide)
    refine ⟨by rw [type', node]; rfl, fun _ => ?_, fun other => absurd other (by decide)⟩
    rw [← UInt32.toNat_inj, size', node]
    rfl

theorem found_visible {s' : Serv} {slot : Nat × Nat} (pointing : Pointing v)
    (backed : Backed g s v) (backed' : Backed g s' v) (bit : v.inodeBit pinum.toNat = true)
    (short : name.length ≤ 28) (found : v.lookup pinum.toNat name = some slot) :
    Visible s s' pinum type name := by
  obtain ⟨i, j⟩ := slot
  obtain ⟨dir, inside, small, hit⟩ := lookup_found found
  have mapped := (backed.sound.node _ bit).scanned dir inside
  have known := (pointing _ bit dir i _ mapped j small).resolve_left (hit_live hit)
  refine ⟨v.entryInum ((v.node pinum.toNat).at' i) j, ?_, ?_, ?_⟩
  · intro junk
    rw [resolve_eq backed' bit short, Vol.lookupInum, found]
    rfl
  · exact (allocated_iff backed'.sim backed'.sound _).mpr known
  · intro absent
    have missing := (lookupFile_eq_none backed bit short noJunk).mp (absent noJunk)
    rw [found] at missing
    cases missing

end Serving

/-- A `Creat` that is answered 0 is visible iff the name was there or the directory
has room for the entry; for a new name the counters have to be current. -/
theorem creat_is_visible_iff (g : Geometry) (s : Serv) (started : Started g s) (events : List Event)
    (all : Allowed step (fun s event => Sessions s event ∧ Current s event) s events)
    (pinum type : UInt32) (name : List UInt8) (junk : Junk)
    (current : lookupFile (run step s events) pinum name (junk.call 1) = none →
      CountersCurrent (run step s events))
    (allocated : Allocated (run step s events) pinum)
    (dir : (inodeOf (run step s events) pinum).type = ufsDirectory)
    (kind : type = ufsDirectory ∨ type = ufsRegularFile) (named : FileName name)
    (answered : replyCode (run step s events) (.creat pinum type name) junk = 0) :
    Visible (run step s events) (serve (run step s events) (.creat pinum type name) junk) pinum
        type name ↔
      lookupFile (run step s events) pinum name (junk.call 1) ≠ none ∨
        EntryFits (run step s events) pinum type := by
  obtain ⟨v, backed, pointing⟩ := run_pointing started all
  generalize run step s events = s1 at *
  have bit := (allocated_iff backed.sim backed.sound pinum).mp allocated
  have short : name.length ≤ 28 := le_trans named.short (by decide)
  rw [inodeOf_type backed.sim pinum (backed.sound.inodeBit_lt _ bit)] at dir
  have proper : Proper s1 (.creat pinum type name) := ⟨allocated, Nat.zero_le _, short⟩
  rw [ne_eq, lookupFile_eq_none backed bit short] at *
  cases found : v.lookup pinum.toNat name with
  | some slot =>
    -- the name is there: nothing happens
    obtain ⟨chance, _, sim', _⟩ := serve_sim backed.sim backed.sound
      (proper.admissible backed.sim backed.sound) junk
    have served : (v.serve g (.creat pinum type name) chance).2 = v := by
      simp [Vol.serve, Vol.creatFile, dir, found]
    rw [served] at sim'
    exact iff_of_true (found_visible pointing backed ⟨sim', backed.sound, backed.tidy⟩ bit short
      found) (.inl (by simp))
  | none =>
    have synced := (current found).synced backed
    obtain ⟨chance, reply, backed', _, respects⟩ := backed.serve proper (fun _ => synced) junk
    have bit' := respects.inodeBit _ bit
    rw [answered] at reply
    generalize serve s1 (.creat pinum type name) junk = s2 at *
    obtain ⟨room, blocks⟩ := creat_took backed.sound dir found reply.symm
    have result : (v.serve g (.creat pinum type name) chance).2 =
        (opened g v pinum.toNat type chance).addEntry g pinum.toNat (v.highestInode + 1) name
          chance.entry := by
      simp only [Vol.serve, creat_absent backed.sound dir found room blocks chance]
    rw [entryFits_iff backed synced bit room blocks chance]
    by_cases fits : Room g (opened g v pinum.toNat type chance) pinum.toNat
    · have layout := g.layout
      obtain ⟨b, before, appends⟩ := entered_appends backed.sound backed.tidy synced bit room
        blocks result dir fits
      have finds := appends_lookupInum appends backed.sound bit dir found named (by omega)
      obtain ⟨taken, asked⟩ := entered_asAsked backed backed' synced bit room blocks kind result
      refine iff_of_true ⟨_, fun junk' => ?_, taken, fun _ => asked⟩ (.inr fits)
      rw [resolve_eq backed' bit' short, finds]
    · -- the entry is lost, and the parent is what it was
      have gone := lost_entry backed.sound backed.tidy synced bit dir found room short fits
      rw [← result] at gone
      refine iff_of_false ?_ (fun either => either.elim (fun no => no rfl) fits)
      rintro ⟨inum, finds, _⟩
      have missing := finds junk
      rw [resolve_eq backed' bit' short, Vol.lookupInum, gone] at missing
      cases missing

/-- The first file of a file system is visible. -/
theorem first_creat_is_visible : ∃ s, Started smallest s ∧
    replyCode s (.creat 0 ufsRegularFile [97]) noJunk = 0 ∧
      Visible s (serve s (.creat 0 ufsRegularFile [97]) noJunk) 0 ufsRegularFile [97] := by
  obtain ⟨s, started⟩ := started_exists smallest
  obtain ⟨v, rooted⟩ := Started.rooted started
  have missing : ∀ k inum, (k, [97], inum) ∉ [(0, dot, (0 : UInt32)), (1, dotDot, 0)] := by
    simp [dot, dotDot]
  have answer := (rooted.creat letterA_fileName missing (by decide) (by decide) noJunk).1
  have careful : Careful s (.request (.creat 0 ufsRegularFile [97]) noJunk) :=
    Rooted.careful_creat rooted (by decide) (by decide) (by simp) noJunk
  have fits := (careful (rooted.lookupFile_none letterA_fileName missing _)).1
  refine ⟨s, started, answer, ?_⟩
  exact (creat_is_visible_iff smallest s started [] trivial 0 ufsRegularFile [97] noJunk
    (fun _ => Synced.countersCurrent rooted.synced rooted.backed)
    (rooted.allocated 0 (Nat.zero_le _)) rooted.inodeOf_dir (.inr rfl) letterA_fileName
    answer).mpr (.inr fits)

/-- With 126 files the block of the root directory is full, and two writes take
every other data block. -/
def fullDisk : List Event :=
  (range 126).map creatNumbered ++
    [.request (.write 1 (fun _ => 7) 118784 1) noJunk, .request (.write 2 (fun _ => 7) 0 1) noJunk]

theorem holes_fresh (type : UInt32) (d : Nat) : holes (Node.fresh type) d = d := by
  induction d with
  | zero => rfl
  | succ d ih => simpa [holes, Node.fresh] using ih

/-- A write inside one block of an empty file takes a block for every pointer up
to it. -/
theorem write_fresh_counter {n offset nbytes : Nat} {buf : Bytes}
    (bound : v.hghstAllocDblk < g.numData) (fresh : v.node n = Node.fresh ufsRegularFile)
    (inside : offset / 4096 ≤ 29) (short : nbytes ≤ 4096 - offset % 4096)
    (room : v.hghstAllocDblk + (offset / 4096 + 1) < g.numData) :
    (v.writeFile g n buf offset nbytes ufsRegularFile).2.hghstAllocDblk =
      v.hghstAllocDblk + (offset / 4096 + 1) := by
  obtain ⟨enough, counter⟩ := (fillHoles_counter (offset / 4096 + 1) bound (v.node n)).1
    (by rwa [fresh, holes_fresh])
  rw [fresh, holes_fresh, ← fresh] at counter
  have outcome := writeFile_outcome n buf offset nbytes ufsRegularFile bound
  generalize v.writeFile g n buf offset nbytes ufsRegularFile = result at outcome
  obtain ⟨ok, v'⟩ := result
  cases outcome with
  | refused wrong =>
    rcases wrong with different | beyond
    · rw [fresh] at different
      exact absurd rfl different
    · omega
  | noBlock _ _ _ filled =>
    rw [filled] at enough
    exact absurd rfl enough
  | oneBlock nd v1 _ _ filled _ =>
    rw [filled] at counter
    exact counter
  | _ => omega

structure Tight (s : Serv) (v : Vol) (used : Nat) : Prop where
  backed : Backed roomy s v
  synced : Synced v
  low : ∀ n ≤ 2, v.inodeBit n = true
  root : (v.node 0).type = ufsDirectory ∧ (v.node 0).size = 4096 ∧ (v.node 0).direct 1 = none
  absent : v.lookup 0 (numbered 126) = none
  highest : v.highestInode = 126
  counter : v.hghstAllocDblk = used

theorem Tight.write {used more : Nat} (tight : Tight s v used) (inum offset : UInt32)
    (file : inum.toNat = 1 ∨ inum.toNat = 2)
    (fresh : v.node inum.toNat = Node.fresh ufsRegularFile) (inside : offset.toNat / 4096 ≤ 29)
    (blocks : more = offset.toNat / 4096 + 1) (room : used + more < 32) :
    Proper s (.write inum (fun _ => 7) offset 1) ∧
      ∃ v', Tight (serve s (.write inum (fun _ => 7) offset 1) noJunk) v' (used + more) ∧
        ∀ n ≤ 2, n ≠ inum.toNat → v'.node n = v.node n := by
  obtain ⟨backed, synced, low, root, absent, highest, counter⟩ := tight
  have bit : v.inodeBit inum.toNat = true := low _ (by omega)
  have proper : Proper s (.write inum (fun _ => 7) offset 1) :=
    ⟨(allocated_iff backed.sim backed.sound _).mpr bit, show 1 ≤ 4096 by decide,
      show 0 ≤ 28 by decide⟩
  obtain ⟨chance, _, backed', _, respects⟩ := backed.serve proper (fun _ => synced) noJunk
  have others : ∀ n ≤ 2, n ≠ inum.toNat →
      Apart n v (v.serve roomy (.write inum (fun _ => 7) offset 1) chance).2 :=
    fun n small other => respects.apart n other (low n small)
  have apart := others 0 (by decide) (by omega)
  have writes := (writeFile_outcome inum.toNat (fun _ => 7) offset.toNat (1 : UInt32).toNat
    ufsRegularFile backed.sound.hghstAllocDblk_lt).writes backed.sound.hghstAllocDblk_lt (by decide)
  refine ⟨proper, _, ⟨backed', respects.synced synced, fun n small => respects.inodeBit n
    (low n small), ?_, ?_, ?_, ?_⟩, fun n small other => (others n small other).node⟩
  · rw [apart.node]
    exact root
  · exact Repetition.Apart.absent apart backed.sound backed'.sound (low 0 (by decide))
      (respects.inodeBit 0 (low 0 (by decide))) root.1 (by decide) absent
  · exact writes.highestInode.trans highest
  · have one : (1 : UInt32).toNat = 1 := rfl
    have data : roomy.numData = 32 := rfl
    simp only [Vol.serve]
    rw [write_fresh_counter backed.sound.hghstAllocDblk_lt fresh inside (by omega) (by omega),
      counter, blocks]

/-- The `Creat` is answered 0, and its name is not found. -/
theorem creat_on_a_full_disk_is_lost : ∃ s, Started roomy s ∧ Allowed step OneRun s fullDisk ∧
    Allocated (run step s fullDisk) 0 ∧
    (inodeOf (run step s fullDisk) 0).type = ufsDirectory ∧ FileName (numbered 126) ∧
    replyCode (run step s fullDisk) (.creat 0 ufsRegularFile (numbered 126)) noJunk = 0 ∧
    ∀ junk, lookupFile (serve (run step s fullDisk) (.creat 0 ufsRegularFile (numbered 126)) noJunk)
      0 (numbered 126) junk = none := by
  obtain ⟨s, started⟩ := started_exists roomy
  obtain ⟨allowed, v, rooted⟩ := fill_rooted 126 (by decide) started
  have named := numbered_fileName (show 126 < 128 by decide)
  have short : (numbered 126).length ≤ 28 := le_trans named.short (by decide)
  have start : Tight (run step s ((range 126).map creatNumbered)) v 0 := by
    refine ⟨rooted.backed, rooted.synced, fun n small => rooted.bit n (by omega), ?_,
      rooted.absent named (numbered_missing (by decide)), rooted.highestInode,
      rooted.hghstAllocDblk⟩
    rw [rooted.root]
    exact ⟨rfl, rfl, rfl⟩
  obtain ⟨proper1, v1, tight1, kept1⟩ := start.write 1 118784 (.inl rfl)
    (rooted.files _ (by decide) (rooted.bit _ (by decide))) (by decide) rfl (by decide)
  obtain ⟨proper2, v2, tight2, _⟩ := tight1.write 2 0 (.inr rfl)
    ((kept1 _ (by decide) (by decide)).trans
      (rooted.files _ (by decide) (rooted.bit _ (by decide)))) (by decide) rfl (by decide)
  have ended : run step s fullDisk = serve (serve (run step s ((range 126).map creatNumbered))
      (.write 1 (fun _ => 7) 118784 1) noJunk) (.write 2 (fun _ => 7) 0 1) noJunk := by
    rw [fullDisk, run_append, run_cons, run_cons, run_nil]
    rfl
  obtain ⟨backed, synced, low, ⟨dir, size, hole⟩, absent, highest, counter⟩ := tight2
  rw [← ended] at backed
  have bit : v2.inodeBit (0 : UInt32).toNat = true := low 0 (by decide)
  have allocated := (allocated_iff backed.sim backed.sound 0).mpr bit
  have proper : Proper (run step s fullDisk) (.creat 0 ufsRegularFile (numbered 126)) :=
    ⟨allocated, Nat.zero_le _, short⟩
  obtain ⟨chance, reply, backed', _, respects⟩ := backed.serve proper (fun _ => synced) noJunk
  have inodes : roomy.numInodes = 256 := rfl
  have data : roomy.numData = 32 := rfl
  have room : v2.highestInode + 1 < roomy.numInodes := by omega
  have blocks : v2.hghstAllocDblk + ownBlocks ufsRegularFile < roomy.numData := by
    rw [counter]
    decide
  have result := creat_absent backed.sound dir absent room blocks chance
  have apart := (opened_respects backed.sound backed.tidy synced room 0 ufsRegularFile
    chance).apart 0 (by omega) bit
  have full : ¬ Room roomy (opened roomy v2 0 ufsRegularFile chance) 0 := by
    rw [Room, apart.node, size, opened_counter backed.sound room blocks, counter]
    rintro ⟨_, mapped | free⟩
    · exact mapped hole
    · exact absurd free (by decide)
  have gone := lost_entry backed.sound backed.tidy synced bit dir absent room short full
  simp only [Vol.serve, UInt32.toNat_zero, result] at backed' reply respects
  refine ⟨s, started, ?_, allocated, ?_, named, reply, ?_⟩
  · rw [fullDisk, allowed_append]
    exact ⟨allowed, proper1, proper2, trivial⟩
  · rw [inodeOf_type backed.sim 0 (by decide)]
    exact dir
  · intro junk
    exact (lookupFile_eq_none backed' (respects.inodeBit _ bit) short junk).mpr gone

end OsProjects.VisibleCreats
