import OsProjects.LateCopies

/-!
Which bytes of its file a write leaves alone. A write inside one block changes
the bytes it names and no others. A write that goes on into the next block takes
a new block for it even where the file had one, so whatever the file held behind
the write in that block is replaced by zeros.
-/

namespace OsProjects.WriteFrames

open ByteStore UfsLayout FileServer Volume VolumeSteps VolumeSound VolumeRefinement MkfsImage Runs
  ServerRuns BlockOwnership DirectorySlots FirstFiles FileContents FileSizes Repetition LateCopies
  Function

variable {g : Geometry} {s s' : Serv} {v v' : Vol}

section Volumes
variable {n offset nbytes position size : Nat} {buf : Bytes}

def fileByte (v : Vol) (n position : Nat) : UInt8 :=
  v.block ((v.node n).at' (position / 4096)) (position % 4096)

theorem Covered.pointer (covered : Covered (v.node n) size) (below : position < size) :
    position / 4096 ≤ 29 ∧
      (v.node n).direct (position / 4096) = some ((v.node n).at' (position / 4096)) := by
  obtain ⟨same, count, few, order, reach⟩ := covered
  obtain ⟨b, mapped⟩ := Option.ne_none_iff_exists'.mp ((order (position / 4096)).mpr (by omega))
  exact ⟨by omega, by simp [Node.at', mapped]⟩

theorem fileByte_of_pointer {b : Nat} (mapped : (v.node n).direct (position / 4096) = some b) :
    fileByte v n position = v.block b (position % 4096) := by
  simp [fileByte, Node.at', mapped]

/-- A byte outside the range that was written is kept, unless it is in the
second block of the write. -/
theorem WriteOutcome.fileByte
    (outcome : WriteOutcome g v n buf offset nbytes ufsRegularFile true v') (small : nbytes ≤ 4096)
    (sound : Sound g v) (tidy : Tidy g v) (synced : Synced v) (bit : v.inodeBit n = true)
    (single : Single (v.node n)) (covered : Covered (v.node n) size) (below : position < size)
    (outside : position < offset ∨ offset + nbytes ≤ position) :
    fileByte v' n position =
      if 4096 - offset % 4096 < nbytes ∧ position / 4096 = offset / 4096 + 1 then 0
      else fileByte v n position := by
  have distinct := Writes.single_node (outcome.writes sound.hghstAllocDblk_lt small) sound synced
    bit single
  obtain ⟨_, old⟩ := Covered.pointer covered below
  cases outcome with
  | oneBlock nd v1 typed inside filled short =>
    obtain ⟨alloc, found⟩ := filled_spec sound.hghstAllocDblk_lt inside filled
    obtain ⟨_, _, first, kept⟩ := found nd rfl
    have here := (kept (position / 4096) (Or.inl (by simp [old]))).trans old
    rw [if_neg (by omega), fileByte_of_pointer old]
    rw [fileByte_of_pointer (b := (v.node n).at' (position / 4096))
      (by simpa [Vol.grow, Vol.setNode] using here)]
    simp only [Vol.grow, Vol.setNode, Vol.putBlock]
    by_cases same : (v.node n).at' (position / 4096) = nd.at' (offset / 4096)
    · have slot : position / 4096 = offset / 4096 := by
        refine distinct _ _ (nd.at' (offset / 4096)) ?_ ?_
        · simpa [Vol.grow, Vol.setNode, same] using here
        · simpa [Vol.grow, Vol.setNode] using first
      rw [same, update_self, overwrite_outside (by omega), alloc.block]
    · rw [update_of_ne same, alloc.block]
  | twoBlocks nd v1 v2 typed inside filled long alloc' next =>
    obtain ⟨alloc, found⟩ := filled_spec sound.hghstAllocDblk_lt (by omega) filled
    obtain ⟨_, _, first, kept⟩ := found nd rfl
    have here := (kept (position / 4096) (Or.inl (by simp [old]))).trans old
    have firstNew := filled_ne_new sound synced bit (by omega) filled first
      (show v1.hghstAllocDblk < v2.hghstAllocDblk by omega)
    have hereNew := filled_ne_new sound synced bit (by omega) filled here
      (show v1.hghstAllocDblk < v2.hghstAllocDblk by omega)
    by_cases second : position / 4096 = offset / 4096 + 1
    · -- the new block held zeros
      have passed := alloc.counter_le
      rw [if_pos ⟨long, second⟩, fileByte_of_pointer (b := g.dataRegionAddr + v2.hghstAllocDblk)
        (by simp [Vol.grow, Vol.setNode, second])]
      simp only [Vol.grow, Vol.setNode, Vol.putBlock, update_self]
      rw [overwrite_outside (by omega), update_of_ne firstNew.symm, alloc'.block]
      change v1.block _ _ = 0
      rw [alloc.block]
      exact synced.block_zero tidy (by omega) alloc'.counter_lt (Nat.mod_lt _ (by decide))
    · rw [if_neg (fun both => second both.2), fileByte_of_pointer old,
        fileByte_of_pointer (b := (v.node n).at' (position / 4096))
          (by simpa [Vol.grow, Vol.setNode, Node.setPtr_other second] using here)]
      simp only [Vol.grow, Vol.setNode, Vol.putBlock, update_of_ne hereNew]
      by_cases same : (v.node n).at' (position / 4096) = nd.at' (offset / 4096)
      · have slot : position / 4096 = offset / 4096 := by
          refine distinct _ _ (nd.at' (offset / 4096)) ?_ ?_
          · simpa [Vol.grow, Vol.setNode, Node.setPtr_other second, same] using here
          · simpa [Vol.grow, Vol.setNode, Node.setPtr] using first
        rw [same, update_self, overwrite_outside (by omega), alloc'.block]
        change v1.block _ _ = _
        rw [alloc.block]
      · rw [update_of_ne same, alloc'.block]
        change v1.block _ _ = _
        rw [alloc.block]
end Volumes

def SameByte (inum position : UInt32) (s s' : Serv) : Prop :=
  ∀ buf buf' junk junk', (readFile s inum buf position 1 junk).1 = 0 ∧
    (readFile s' inum buf' position 1 junk').1 = 0 ∧
    (readFile s' inum buf' position 1 junk').2 0 = (readFile s inum buf position 1 junk).2 0

def KeepsOthers (inum offset nbytes : UInt32) (s s' : Serv) : Prop :=
  ∀ position : UInt32, position.toNat < (inodeOf s inum).size.toNat →
    position.toNat < offset.toNat ∨ offset.toNat + nbytes.toNat ≤ position.toNat →
    SameByte inum position s s'

/-- The write stays in one block, or what the file holds behind it in the second
block is zero; if the file ends before that, nothing is asked. -/
def Harmless (inum offset nbytes : UInt32) (s : Serv) : Prop :=
  nbytes.toNat ≤ 4096 - offset.toNat % 4096 ∨
    ∀ position : UInt32, offset.toNat + nbytes.toNat ≤ position.toNat →
      position.toNat < (inodeOf s inum).size.toNat →
      position.toNat < 4096 * (offset.toNat / 4096 + 2) →
      ∀ buf junk, (readFile s inum buf position 1 junk).2 0 = 0

section Serving
variable {inum offset nbytes position : UInt32} {buf : Bytes} {size : Nat}

theorem Covered.read_byte (covered : Covered (v.node inum.toNat) size) (backed : Backed g s v)
    (bit : v.inodeBit inum.toNat = true) (below : position.toNat < size) (buf : Bytes)
    (junk : Junk) :
    (readFile s inum buf position 1 junk).1 = 0 ∧
      (readFile s inum buf position 1 junk).2 0 = fileByte v inum.toNat position.toNat := by
  have one : (1 : UInt32).toNat = 1 := rfl
  obtain ⟨inside, mapped⟩ := Covered.pointer covered below
  have read := readFile_sim backed.sim backed.sound bit buf position 1 (by decide) junk
  rw [one, readFile_oneBlock inside (by omega) mapped] at read
  exact ⟨read.1, (read.2 0 (by decide)).trans rfl⟩

def Orderly (g : Geometry) (s : Serv) : Prop :=
  ∃ v past, Backed g s v ∧ Synced v ∧ FilesSingle v ∧ Fitted v past

theorem oneRun_orderly (started : Started g s) {events : List Event}
    (all : Allowed step OneRun s events) : Orderly g (run step s events) := by
  apply invariant (Orderly g) _ _ all
  · obtain ⟨v, backed, initial⟩ := Started.backed started
    exact ⟨v, _, backed, Initial.synced initial, fun n bit _ => Initial.single initial n bit,
      Initial.fitted initial⟩
  · rintro s event ⟨v, past, backed, synced, single, fitted⟩ allowed
    cases event with
    | restart junk => exact absurd allowed id
    | request request junk =>
      obtain ⟨chance, reply, backed', _, respects⟩ := backed.serve allowed (fun _ => synced) junk
      exact ⟨_, _, backed', respects.synced synced, serve_files backed.sound backed.tidy synced
          (Proper.admissible allowed backed.sim backed.sound) single,
        fitted.serve backed synced allowed reply⟩

/-- What a one-byte read gives after a write that succeeded. -/
theorem write_read_byte (backed : Backed g s v) (synced : Synced v) (single : FilesSingle v)
    {past : UInt32 → Nat} (fitted : Fitted v past) (bit : v.inodeBit inum.toNat = true)
    (file : (v.node inum.toNat).type = ufsRegularFile) (small : nbytes.toNat ≤ 4096) {junk : Junk}
    (success : (writeFile s inum buf offset nbytes ufsRegularFile junk).1 = 0)
    (below : position.toNat < (inodeOf s inum).size.toNat)
    (outside : position.toNat < offset.toNat ∨ offset.toNat + nbytes.toNat ≤ position.toNat)
    (before after : Bytes) (junk1 junk2 : Junk) :
    (readFile s inum before position 1 junk1).1 = 0 ∧
      (readFile (writeFile s inum buf offset nbytes ufsRegularFile junk).2 inum after position 1
        junk2).1 = 0 ∧
      (readFile (writeFile s inum buf offset nbytes ufsRegularFile junk).2 inum after position 1
        junk2).2 0 =
        if 4096 - offset.toNat % 4096 < nbytes.toNat ∧
          position.toNat / 4096 = offset.toNat / 4096 + 1 then 0
        else (readFile s inum before position 1 junk1).2 0 := by
  have bound := backed.sound.hghstAllocDblk_lt
  have covered := fitted.file inum bit file
  rw [inodeOf_size backed.sim inum (backed.sound.inodeBit_lt _ bit), covered.size] at below
  obtain ⟨code, sim'⟩ := writeFile_sim backed.sim backed.sound bit buf offset nbytes ufsRegularFile
    small junk
  have outcome := writeFile_outcome inum.toNat buf offset.toNat nbytes.toNat ufsRegularFile bound
  have respects := writeFile_respects backed.sound backed.tidy synced bit buf offset.toNat
    nbytes.toNat small
  have ok : (v.writeFile g inum.toNat buf offset.toNat nbytes.toNat ufsRegularFile).1 = true :=
    (code_eq_zero _).mp (code.symm.trans success)
  rw [ok] at outcome
  have grown := WriteOutcome.covered outcome bound small covered
  have backed' : Backed g _ _ := ⟨sim', respects.sound, respects.tidy⟩
  obtain ⟨read, value⟩ := Covered.read_byte covered backed bit below before junk1
  obtain ⟨read', value'⟩ := Covered.read_byte grown backed' (respects.inodeBit _ bit)
    (lt_of_lt_of_le below (le_max_left _ _)) after junk2
  refine ⟨read, read', ?_⟩
  rw [value', value]
  exact WriteOutcome.fileByte outcome small backed.sound backed.tidy synced bit
    (single _ bit file) covered below outside
end Serving

/-- A successful write to a regular file keeps all other bytes of the file
exactly if it is harmless. -/
theorem write_keeps_other_bytes_iff (started : Started g s) {events : List Event}
    (all : Allowed step OneRun s events) {inum : UInt32}
    (allocated : Allocated (run step s events) inum)
    (file : (inodeOf (run step s events) inum).type = ufsRegularFile) (buf : Bytes)
    (offset nbytes : UInt32) (small : nbytes.toNat ≤ 4096) (junk : Junk)
    (success : (writeFile (run step s events) inum buf offset nbytes ufsRegularFile junk).1 = 0) :
    KeepsOthers inum offset nbytes (run step s events)
        (writeFile (run step s events) inum buf offset nbytes ufsRegularFile junk).2 ↔
      Harmless inum offset nbytes (run step s events) := by
  obtain ⟨v, past, backed, synced, single, fitted⟩ := oneRun_orderly started all
  have bit := (allocated_iff backed.sim backed.sound inum).mp allocated
  rw [inodeOf_type backed.sim inum (backed.sound.inodeBit_lt _ bit)] at file
  constructor
  · intro keeps
    by_cases short : nbytes.toNat ≤ 4096 - offset.toNat % 4096
    · exact Or.inl short
    · refine Or.inr fun position behind below near before junk1 => ?_
      obtain ⟨_, _, same⟩ := keeps position below (Or.inr behind) before before junk1 junk1
      obtain ⟨_, _, zero⟩ := write_read_byte backed synced single fitted bit file small success
        below (Or.inr behind) before before junk1 junk1
      rw [if_pos ⟨by omega, by omega⟩] at zero
      exact same.symm.trans zero
  · intro harmless position below outside before after junk1 junk2
    obtain ⟨first, second, value⟩ := write_read_byte backed synced single fitted bit file small
      success below outside before after junk1 junk2
    refine ⟨first, second, value.trans ?_⟩
    split
    · rename_i lost
      rcases harmless with short | zeros
      · omega
      · exact (zeros position (by omega) below (by omega) before junk1).symm
    · rfl

section FirstWrites
variable {n offset nbytes : Nat} {buf : Bytes} {type : UInt32}

theorem holes_le (nd : Node) (d : Nat) : holes nd d ≤ d := by
  induction d with
  | zero => exact Nat.le_refl 0
  | succ d ih =>
    simp only [holes]
    cases nd.direct d with
    | none => exact Nat.succ_le_succ ih
    | some b => exact Nat.zero_le _

/-- With a block for every hole and one more, a write that starts early enough
succeeds. -/
theorem writeFile_room (bound : v.hghstAllocDblk < g.numData) (typed : (v.node n).type = type)
    (inside : offset / 4096 < 29) (room : v.hghstAllocDblk + (offset / 4096 + 1) + 1 < g.numData) :
    (v.writeFile g n buf offset nbytes type).1 = true ∧
      (v.writeFile g n buf offset nbytes type).2.hghstAllocDblk ≤
        v.hghstAllocDblk + (offset / 4096 + 1) + 1 := by
  have few := holes_le (v.node n) (offset / 4096 + 1)
  obtain ⟨enough, counter⟩ := (fillHoles_counter (offset / 4096 + 1) bound (v.node n)).1 (by omega)
  have outcome := writeFile_outcome n buf offset nbytes type bound
  generalize v.writeFile g n buf offset nbytes type = result at outcome
  obtain ⟨ok, v'⟩ := result
  cases outcome with
  | refused wrong =>
    rcases wrong with different | beyond
    · exact absurd typed different
    · omega
  | noBlock _ _ _ filled =>
    rw [filled] at enough
    exact absurd rfl enough
  | oneBlock nd v1 _ _ filled _ =>
    rw [filled] at counter
    refine ⟨rfl, ?_⟩
    change v1.hghstAllocDblk ≤ _
    simp only at counter
    omega
  | lastBlock nd v1 _ last filled _ => omega
  | noSecond nd v1 _ _ filled _ full =>
    rw [filled] at counter
    simp only at counter
    omega
  | twoBlocks nd v1 v2 _ _ filled _ _ next =>
    rw [filled] at counter
    refine ⟨rfl, ?_⟩
    change v2.hghstAllocDblk ≤ _
    simp only at counter
    omega
end FirstWrites

section Sevens

def sevens (offset nbytes : UInt32) : Event :=
  .request (.write 1 (fun _ => 7) offset nbytes) noJunk

structure Sevens (offset nbytes : UInt32) (s : Serv) (v : Vol) : Prop where
  backed : Backed smallest s v
  synced : Synced v
  single : FilesSingle v
  fitted : ∃ past, Fitted v past
  bit : v.inodeBit 1 = true
  file : (v.node 1).type = ufsRegularFile
  free : v.hghstAllocDblk ≤ 3
  size : offset.toNat + nbytes.toNat ≤ (v.node 1).size
  bytes : ∃ bytes, v.readFile 1 offset.toNat nbytes.toNat = some bytes ∧
    ∀ index < nbytes.toNat, bytes index = 7

theorem Rooted.fitted {size highest : Nat} {slots : List (Nat × List UInt8 × UInt32)}
    (rooted : Rooted g s size highest slots v) : Fitted v fun _ => 0 := by
  refine ⟨?_, fun _ _ => rfl⟩
  intro inum bit file
  by_cases root : inum.toNat = 0
  · rw [root] at file
    exact absurd file (directory_ne_regular rooted.dir)
  · rw [rooted.files _ (Nat.pos_of_ne_zero root) bit]
    exact covered_fresh _

theorem sevens_written (started : Started smallest s) (offset nbytes : UInt32)
    (early : offset.toNat < 8192) (small : nbytes.toNat ≤ 4096) :
    Allowed step OneRun s [creatA, sevens offset nbytes] ∧
      ∃ v, Sevens offset nbytes (run step s [creatA, sevens offset nbytes]) v := by
  obtain ⟨⟨made, _⟩, v, rooted⟩ := Started.creatA started
  rw [run_cons, run_nil] at rooted
  have ended : run step s [creatA, sevens offset nbytes] =
      serve (step s creatA) (.write 1 (fun _ => 7) offset nbytes) noJunk := by
    simp only [run_cons, run_nil, sevens, step]
  have one : (1 : UInt32).toNat = 1 := rfl
  have proper : Proper (step s creatA) (.write 1 (fun _ => 7) offset nbytes) :=
    ⟨rooted.allocated 1 (by decide), small, show 0 ≤ 28 by decide⟩
  have bit := rooted.bit 1 (le_refl 1)
  have node := rooted.files 1 (by decide) bit
  have bound := rooted.backed.sound.hghstAllocDblk_lt
  have fitted := Rooted.fitted rooted
  obtain ⟨chance, reply, backed', _, respects⟩ :=
    rooted.backed.serve proper (fun _ => rooted.synced) noJunk
  have single := @serve_files _ _ _ chance rooted.backed.sound rooted.backed.tidy rooted.synced
    (proper.admissible rooted.backed.sim rooted.backed.sound)
    (fun n bit _ => rooted.single n bit)
  have counter := rooted.hghstAllocDblk
  obtain ⟨ok, free⟩ := @writeFile_room smallest v 1 offset.toNat nbytes.toNat (fun _ => 7)
    ufsRegularFile bound (by rw [node]; rfl) (by omega)
    (by rw [counter]; change _ < 32; omega)
  have outcome := writeFile_outcome 1 (fun _ => 7) offset.toNat nbytes.toNat ufsRegularFile bound
  have covered := WriteOutcome.covered outcome bound small (fitted.file 1 bit (by rw [one, node]; rfl))
  have type := respects.type rooted.synced 1 bit
  have fitted' := fitted.serve rooted.backed rooted.synced proper reply
  simp only [Vol.serve, one] at backed' respects single fitted' type
  rw [ok] at outcome
  refine ⟨⟨made, proper, trivial⟩,
    (v.writeFile smallest 1 (fun _ => 7) offset.toNat nbytes.toNat ufsRegularFile).2, ?_⟩
  rw [ended]
  refine ⟨backed', respects.synced rooted.synced, single, ⟨_, fitted'⟩, respects.inodeBit 1 bit,
    type.trans (by rw [node]; rfl), by omega, ?_, ?_⟩
  · rw [covered.size, ok]
    exact le_max_right _ _
  · exact WriteOutcome.read_back outcome rooted.backed.sound rooted.synced bit

section
variable {offset nbytes : UInt32} (sevens : Sevens offset nbytes s v)
include sevens

theorem Sevens.write (buf : Bytes)
    {offset' nbytes' : UInt32} (early : offset'.toNat < 8192) (small : nbytes'.toNat ≤ 4096)
    (junk : Junk) : (writeFile s 1 buf offset' nbytes' ufsRegularFile junk).1 = 0 := by
  have free := sevens.free
  have bit : v.inodeBit (1 : UInt32).toNat = true := sevens.bit
  obtain ⟨code, _⟩ := writeFile_sim sevens.backed.sim sevens.backed.sound bit buf offset' nbytes'
    ufsRegularFile small junk
  obtain ⟨ok, _⟩ := @writeFile_room smallest v 1 offset'.toNat nbytes'.toNat buf ufsRegularFile
    sevens.backed.sound.hghstAllocDblk_lt sevens.file (by omega) (by change _ < 32; omega)
  exact code.trans ((code_eq_zero _).mpr ok)

theorem Sevens.allocated :
    Allocated s 1 ∧ (inodeOf s 1).type = ufsRegularFile := by
  have bit : v.inodeBit (1 : UInt32).toNat = true := sevens.bit
  refine ⟨(allocated_iff sevens.backed.sim sevens.backed.sound 1).mpr bit, ?_⟩
  rw [inodeOf_type sevens.backed.sim 1 (by decide)]
  exact sevens.file

theorem Sevens.byte (short : nbytes.toNat ≤ 4096 - offset.toNat % 4096) (index : Nat)
    (inside : index < nbytes.toNat) : fileByte v 1 (offset.toNat + index) = 7 := by
  obtain ⟨past, fitted⟩ := sevens.fitted
  obtain ⟨bytes, result, seven⟩ := sevens.bytes
  have size := sevens.size
  have covered : Covered (v.node 1) (past 1) := fitted.file 1 sevens.bit sevens.file
  rw [covered.size] at size
  obtain ⟨low, mapped⟩ := Covered.pointer covered (show offset.toNat < past 1 by omega)
  rw [readFile_oneBlock low short mapped, Option.some.injEq] at result
  have same : (offset.toNat + index) / 4096 = offset.toNat / 4096 := by omega
  rw [fileByte, same, show (offset.toNat + index) % 4096 = offset.toNat % 4096 + index by omega,
    ← seven index inside, ← result]
end

/-- Overwriting the second of four bytes keeps the three others. -/
theorem overwriting_a_byte_keeps_others : ∃ s, Started smallest s ∧
    Allowed step OneRun s [creatA, sevens 0 4] ∧
    (writeFile (run step s [creatA, sevens 0 4]) 1 (fun _ => 0) 1 1 ufsRegularFile noJunk).1 = 0 ∧
    KeepsOthers 1 1 1 (run step s [creatA, sevens 0 4])
      (writeFile (run step s [creatA, sevens 0 4]) 1 (fun _ => 0) 1 1 ufsRegularFile noJunk).2 := by
  obtain ⟨s, started⟩ := started_exists smallest
  obtain ⟨all, v, written⟩ := sevens_written started 0 4 (by decide) (by decide)
  have success := written.write (fun _ => 0) (show (1 : UInt32).toNat < 8192 by decide)
    (show (1 : UInt32).toNat ≤ 4096 by decide) noJunk
  refine ⟨s, started, all, success, ?_⟩
  exact (write_keeps_other_bytes_iff started all written.allocated.1 written.allocated.2
    (fun _ => 0) 1 1 (by decide) noJunk success).mpr (Or.inl (by decide))

/-- The file has the bytes 4096 and 4097; writing 4095 and 4096 clears 4097. -/
theorem straddling_write_loses_a_byte : ∃ s, Started smallest s ∧
    Allowed step OneRun s [creatA, sevens 4096 2] ∧
    Allocated (run step s [creatA, sevens 4096 2]) 1 ∧
    (inodeOf (run step s [creatA, sevens 4096 2]) 1).type = ufsRegularFile ∧
    (writeFile (run step s [creatA, sevens 4096 2]) 1 (fun _ => 0) 4095 2 ufsRegularFile
      noJunk).1 = 0 ∧
    ¬ KeepsOthers 1 4095 2 (run step s [creatA, sevens 4096 2])
      (writeFile (run step s [creatA, sevens 4096 2]) 1 (fun _ => 0) 4095 2 ufsRegularFile
        noJunk).2 := by
  obtain ⟨s, started⟩ := started_exists smallest
  obtain ⟨all, v, written⟩ := sevens_written started 4096 2 (by decide) (by decide)
  have success := written.write (fun _ => 0) (show (4095 : UInt32).toNat < 8192 by decide)
    (show (2 : UInt32).toNat ≤ 4096 by decide) noJunk
  obtain ⟨past, fitted⟩ := written.fitted
  have bit : v.inodeBit (1 : UInt32).toNat = true := written.bit
  have covered := fitted.file 1 bit written.file
  have size := written.size
  have below : (4097 : UInt32).toNat < (inodeOf (run step s [creatA, sevens 4096 2]) 1).size.toNat := by
    rw [inodeOf_size written.backed.sim 1 (by decide)]
    exact size
  refine ⟨s, started, all, written.allocated.1, written.allocated.2, success, ?_⟩
  intro keeps
  obtain ⟨_, _, same⟩ := keeps 4097 below (Or.inr (by decide)) (fun _ => 0) (fun _ => 0) noJunk
    noJunk
  obtain ⟨_, _, zero⟩ := write_read_byte written.backed written.synced written.single fitted bit
    written.file (by decide) success below (Or.inr (by decide)) (fun _ => 0) (fun _ => 0) noJunk
    noJunk
  rw [if_pos (by decide)] at zero
  have below' : (4097 : UInt32).toNat < past 1 := covered.size ▸ size
  obtain ⟨_, value⟩ := Covered.read_byte covered written.backed bit below' (fun _ => 0) noJunk
  have seven : fileByte v 1 4097 = 7 := written.byte (by decide) 1 (by decide)
  rw [zero, value] at same
  exact absurd (same.trans seven) (by decide)

end Sevens

end OsProjects.WriteFrames
