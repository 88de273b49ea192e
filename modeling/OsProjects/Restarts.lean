import OsProjects.FileContents

/-!
Several sessions on one image. A restart puts both allocator counters back to
zero, whatever the bitmaps say. As long as a request that allocates is served
only while the counters stand at the last set bits, the allocators hand out what
is free, and a file changes only by requests on itself. The first `Creat` after
a restart can take the inode of an existing file.
-/

namespace OsProjects.Restarts

open UfsLayout FileServer Volume VolumeSound VolumeRefinement Runs ServerRuns DirectoryBlocks
  BlockOwnership DirectorySlots FirstFiles FileContents

variable {g : Geometry} {s : Serv} {v : Vol}

structure CountersCurrent (s : Serv) : Prop where
  inodes : ∀ n < s.super.numInodes.toNat, inodeBit s n = true → n ≤ s.highestInode.toNat
  blocks : ∀ k < s.super.dataRegionLen.toNat, dataBit s k = true → k ≤ s.hghstAllocDblk.toNat

def Current (s : Serv) : Event → Prop
  | .request request _ => Allocating request → CountersCurrent s
  | .restart _ => True

/-- The numbers a request was given had clear bits. `new_inode` and `alloc_dblk`
add one to their counter and return it (`alloc_dblk` counts from the data
region), so these are the numbers the counters have passed. -/
structure HandsOutFree (s s' : Serv) : Prop where
  inodes : ∀ n, s.highestInode.toNat < n → n ≤ s'.highestInode.toNat → inodeBit s n = false
  blocks : ∀ k, s.hghstAllocDblk.toNat < k → k ≤ s'.hghstAllocDblk.toNat → dataBit s k = false

def Changes (s : Serv) (file : UInt32) : Event → Prop
  | .request (.write inum _ _ _) _ => inum = file
  | .request (.creat pinum _ _) _ => pinum = file ∧ (inodeOf s file).type = ufsDirectory
  | .request (.unlink pinum _) _ => pinum = file ∧ (inodeOf s file).type = ufsDirectory
  | _ => False

theorem CountersCurrent.inode_le (current : CountersCurrent s) (sim : Sim g s v)
    (sound : Sound g v) {n : Nat} (bit : v.inodeBit n = true) : n ≤ v.highestInode := by
  have layout := g.layout
  have inside := sound.inodeBit_lt n bit
  have count : s.super.numInodes.toNat = g.numInodes := by
    rw [sim.super]
    exact toNat_ofNat_lt (by omega)
  rw [← sim.highestInode]
  exact current.inodes n (by omega) (by rw [inodeBit_eq sim n inside, bit])

theorem CountersCurrent.block_le (current : CountersCurrent s) (sim : Sim g s v) {k : Nat}
    (inside : k < g.numData) (bit : v.dataBit k = true) : k ≤ v.hghstAllocDblk := by
  have layout := g.layout
  have count : s.super.dataRegionLen.toNat = g.numData := by
    rw [sim.super]
    exact toNat_ofNat_lt (by omega)
  rw [← sim.hghstAllocDblk]
  exact current.blocks k (by omega) (by rw [dataBit_eq sim k inside, bit])

theorem CountersCurrent.synced (current : CountersCurrent s) (backed : Backed g s v) : Synced v :=
  ⟨fun _ bit => current.inode_le backed.sim backed.sound bit,
    fun k bit => current.block_le backed.sim (backed.tidy.dataBit_lt k bit) bit⟩

theorem Synced.countersCurrent (synced : Synced v) (backed : Backed g s v) : CountersCurrent s := by
  have layout := g.layout
  obtain ⟨sim, sound, _⟩ := backed
  constructor
  · intro n inside bit
    rw [sim.super] at inside
    have inside : n < g.numInodes := lt_of_lt_of_eq inside (toNat_ofNat_lt (by omega))
    rw [inodeBit_eq sim n inside] at bit
    rw [sim.highestInode]
    exact synced.inodes n bit
  · intro k inside bit
    rw [sim.super] at inside
    have inside : k < g.numData := lt_of_lt_of_eq inside (toNat_ofNat_lt (by omega))
    rw [dataBit_eq sim k inside] at bit
    rw [sim.hghstAllocDblk]
    exact synced.blocks k bit

theorem handsOutFree {s' : Serv} {v' : Vol} (backed : Backed g s v) (backed' : Backed g s' v')
    (fresh : v'.highestInode ≠ v.highestInode ∨ v'.hghstAllocDblk ≠ v.hghstAllocDblk → Synced v) :
    HandsOutFree s s' := by
  have bound := backed'.sound.highestInode_lt
  have bound' := backed'.sound.hghstAllocDblk_lt
  constructor
  · intro n above below
    rw [backed.sim.highestInode] at above
    rw [backed'.sim.highestInode] at below
    rw [inodeBit_eq backed.sim n (by omega)]
    by_contra set
    have := (fresh (Or.inl (by omega))).inodes n (by simpa using set)
    omega
  · intro k above below
    rw [backed.sim.hghstAllocDblk] at above
    rw [backed'.sim.hghstAllocDblk] at below
    rw [dataBit_eq backed.sim k (by omega)]
    by_contra set
    have := (fresh (Or.inr (by omega))).blocks k (by simpa using set)
    omega

theorem serve_counters (g : Geometry) (v : Vol) {request : Request} (plain : ¬ Allocating request)
    (chance : Chance) : (v.serve g request chance).2.highestInode = v.highestInode ∧
      (v.serve g request chance).2.hghstAllocDblk = v.hghstAllocDblk := by
  cases request with
  | write | creat => exact absurd trivial plain
  | lookup | stat | read => exact ⟨rfl, rfl⟩
  | unlink pinum name =>
    simp only [Vol.serve, Vol.unlinkFile]
    cases v.lookup pinum.toNat name with
    | none => exact ⟨rfl, rfl⟩
    | some slot =>
      cases chance.refuse with
      | true | false => exact ⟨rfl, rfl⟩

theorem serve_notDir {request : Request} {p : Nat} (notDir : (v.node p).type ≠ ufsDirectory)
    (parent : (∃ pinum type name, request = .creat pinum type name ∧ pinum.toNat = p) ∨
      ∃ pinum name, request = .unlink pinum name ∧ pinum.toNat = p) (chance : Chance) :
    (v.serve g request chance).2 = v := by
  rcases parent with ⟨pinum, type, name, rfl, rfl⟩ | ⟨pinum, name, rfl, rfl⟩
  · simp [Vol.serve, Vol.creatFile, notDir]
  · simp [Vol.serve, Vol.unlinkFile, Vol.lookup, notDir]

/-- A request that does not change a file leaves it alone. -/
theorem serve_apart (backed : Backed g s v) {request : Request} {junk : Junk} {chance : Chance}
    {file : UInt32} (bit : v.inodeBit file.toNat = true)
    (kept : ¬ Changes s file (.request request junk))
    (respects : Respects g (fun m => m = (inode request).toNat) v (v.serve g request chance).2) :
    Apart file.toNat v (v.serve g request chance).2 := by
  by_cases named : file = inode request
  · have type := inodeOf_type backed.sim file (backed.sound.inodeBit_lt _ bit)
    have same : (v.serve g request chance).2 = v := by
      cases request with
      | lookup | stat | read => rfl
      | write inum buf offset nbytes => exact absurd named.symm kept
      | creat pinum kind name =>
        subst named
        exact serve_notDir (fun dir => kept ⟨rfl, type.trans dir⟩)
          (Or.inl ⟨_, kind, name, rfl, rfl⟩) chance
      | unlink pinum name =>
        subst named
        exact serve_notDir (fun dir => kept ⟨rfl, type.trans dir⟩)
          (Or.inr ⟨_, name, rfl, rfl⟩) chance
    rw [same]
    exact Apart.refl _ v
  · exact respects.apart _ (fun same => named (UInt32.toNat_inj.mp same)) bit

theorem step_current (backed : Backed g s v) {event : Event} (proper : Sessions s event)
    (current : Current s event) :
    ∃ v', Backed g (step s event) v' ∧
      ∀ file : UInt32, v.inodeBit file.toNat = true → ¬ Changes s file event →
        v'.inodeBit file.toNat = true ∧ Apart file.toNat v v' := by
  cases event with
  | restart junk =>
    exact ⟨_, backed.restart junk, fun file bit _ => ⟨bit, rfl, fun _ _ _ => rfl⟩⟩
  | request request junk =>
    obtain ⟨chance, _, backed', _, respects⟩ := backed.serve proper
      (fun allocating => (current allocating).synced backed) junk
    exact ⟨_, backed', fun file bit kept =>
      ⟨respects.inodeBit _ bit, serve_apart backed bit kept respects⟩⟩

theorem run_current (started : Started g s) {events : List Event}
    (all : Allowed step (fun s event => Sessions s event ∧ Current s event) s events) :
    ∃ v, Backed g (run step s events) v := by
  apply invariant (fun s => ∃ v, Backed g s v) _ _ all
  · obtain ⟨v, backed, _⟩ := Started.backed started
    exact ⟨v, backed⟩
  · rintro s event ⟨v, backed⟩ ⟨proper, current⟩
    obtain ⟨v', backed', _⟩ := step_current backed proper current
    exact ⟨v', backed'⟩

/-- A file nobody changes stays the same through any number of sessions. -/
theorem run_apart (backed : Backed g s v) {file : UInt32} (bit : v.inodeBit file.toNat = true)
    {events : List Event} (all : Allowed step
      (fun s event => (Sessions s event ∧ Current s event) ∧ ¬ Changes s file event) s events) :
    ∃ v', Backed g (run step s events) v' ∧ v'.inodeBit file.toNat = true ∧
      Apart file.toNat v v' := by
  induction events generalizing s v with
  | nil => exact ⟨v, backed, bit, Apart.refl _ v⟩
  | cons event rest ih =>
    obtain ⟨⟨⟨proper, current⟩, kept⟩, later⟩ := all
    obtain ⟨v', backed', same⟩ := step_current backed proper current
    obtain ⟨bit', apart⟩ := same file bit kept
    obtain ⟨v'', backed'', bit'', apart'⟩ := ih backed' bit' later
    exact ⟨v'', backed'', bit'', apart.trans apart'⟩

/-- In every run of sessions whose allocating requests meet current counters,
the allocators hand out numbers with clear bits, and a file keeps its inode and
its contents through any further sessions that do not change it. -/
theorem current_counters_keep_files (started : Started g s) {events : List Event}
    (all : Allowed step (fun s event => Sessions s event ∧ Current s event) s events) :
    (∀ request junk, Sessions (run step s events) (.request request junk) →
      Current (run step s events) (.request request junk) →
        HandsOutFree (run step s events) (serve (run step s events) request junk)) ∧
      ∀ file later, Allocated (run step s events) file →
        Allowed step (fun s event => (Sessions s event ∧ Current s event) ∧ ¬ Changes s file event)
          (run step s events) later →
        SameFile file (run step s events) (run step s (events ++ later)) := by
  obtain ⟨v, backed⟩ := run_current started all
  constructor
  · intro request junk proper current
    obtain ⟨chance, _, backed', _, _⟩ := backed.serve proper
      (fun allocating => (current allocating).synced backed) junk
    apply handsOutFree backed backed'
    intro moved
    by_cases allocating : Allocating request
    · exact (current allocating).synced backed
    · obtain ⟨inodes, blocks⟩ := serve_counters g v allocating chance
      rcases moved with first | second
      · exact absurd inodes first
      · exact absurd blocks second
  · intro file later allocated kept
    have bit := (allocated_iff backed.sim backed.sound file).mp allocated
    obtain ⟨v', backed', bit', apart⟩ := run_apart backed bit kept
    rw [run_append]
    exact Apart.sameFile apart backed backed' bit bit'

/-- A new file is there after a restart. -/
theorem new_file_survives_restart : ∃ s,
    Allowed step (fun s event => Sessions s event ∧ Current s event) s [creatA] ∧
      SameFile 1 (run step s [creatA]) (run step s ([creatA] ++ [.restart noJunk])) := by
  obtain ⟨s, started⟩ := started_exists smallest
  obtain ⟨v, rooted⟩ := Started.rooted started
  obtain ⟨⟨proper, _⟩, v', rooted'⟩ := Started.creatA started
  have all : Allowed step (fun s event => Sessions s event ∧ Current s event) s [creatA] :=
    ⟨⟨proper, fun _ => Synced.countersCurrent rooted.synced rooted.backed⟩, trivial⟩
  exact ⟨s, all, (current_counters_keep_files started all).2 1 [.restart noJunk]
    (rooted'.allocated 1 (le_refl _)) ⟨⟨⟨trivial, trivial⟩, id⟩, trivial⟩⟩

def creatB : Event := .request (.creat 0 ufsDirectory [98]) noJunk

/-- What it does in the second session, with inode 1 in use. -/
theorem restarted_creatB {size : Nat} {slots : List (Nat × List UInt8 × UInt32)}
    (rooted : Rooted smallest s size 1 slots v) (missing : ∀ k inum, (k, [98], inum) ∉ slots) :
    Proper (step s (.restart noJunk)) (.creat 0 ufsDirectory [98]) ∧
      inodeBit (step s (.restart noJunk)) 1 = true ∧
      (step s (.restart noJunk)).highestInode = 0 ∧
      (step (step s (.restart noJunk)) creatB).highestInode = 1 ∧
      (inodeOf (step (step s (.restart noJunk)) creatB) 1).type = ufsDirectory := by
  have named : FileName [98] := ⟨by decide, by decide, by decide⟩
  have bit := rooted.bit 0 (Nat.zero_le _)
  have backed := rooted.backed.restart noJunk
  have proper : Proper (step s (.restart noJunk)) (.creat 0 ufsDirectory [98]) :=
    ⟨(allocated_iff backed.sim backed.sound 0).mpr bit, Nat.zero_le _, by decide⟩
  have admissible := proper.admissible backed.sim backed.sound
  obtain ⟨chance, _, sim', _⟩ := serve_sim backed.sim backed.sound admissible noJunk
  -- the lookup does not depend on the counters
  have absent : (restarted v).lookup 0 [98] = none := rooted.absent named missing
  have room : (restarted v).highestInode + 1 < smallest.numInodes := show 0 + 1 < 32 by decide
  have block : (restarted v).hghstAllocDblk + ownBlocks ufsDirectory < smallest.numData :=
    show 0 + 1 < 32 by decide
  have result := creat_absent backed.sound (p := 0) rooted.dir absent room block chance
  have bit1 := (opened_bit backed.sound room 0 ufsDirectory chance 0).mpr (Or.inl bit)
  have touches := addEntry_touches (opened_sound backed.sound room 0 ufsDirectory chance) bit1
    ((restarted v).highestInode + 1) [98] chance.entry
  simp only [Vol.serve, UInt32.toNat_zero, result] at sim'
  refine ⟨proper, ?_, rfl, ?_, ?_⟩
  · exact (inodeBit_eq backed.sim 1 (by decide)).trans (rooted.bit 1 (le_refl _))
  · apply UInt32.toNat_inj.mp
    exact sim'.highestInode.trans (touches.highestInode.trans
      (opened_highestInode backed.sound room 0 ufsDirectory chance))
  · obtain ⟨node, _⟩ := opened_dir backed.sound (p := 0) room block (by decide) chance
    refine (inodeOf_type sim' 1 (by decide)).trans ?_
    rw [touches.others _ (by decide)]
    exact congrArg Node.type node

/-- The first `Creat` of the second session is given inode 1, and the file that
has it becomes a directory. -/
theorem creat_after_restart_takes_an_inode : ∃ s, Started smallest s ∧
    Allowed step Sessions s [creatA, .restart noJunk, creatB] ∧
      ¬ HandsOutFree (run step s [creatA, .restart noJunk])
        (run step s [creatA, .restart noJunk, creatB]) ∧
      (inodeOf (run step s [creatA]) 1).type = ufsRegularFile ∧
      (inodeOf (run step s [creatA, .restart noJunk, creatB]) 1).type = ufsDirectory := by
  obtain ⟨s, started⟩ := started_exists smallest
  obtain ⟨⟨proper, _⟩, v, rooted⟩ := Started.creatA started
  obtain ⟨properB, taken, zero, counter, type⟩ := restarted_creatB rooted (by simp [dot, dotDot])
  simp only [run_cons, run_nil] at *
  refine ⟨s, started, ⟨proper, trivial, properB, trivial⟩, ?_, ?_, type⟩
  · intro free
    have clear := free.inodes 1 (by rw [zero]; decide) (by rw [counter]; decide)
    exact absurd (taken.symm.trans clear) (by decide)
  · have file := rooted.files 1 (by decide) (rooted.bit 1 (le_refl _))
    exact (inodeOf_type rooted.backed.sim 1 (by decide)).trans (congrArg Node.type file)

end OsProjects.Restarts
