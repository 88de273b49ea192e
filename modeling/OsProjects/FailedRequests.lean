import OsProjects.FirstFiles

/-!
What a request leaves behind when it is answered -1. Everything is as before,
except on two paths: `creat_file` has taken an inode for a directory when no data
block is left for it, and `write_file` has filled holes, or some of them, before
it finds that the write cannot be done.
-/

namespace OsProjects.FailedRequests

open ByteStore UfsLayout FileServer Volume VolumeSteps VolumeSound VolumeRefinement Runs ServerRuns
  BlockOwnership DirectorySlots FirstFiles

variable {g : Geometry} {s s' : Serv} {v v' : Vol}

structure Unchanged (s s' : Serv) : Prop where
  image : s'.image = s.image
  highestInode : s'.highestInode = s.highestInode
  hghstAllocDblk : s'.hghstAllocDblk = s.hghstAllocDblk

theorem Sim.unchanged (sim : Sim g s v) (sim' : Sim g s' v) : Unchanged s s' := by
  refine ⟨shows_unique sim'.shows' sim.shows', ?_, ?_⟩
  · rw [← UInt32.toNat_inj, sim.highestInode, sim'.highestInode]
  · rw [← UInt32.toNat_inj, sim.hghstAllocDblk, sim'.hghstAllocDblk]

theorem Unchanged.counters (same : Unchanged s s') (sim : Sim g s v) (sim' : Sim g s' v') :
    v'.highestInode = v.highestInode ∧ v'.hghstAllocDblk = v.hghstAllocDblk := by
  rw [← sim.highestInode, ← sim'.highestInode, ← sim.hghstAllocDblk, ← sim'.hghstAllocDblk,
    same.highestInode, same.hghstAllocDblk]
  exact ⟨rfl, rfl⟩

def Leaks (s : Serv) : Request → Prop
  | .creat pinum type _ => (inodeOf s pinum).type = ufsDirectory ∧ type = ufsDirectory ∧
      s.highestInode ≠ s.super.numInodes - 1
  | .write inum _ offset _ => (inodeOf s inum).type = ufsRegularFile ∧ offset / 4096 ≤ 29 ∧
      (inodeOf s inum).ptr (offset / 4096).toNat = minusOne ∧
      s.hghstAllocDblk ≠ s.super.dataRegionLen - 1
  | _ => False

section Volumes

/-- How `fillHoles` starts: with nothing to do, without a block, or by taking one. -/
theorem fillHoles_start (bound : v.hghstAllocDblk < g.numData) (d : Nat) (inside : d < 30)
    (nd : Node) :
    (nd.direct d ≠ none ∧ Vol.fillHoles g (d + 1) v nd = (some nd, v)) ∨
      (nd.direct d = none ∧ v.hghstAllocDblk = g.numData - 1 ∧
        Vol.fillHoles g (d + 1) v nd = (none, v)) ∨
      nd.direct d = none ∧ v.hghstAllocDblk + 1 < g.numData ∧
        v.hghstAllocDblk < (Vol.fillHoles g (d + 1) v nd).2.hghstAllocDblk := by
  simp only [Vol.fillHoles]
  cases hole : nd.direct d with
  | some b => exact Or.inl ⟨Option.some_ne_none b, rfl⟩
  | none =>
    rcases allocDblk_cases bound with ⟨full, none⟩ | ⟨v1, block, alloc, next⟩
    · simp only [none]
      exact Or.inr (Or.inl ⟨trivial, full, trivial⟩)
    · simp only [block]
      have more := (fillHoles_spec d (by omega) alloc.counter_lt
        (nd.setPtr d (g.dataRegionAddr + v1.hghstAllocDblk))).1.counter_le
      have last := alloc.counter_lt
      exact Or.inr (Or.inr ⟨trivial, by omega, by omega⟩)

theorem setNode_same (v : Vol) (n : Nat) : v.setNode n (v.node n) = v := by
  simp [Vol.setNode]

/-- A write that fails has changed nothing, or the data counter. -/
theorem WriteOutcome.failed {n offset nbytes : Nat} {buf : Bytes} {type : UInt32}
    (outcome : WriteOutcome g v n buf offset nbytes type false v')
    (bound : v.hghstAllocDblk < g.numData) :
    (v' = v ∧ ((v.node n).type ≠ type ∨ 29 < offset / 4096 ∨
        (v.node n).direct (offset / 4096) ≠ none ∨ v.hghstAllocDblk = g.numData - 1)) ∨
      v.hghstAllocDblk < v'.hghstAllocDblk ∧ (v.node n).type = type ∧ offset / 4096 ≤ 29 ∧
        (v.node n).direct (offset / 4096) = none ∧ v.hghstAllocDblk + 1 < g.numData := by
  -- the two late failures store the node that `fillHoles` returned
  have late : ∀ nd v1, (v.node n).type = type → offset / 4096 ≤ 29 →
      Vol.fillHoles g (offset / 4096 + 1) v (v.node n) = (some nd, v1) →
      (v1.setNode n nd = v ∧ (v.node n).direct (offset / 4096) ≠ none) ∨
        v.hghstAllocDblk < v1.hghstAllocDblk ∧ (v.node n).direct (offset / 4096) = none ∧
          v.hghstAllocDblk + 1 < g.numData := by
    intro nd v1 typed inside filled
    rcases fillHoles_start bound (offset / 4096) (by omega) (v.node n) with
      ⟨mapped, result⟩ | ⟨_, _, result⟩ | ⟨hole, room, taken⟩
    · cases filled.symm.trans result
      exact Or.inl ⟨setNode_same v n, mapped⟩
    · cases filled.symm.trans result
    · rw [filled] at taken
      exact Or.inr ⟨taken, hole, room⟩
  cases outcome with
  | refused wrong =>
    refine Or.inl ⟨rfl, ?_⟩
    rcases wrong with different | beyond
    · exact Or.inl different
    · exact Or.inr (Or.inl beyond)
  | noBlock v1 typed inside filled =>
    rcases fillHoles_start bound (offset / 4096) (by omega) (v.node n) with
      ⟨_, result⟩ | ⟨_, full, result⟩ | ⟨hole, room, taken⟩
    · cases filled.symm.trans result
    · cases filled.symm.trans result
      exact Or.inl ⟨rfl, Or.inr (Or.inr (Or.inr full))⟩
    · rw [filled] at taken
      exact Or.inr ⟨taken, typed, inside, hole, room⟩
  | lastBlock nd v1 typed last filled long | noSecond nd v1 typed inside filled long full =>
    rcases late nd v1 typed (by omega) filled with ⟨same, mapped⟩ | ⟨taken, hole, room⟩
    · exact Or.inl ⟨same, Or.inr (Or.inr (Or.inl mapped))⟩
    · exact Or.inr ⟨taken, typed, by omega, hole, room⟩

/-- A creat that fails has changed nothing, or the inode counter. -/
theorem CreatOutcome.failed {p : Nat} {type : UInt32} {name : List UInt8} {chance : Chance}
    (outcome : CreatOutcome g v p type name chance false v') (sound : Sound g v) :
    (v' = v ∧ ((v.node p).type ≠ ufsDirectory ∨ v.highestInode = g.numInodes - 1)) ∨
      v'.highestInode = v.highestInode + 1 ∧ (v.node p).type = ufsDirectory ∧
        type = ufsDirectory ∧ v.highestInode + 1 < g.numInodes := by
  cases outcome with
  | notDir file => exact Or.inl ⟨rfl, Or.inl file⟩
  | noInode dir absent full => exact Or.inl ⟨rfl, Or.inr full⟩
  | noBlock dir absent room isDir full =>
    exact Or.inr ⟨newInode_highestInode sound room type, dir, isDir, room⟩

theorem unlinkFile_failed {p : Nat} {name : List UInt8} {refuse : Bool}
    (failed : (v.unlinkFile p name refuse).1 = false) : (v.unlinkFile p name refuse).2 = v := by
  revert failed
  unfold Vol.unlinkFile
  cases v.lookup p name with
  | none => exact fun _ => rfl
  | some slot =>
    cases refuse with
    | true => exact fun _ => rfl
    | false => intro impossible; cases impossible

end Volumes

theorem eq_last {word : UInt32} {count : Nat} (some : 0 < count) (small : count < 4294967296) :
    word = UInt32.ofNat count - 1 ↔ word.toNat = count - 1 := by
  have size := toNat_ofNat_lt small
  have last : (UInt32.ofNat count - 1).toNat = count - 1 := by
    rw [UInt32.toNat_sub_of_le _ _ (by rw [UInt32.le_iff_toNat_le, size]; exact some), size]
    rfl
  rw [← UInt32.toNat_inj, last]

theorem highestInode_last (sim : Sim g s v) :
    s.highestInode = s.super.numInodes - 1 ↔ v.highestInode = g.numInodes - 1 := by
  have layout := g.layout
  rw [sim.super, ← sim.highestInode]
  exact eq_last (by omega) (by omega)

theorem hghstAllocDblk_last (sim : Sim g s v) :
    s.hghstAllocDblk = s.super.dataRegionLen - 1 ↔ v.hghstAllocDblk = g.numData - 1 := by
  have layout := g.layout
  rw [sim.super, ← sim.hghstAllocDblk]
  exact eq_last (by omega) (by omega)

theorem code_failed {ok : Bool} : Vol.code ok = minusOne ↔ ok = false := by
  cases ok with
  | false => exact ⟨fun _ => rfl, fun _ => rfl⟩
  | true =>
    exact ⟨fun impossible => absurd impossible (by decide), fun impossible => by cases impossible⟩

/-- A failed write that moves the volume from `v` to `v'` changes nothing exactly
if it does not leak. -/
theorem write_unchanged_iff {inum offset nbytes : UInt32} {buf : Bytes} (sim : Sim g s v)
    (sim' : Sim g s' v') (sound : Sound g v) (inside : inum.toNat < g.numInodes)
    (outcome : WriteOutcome g v inum.toNat buf offset.toNat nbytes.toNat ufsRegularFile false v') :
    Unchanged s s' ↔ ¬ Leaks s (.write inum buf offset nbytes) := by
  simp only [Leaks, inodeOf_type sim inum inside, inodeOf_hole sim inum inside,
    hghstAllocDblk_last sim, UInt32.le_iff_toNat_le, toNat_div_block, ne_eq]
  rcases WriteOutcome.failed outcome sound.hghstAllocDblk_lt with
    ⟨same, reason⟩ | ⟨taken, typed, small, hole, room⟩
  · rw [same] at sim'
    refine iff_of_true (Sim.unchanged sim sim') ?_
    rintro ⟨typed, small, hole, room⟩
    rcases reason with different | beyond | mapped | full
    · exact different typed
    · exact absurd small (Nat.not_le.mpr beyond)
    · exact mapped hole
    · exact room full
  · refine iff_of_false ?_ ?_
    · intro same
      have counter := (same.counters sim sim').2
      omega
    · exact not_not.mpr ⟨typed, small, hole, by omega⟩

theorem creat_unchanged_iff {pinum type : UInt32} {name : List UInt8} {chance : Chance}
    (sim : Sim g s v) (sim' : Sim g s' v') (sound : Sound g v) (inside : pinum.toNat < g.numInodes)
    (outcome : CreatOutcome g v pinum.toNat type name chance false v') :
    Unchanged s s' ↔ ¬ Leaks s (.creat pinum type name) := by
  simp only [Leaks, inodeOf_type sim pinum inside, highestInode_last sim, ne_eq]
  rcases CreatOutcome.failed outcome sound with ⟨same, reason⟩ | ⟨taken, dir, isDir, room⟩
  · rw [same] at sim'
    refine iff_of_true (Sim.unchanged sim sim') ?_
    rintro ⟨dir, _, room⟩
    rcases reason with file | full
    · exact file dir
    · exact room full
  · refine iff_of_false ?_ ?_
    · intro same
      have counter := (same.counters sim sim').1
      omega
    · exact not_not.mpr ⟨dir, isDir, by omega⟩

/-- In every state of any number of sessions a failed request changes nothing
exactly if it is not one that leaks. -/
theorem failed_requests_change_nothing (started : Started g s) {events : List Event}
    (all : Allowed step Sessions s events) {request : Request} {junk : Junk}
    (proper : Proper (run step s events) request)
    (failed : replyCode (run step s events) request junk = minusOne) :
    Unchanged (run step s events) (serve (run step s events) request junk) ↔
      ¬ Leaks (run step s events) request := by
  obtain ⟨v, sim, sound⟩ := sessions_sound started all
  generalize run step s events = s at *
  have admissible := proper.admissible sim sound
  have inside := sound.inodeBit_lt _ admissible.allocated
  obtain ⟨chance, reply, sim', _⟩ := serve_sim sim sound admissible junk
  rw [failed] at reply
  cases request with
  | lookup | stat | read => exact iff_of_true (Sim.unchanged sim sim') id
  | write inum buf offset nbytes =>
    have outcome := writeFile_outcome inum.toNat buf offset.toNat nbytes.toNat ufsRegularFile
      sound.hghstAllocDblk_lt
    simp only [Vol.serve] at reply sim'
    rw [code_failed.mp reply.symm] at outcome
    exact write_unchanged_iff sim sim' sound inside outcome
  | creat pinum type name =>
    have outcome := creatFile_outcome sound pinum.toNat type name chance
    simp only [Vol.serve] at reply sim'
    rw [code_failed.mp reply.symm] at outcome
    exact creat_unchanged_iff sim sim' sound inside outcome
  | unlink pinum name =>
    simp only [Vol.serve] at reply sim'
    rw [unlinkFile_failed (code_failed.mp reply.symm)] at sim'
    exact iff_of_true (Sim.unchanged sim sim') id

/-- A directory is not made inside a file, and nothing changes. -/
theorem creat_in_a_file_changes_nothing : ∃ s, Allowed step Sessions s [creatA] ∧
    replyCode (run step s [creatA]) (.creat 1 ufsDirectory [98]) noJunk = minusOne ∧
      Unchanged (run step s [creatA])
        (serve (run step s [creatA]) (.creat 1 ufsDirectory [98]) noJunk) := by
  obtain ⟨s, started⟩ := started_exists smallest
  obtain ⟨⟨properA, _⟩, v, rooted⟩ := Started.creatA started
  have all : Allowed step Sessions s [creatA] := ⟨properA, trivial⟩
  have file : (v.node (1 : UInt32).toNat).type = ufsRegularFile :=
    congrArg Node.type (rooted.files 1 (by decide) (rooted.bit 1 (le_refl _)))
  have notDir : ufsRegularFile ≠ ufsDirectory := by decide
  have proper : Proper (run step s [creatA]) (.creat 1 ufsDirectory [98]) :=
    ⟨rooted.allocated 1 (le_refl _), Nat.zero_le _, by decide⟩
  obtain ⟨chance, reply, _⟩ := serve_sim rooted.backed.sim rooted.backed.sound
    (proper.admissible rooted.backed.sim rooted.backed.sound) noJunk
  have failed : replyCode (run step s [creatA]) (.creat 1 ufsDirectory [98]) noJunk = minusOne := by
    rw [reply]
    simp only [Vol.serve, Vol.creatFile, file, notDir, ne_eq, not_false_eq_true, ↓reduceIte]
    rfl
  refine ⟨s, all, failed, (failed_requests_change_nothing started all proper failed).mpr ?_⟩
  rintro ⟨dir, _⟩
  rw [inodeOf_type rooted.backed.sim 1 (by decide), file] at dir
  exact notDir dir

def beyondTheEnd : Request := .write 1 (fun _ => 0) 118785 4096

/-- The write fails after it has given the file 30 blocks. -/
theorem failed_write_takes_blocks : ∃ s, Started smallest s ∧ Allowed step OneRun s [creatA] ∧
    Proper (run step s [creatA]) beyondTheEnd ∧
    replyCode (run step s [creatA]) beyondTheEnd noJunk = minusOne ∧
      ¬ Unchanged (run step s [creatA]) (serve (run step s [creatA]) beyondTheEnd noJunk) := by
  obtain ⟨s, started⟩ := started_exists smallest
  obtain ⟨all, v, rooted⟩ := Started.creatA started
  have proper : Proper (run step s [creatA]) beyondTheEnd :=
    ⟨rooted.allocated 1 (le_refl _), le_refl _, Nat.zero_le _⟩
  have node : v.node (1 : UInt32).toNat = Node.fresh ufsRegularFile :=
    rooted.files 1 (by decide) (rooted.bit 1 (le_refl _))
  have bound := rooted.backed.sound.hghstAllocDblk_lt
  have first := rooted.hghstAllocDblk
  obtain ⟨chance, reply, sim', _⟩ := serve_sim rooted.backed.sim rooted.backed.sound
    (proper.admissible rooted.backed.sim rooted.backed.sound) noJunk
  have outcome := writeFile_outcome (1 : UInt32).toNat (fun _ => 0) (118785 : UInt32).toNat
    (4096 : UInt32).toNat ufsRegularFile bound
  simp only [beyondTheEnd, Vol.serve] at reply sim'
  generalize v.writeFile smallest (1 : UInt32).toNat (fun _ => 0) (118785 : UInt32).toNat
    (4096 : UInt32).toNat ufsRegularFile = result at outcome reply sim'
  obtain ⟨ok, v'⟩ := result
  simp only [UInt32.reduceToNat] at outcome reply sim' node
  cases ok with
  | true =>
    -- neither of the two ends with success starts so late
    cases outcome with
    | oneBlock | twoBlocks => omega
  | false =>
    refine ⟨s, started, all, proper, reply, ?_⟩
    intro same
    have counter := (same.counters rooted.backed.sim sim').2
    rcases WriteOutcome.failed outcome bound with ⟨_, reason⟩ | ⟨taken, _⟩
    · rw [node, first] at reason
      rcases reason with different | beyond | mapped | full
      · exact different rfl
      · omega
      · exact mapped rfl
      · exact absurd full (by decide)
    · omega

end OsProjects.FailedRequests
