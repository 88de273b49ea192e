import OsProjects.FileContents

/-!
The size of a regular file. The pointers in use are always the first ones, up
to one that covers the size: the loop of `write_file` that fills holes from the
target block downwards stops at the first mapped pointer, and with pointers in
this order it has then filled all of them. The size is the end of the furthest
write that was answered 0, over the whole run. Writes that fail after they have
taken blocks keep both.
-/

namespace OsProjects.FileSizes

open ByteStore UfsLayout FileServer Volume VolumeSteps VolumeSound VolumeRefinement MkfsImage Runs
  ServerRuns BlockOwnership DirectorySlots FirstFiles FileContents

variable {g : Geometry} {s s' : Serv} {v v' v'' : Vol} {n : Nat}

structure Covered (nd : Node) (size : Nat) : Prop where
  size : nd.size = size
  mapped : ∃ count ≤ 30, (∀ i, nd.direct i ≠ none ↔ i < count) ∧ nd.size ≤ 4096 * count

theorem covered_fresh (type : UInt32) : Covered (Node.fresh type) 0 :=
  ⟨rfl, 0, Nat.zero_le _, by simp [Node.fresh], le_refl _⟩

section Writing
variable {offset nbytes : Nat} {buf : Bytes} {type : UInt32}

/-- Pointers `d..top` have been filled; the loop goes on downwards and meets the
old ones. -/
theorem fillHoles_order (d : Nat) {count top : Nat} (below : d ≤ top) {nd nd' : Node}
    (order : ∀ i, nd.direct i ≠ none ↔ i < count ∨ d ≤ i ∧ i < top)
    (filled : Vol.fillHoles g d v nd = (some nd', v')) (i : Nat) :
    nd'.direct i ≠ none ↔ i < max count top := by
  induction d generalizing v nd with
  | zero =>
    cases filled
    rw [order]
    omega
  | succ d ih =>
    simp only [Vol.fillHoles] at filled
    cases here : nd.direct d with
    | some b =>
      simp only [here] at filled
      cases filled
      have used := (order d).mp (by simp [here])
      rw [order]
      omega
    | none =>
      simp only [here] at filled
      have hole : ¬ (d < count ∨ d + 1 ≤ d ∧ d < top) := fun used => (order d).mpr used here
      rcases alloc : v.allocDblk g with ⟨_ | b, v1⟩
      · simp [alloc] at filled
      · simp only [alloc] at filled
        refine ih (by omega) ?_ filled
        intro j
        by_cases same : j = d
        · subst same
          simp only [Node.setPtr_same, ne_eq, reduceCtorEq, not_false_eq_true, true_iff]
          omega
        · rw [Node.setPtr_other same, order]
          omega

theorem Covered.filled {size : Nat} (covered : Covered (v.node n) size) {nd : Node}
    (bound : v.hghstAllocDblk < g.numData) (inside : offset / 4096 ≤ 29)
    (filled : Vol.fillHoles g (offset / 4096 + 1) v (v.node n) = (some nd, v')) :
    nd.size = size ∧ ∃ count ≤ 30, offset / 4096 < count ∧ (∀ i, nd.direct i ≠ none ↔ i < count) ∧
      size ≤ 4096 * count := by
  obtain ⟨same, count, few, order, reach⟩ := covered
  obtain ⟨_, found⟩ := filled_spec bound inside filled
  refine ⟨(found nd rfl).2.1.trans same, max count (offset / 4096 + 1), by omega, by omega, ?_,
    by omega⟩
  refine fillHoles_order _ (le_refl _) ?_ filled
  intro i
  rw [order]
  omega

/-- A write that fails late stores the node with its holes filled. -/
theorem Covered.stored {size : Nat} (covered : Covered (v.node n) size) {nd : Node}
    (bound : v.hghstAllocDblk < g.numData) (inside : offset / 4096 ≤ 29)
    (filled : Vol.fillHoles g (offset / 4096 + 1) v (v.node n) = (some nd, v')) :
    Covered ((v'.setNode n nd).node n) size := by
  obtain ⟨same, count, few, _, order, reach⟩ := covered.filled bound inside filled
  simp only [Vol.setNode, Function.update_self]
  exact ⟨same, count, few, order, same.trans_le reach⟩

/-- A write moves the size to its end if it succeeds, and never breaks the order
of the pointers. -/
theorem WriteOutcome.covered {ok : Bool} {size : Nat}
    (outcome : WriteOutcome g v n buf offset nbytes type ok v')
    (bound : v.hghstAllocDblk < g.numData) (small : nbytes ≤ 4096)
    (covered : Covered (v.node n) size) :
    Covered (v'.node n) (max size (if ok then offset + nbytes else 0)) := by
  cases outcome with
  | refused wrong => simpa using covered
  | noBlock v1 typed inside filled =>
    rw [(filled_spec bound inside filled).1.node]
    simpa using covered
  | oneBlock nd v1 typed inside filled short =>
    obtain ⟨same, count, few, reached, order, reach⟩ := covered.filled bound inside filled
    refine ⟨?_, count, few, ?_, ?_⟩ <;> simp only [Vol.grow, Vol.setNode, Function.update_self, if_true]
    · omega
    · exact order
    · omega
  | lastBlock nd v1 typed last filled long | noSecond nd v1 typed inside filled long full =>
    simpa using covered.stored bound (by omega) filled
  | twoBlocks nd v1 v2 typed inside filled long alloc next =>
    obtain ⟨same, count, few, reached, order, reach⟩ := covered.filled bound (by omega) filled
    refine ⟨?_, max count (offset / 4096 + 2), by omega, ?_, ?_⟩ <;>
      simp only [Vol.grow, Vol.setNode, Function.update_self, Node.setPtr_size, if_true]
    · omega
    · intro i
      by_cases second : i = offset / 4096 + 1
      · subst second
        simp only [Node.setPtr_same, ne_eq, reduceCtorEq, not_false_eq_true, true_iff]
        omega
      · rw [Node.setPtr_other second, order]
        omega
    · omega
end Writing

structure FilesKept (v v' : Vol) : Prop where
  bits : ∀ m, v.inodeBit m = true → v'.inodeBit m = true
  files : ∀ m, v'.inodeBit m = true → (v'.node m).type = ufsRegularFile →
    (v.inodeBit m = true ∧ v'.node m = v.node m) ∨
      (v.inodeBit m = false ∧ v'.node m = Node.fresh ufsRegularFile)

namespace FilesKept

theorem refl (v : Vol) : FilesKept v v := ⟨fun _ bit => bit, fun _ bit _ => .inl ⟨bit, rfl⟩⟩

theorem trans (first : FilesKept v v') (second : FilesKept v' v'') : FilesKept v v'' := by
  refine ⟨fun m bit => second.bits m (first.bits m bit), ?_⟩
  intro m bit file
  rcases second.files m bit file with ⟨bit', same⟩ | ⟨none, empty⟩
  · rw [same] at file ⊢
    exact first.files m bit' file
  · refine .inr ⟨?_, empty⟩
    cases old : v.inodeBit m with
    | false => rfl
    | true => exact (first.bits m old).symm.trans none

theorem of_touches (touches : Touches g n v v') (other : (v.node n).type ≠ ufsRegularFile) :
    FilesKept v v' := by
  refine ⟨fun m bit => by rw [touches.inodeBit]; exact bit, ?_⟩
  intro m bit file
  rw [touches.inodeBit] at bit
  have apart : m ≠ n := by
    rintro rfl
    exact other (touches.type.symm.trans file)
  exact .inl ⟨bit, touches.others m apart⟩

theorem newInode (sound : Sound g v) (synced : Synced v)
    (room : v.highestInode + 1 < g.numInodes) (type : UInt32) :
    FilesKept v (v.newInode g type).2 := by
  have free : v.inodeBit (v.highestInode + 1) = false := by
    cases bit : v.inodeBit (v.highestInode + 1) with
    | false => rfl
    | true =>
      have := synced.inodes _ bit
      omega
  rw [newInode_taken sound room type]
  refine ⟨?_, ?_⟩
  · intro m bit
    by_cases new : m = v.highestInode + 1 <;> simp [new, bit]
  · intro m bit file
    by_cases new : m = v.highestInode + 1
    · subst new
      simp only [Function.update_self, Node.fresh] at file ⊢
      exact .inr ⟨free, by rw [file]⟩
    · simp only [Function.update_of_ne new] at bit ⊢
      exact .inl ⟨bit, trivial⟩

end FilesKept

theorem directory_ne_regular {nd : Node} (dir : nd.type = ufsDirectory) :
    nd.type ≠ ufsRegularFile := by
  rw [dir]
  decide

theorem CreatOutcome.filesKept {p : Nat} {type : UInt32} {name : List UInt8} {chance : Chance}
    {ok : Bool} (outcome : CreatOutcome g v p type name chance ok v') (sound : Sound g v)
    (tidy : Tidy g v) (synced : Synced v) (bit : v.inodeBit p = true) : FilesKept v v' := by
  have taken := fun room => @newInode_respects g v sound tidy room type (fun _ => True) trivial
  have made := fun room => FilesKept.newInode (g := g) sound synced room type
  cases outcome with
  | notDir | present | noInode => exact .refl v
  | noBlock dir absent room isDir full => exact made room
  | file dir absent room isFile =>
    have parent := (taken room).type synced p bit
    exact (made room).trans (.of_touches (addEntry_touches (taken room).sound
      ((taken room).inodeBit p bit) _ name chance.entry) (directory_ne_regular (parent.trans dir)))
  | dir dir absent room isDir block =>
    have new := newInode_bit sound room type
    have within : Respects g (fun _ => True) (v.newInode g type).2
        ((v.newInode g type).2.makeDir g (v.highestInode + 1) p chance.dir).2 :=
      makeDir_respects (taken room).sound (taken room).tidy ((taken room).synced synced) new p
        chance.dir trivial
    have inner := (made room).trans (.of_touches (makeDir_touches (taken room).sound
      (v.highestInode + 1) p chance.dir) (by
        rw [newInode_fresh sound room type, isDir]
        decide))
    have parent := ((taken room).trans within).type synced p bit
    exact inner.trans (.of_touches (addEntry_touches within.sound
      (((taken room).trans within).inodeBit p bit) _ name chance.entry)
      (directory_ne_regular (parent.trans dir)))

theorem serve_filesKept (sound : Sound g v) (tidy : Tidy g v) (synced : Synced v)
    {request : Request} (admissible : Admissible v request) (chance : Chance)
    (other : ∀ inum buf offset nbytes, request ≠ .write inum buf offset nbytes) :
    FilesKept v (v.serve g request chance).2 := by
  obtain ⟨bit, _, _⟩ := admissible
  cases request with
  | lookup | stat | read => exact .refl v
  | write inum buf offset nbytes => exact absurd rfl (other inum buf offset nbytes)
  | creat pinum type name =>
    exact CreatOutcome.filesKept (creatFile_outcome sound _ type name chance) sound tidy synced bit
  | unlink pinum name =>
    simp only [Vol.serve, Vol.unlinkFile]
    cases found : v.lookup pinum.toNat name with
    | none => exact .refl v
    | some slot =>
      cases chance.refuse with
      | true => exact .refl v
      | false =>
        exact .of_touches (removeEntry_touches sound bit found)
          (directory_ne_regular (lookup_found found).1)

/-! Over a whole run. -/

def writeEnd (inum : UInt32) (s : Serv) : Event → Nat
  | .request (.write inum' buf offset nbytes) junk =>
    if inum' = inum ∧ replyCode s (.write inum' buf offset nbytes) junk = 0 then
      offset.toNat + nbytes.toNat
    else 0
  | _ => 0

def furthest (inum : UInt32) : Serv → List Event → Nat
  | _, [] => 0
  | s, event :: rest => max (writeEnd inum s event) (furthest inum (step s event) rest)

structure Fitted (v : Vol) (past : UInt32 → Nat) : Prop where
  file : ∀ inum : UInt32, v.inodeBit inum.toNat = true →
    (v.node inum.toNat).type = ufsRegularFile → Covered (v.node inum.toNat) (past inum)
  free : ∀ inum : UInt32, v.inodeBit inum.toNat = false → past inum = 0

theorem Fitted.filesKept {past : UInt32 → Nat} (fitted : Fitted v past) (kept : FilesKept v v') :
    Fitted v' past := by
  have free : ∀ inum : UInt32, v'.inodeBit inum.toNat = false → v.inodeBit inum.toNat = false := by
    intro inum none
    cases bit : v.inodeBit inum.toNat with
    | false => rfl
    | true => exact (kept.bits _ bit).symm.trans none
  refine ⟨?_, fun inum none => fitted.free inum (free inum none)⟩
  intro inum bit file
  rcases kept.files _ bit file with ⟨old, same⟩ | ⟨none, empty⟩
  · rw [same] at file ⊢
    exact fitted.file inum old file
  · rw [empty, fitted.free inum none]
    exact covered_fresh _

theorem code_eq_zero (ok : Bool) : Vol.code ok = 0 ↔ ok = true := by
  cases ok <;> decide

theorem Fitted.write {past : UInt32 → Nat} (fitted : Fitted v past) (sound : Sound g v)
    {inum : UInt32} (bit : v.inodeBit inum.toNat = true)
    (buf : Bytes) (offset nbytes : Nat) (small : nbytes ≤ 4096) :
    Fitted (v.writeFile g inum.toNat buf offset nbytes ufsRegularFile).2 fun other =>
      max (past other) (if inum = other ∧
        (v.writeFile g inum.toNat buf offset nbytes ufsRegularFile).1 = true then offset + nbytes
        else 0) := by
  have outcome := writeFile_outcome inum.toNat buf offset nbytes ufsRegularFile
    sound.hghstAllocDblk_lt
  have writes := outcome.writes sound.hghstAllocDblk_lt small
  refine ⟨?_, ?_⟩
  · intro other bitOther file
    rw [writes.inodeBit] at bitOther
    by_cases same : inum = other
    · subst same
      rw [writes.fills.type] at file
      simpa using WriteOutcome.covered outcome sound.hghstAllocDblk_lt small
        (fitted.file inum bitOther file)
    · have apart : other.toNat ≠ inum.toNat := fun equal => same (UInt32.toNat_inj.mp equal).symm
      rw [writes.others _ apart] at file ⊢
      simpa [same] using fitted.file other bitOther file
  · intro other none
    rw [writes.inodeBit] at none
    have same : inum ≠ other := by
      rintro rfl
      exact absurd (bit.symm.trans none) (by decide)
    simpa [same] using fitted.free other none

theorem Fitted.serve {past : UInt32 → Nat} (fitted : Fitted v past) (backed : Backed g s v)
    (synced : Synced v) {request : Request} (proper : Proper s request) {junk : Junk}
    {chance : Chance} (reply : replyCode s request junk = (v.serve g request chance).1) :
    Fitted (v.serve g request chance).2 fun inum =>
      max (past inum) (writeEnd inum s (.request request junk)) := by
  have admissible := proper.admissible backed.sim backed.sound
  by_cases write : ∃ inum buf offset nbytes, request = .write inum buf offset nbytes
  · obtain ⟨inum, buf, offset, nbytes, rfl⟩ := write
    simp only [writeEnd, reply]
    simp only [Vol.serve, code_eq_zero]
    exact fitted.write backed.sound admissible.1 buf _ _ admissible.2
  · have kept := serve_filesKept backed.sound backed.tidy synced admissible chance
      fun inum buf offset nbytes same => write ⟨inum, buf, offset, nbytes, same⟩
    have none : ∀ inum, writeEnd inum s (.request request junk) = 0 := by
      intro inum
      cases request with
      | write inum' buf offset nbytes => exact absurd ⟨_, _, _, _, rfl⟩ write
      | _ => rfl
    simpa only [none, Nat.max_zero] using fitted.filesKept kept

theorem Fitted.run {events : List Event} (all : Allowed step OneRun s events)
    {past : UInt32 → Nat} (backed : Backed g s v) (synced : Synced v) (fitted : Fitted v past) :
    ∃ v', Backed g (run step s events) v' ∧ Synced v' ∧
      Fitted v' fun inum => max (past inum) (furthest inum s events) := by
  induction events generalizing s v past with
  | nil => exact ⟨v, backed, synced, by simpa [furthest] using fitted⟩
  | cons event rest ih =>
    cases event with
    | restart junk => exact absurd all.1 id
    | request request junk =>
      obtain ⟨chance, reply, backed', _, respects⟩ := backed.serve all.1 (fun _ => synced) junk
      obtain ⟨v'', backed'', synced'', fitted''⟩ := ih all.2 backed' (respects.synced synced)
        (fitted.serve backed synced all.1 reply)
      refine ⟨v'', backed'', synced'', ?_⟩
      simpa only [furthest, Nat.max_assoc] using fitted''

theorem Initial.fitted (initial : Initial g v) : Fitted v fun _ => 0 := by
  refine ⟨?_, fun _ _ => rfl⟩
  intro inum bit file
  simp only [initial.inodeBit, decide_eq_true_eq] at bit
  rw [bit, initial.root] at file
  exact absurd file (directory_ne_regular rfl)

structure Reaches (s : Serv) (inum : UInt32) (last : Nat) : Prop where
  size : (inodeOf s inum).size.toNat = last
  mapped : ∃ count ≤ 30, (∀ i < 30, (inodeOf s inum).ptr i ≠ minusOne ↔ i < count) ∧
    last ≤ 4096 * count
  readable : ∀ buf (offset nbytes : UInt32) junk, 1 ≤ nbytes.toNat → nbytes.toNat ≤ 4096 →
    offset.toNat + nbytes.toNat ≤ last → (readFile s inum buf offset nbytes junk).1 = 0

theorem Covered.readFile {size offset nbytes : Nat} (covered : Covered (v.node n) size)
    (some' : 1 ≤ nbytes) (small : nbytes ≤ 4096) (below : offset + nbytes ≤ size) :
    ∃ bytes, v.readFile n offset nbytes = some bytes := by
  obtain ⟨same, count, few, order, reach⟩ := covered
  obtain ⟨b, first⟩ := Option.ne_none_iff_exists'.mp ((order (offset / 4096)).mpr (by omega))
  by_cases short : nbytes ≤ 4096 - offset % 4096
  · exact ⟨_, readFile_oneBlock (by omega) short first⟩
  · obtain ⟨c, second⟩ := Option.ne_none_iff_exists'.mp ((order (offset / 4096 + 1)).mpr (by omega))
    exact ⟨_, readFile_twoBlocks (by omega) (by omega) first second⟩

theorem Covered.reaches {inum : UInt32} {size : Nat} (covered : Covered (v.node inum.toNat) size)
    (backed : Backed g s v) (bit : v.inodeBit inum.toNat = true) : Reaches s inum size := by
  have inside := backed.sound.inodeBit_lt _ bit
  refine ⟨?_, ?_, ?_⟩
  · rw [inodeOf_size backed.sim inum inside, covered.size]
  · obtain ⟨same, count, few, order, reach⟩ := covered
    refine ⟨count, few, fun i _ => ?_, by omega⟩
    rw [← order, ne_eq, inodeOf_hole backed.sim inum inside]
  · intro buf offset nbytes junk some' small below
    obtain ⟨bytes, result⟩ := covered.readFile some' small below
    have read := readFile_sim backed.sim backed.sound bit buf offset nbytes small junk
    rw [result] at read
    exact read.1

/-- In every state of a session a regular file reaches as far as it was written. -/
theorem files_reach_as_far_as_written (started : Started g s) {events : List Event}
    (all : Allowed step OneRun s events) {inum : UInt32}
    (allocated : Allocated (run step s events) inum)
    (file : (inodeOf (run step s events) inum).type = ufsRegularFile) :
    Reaches (run step s events) inum (furthest inum s events) := by
  obtain ⟨v, backed, initial⟩ := Started.backed started
  obtain ⟨v', backed', _, fitted⟩ := (Initial.fitted initial).run all backed
    (Initial.synced initial)
  have bit := (allocated_iff backed'.sim backed'.sound inum).mp allocated
  rw [inodeOf_type backed'.sim inum (backed'.sound.inodeBit_lt _ bit)] at file
  have covered := fitted.file inum bit file
  rw [Nat.zero_max] at covered
  exact covered.reaches backed' bit

theorem serve_write (s : Serv) (inum : UInt32) (buf : Bytes) (offset nbytes : UInt32)
    (junk : Junk) : serve s (.write inum buf offset nbytes) junk =
      (writeFile s inum buf offset nbytes ufsRegularFile junk).2.answer
        (writeFile s inum buf offset nbytes ufsRegularFile junk).1 := by
  simp only [serve]

theorem replyCode_write (s : Serv) (inum : UInt32) (buf : Bytes) (offset nbytes : UInt32)
    (junk : Junk) : replyCode s (.write inum buf offset nbytes) junk =
      (writeFile s inum buf offset nbytes ufsRegularFile junk).1 := by
  rw [replyCode, serve_write, Serv.answer]

def writeFour : Event := .request (.write 1 (fun _ => 7) 0 4) noJunk

theorem Started.wroteFour (started : Started smallest s) :
    Allowed step OneRun s [creatA, writeFour] ∧ Allocated (run step s [creatA, writeFour]) 1 ∧
      (inodeOf (run step s [creatA, writeFour]) 1).type = ufsRegularFile ∧
      replyCode (step s creatA) (.write 1 (fun _ => 7) 0 4) noJunk = 0 := by
  obtain ⟨⟨made, _⟩, v, rooted⟩ := Started.creatA started
  rw [run_cons, run_nil] at rooted
  have ended : run step s [creatA, writeFour] =
      serve (step s creatA) (.write 1 (fun _ => 7) 0 4) noJunk := by
    simp only [run_cons, run_nil, writeFour, step]
  have allocated := rooted.allocated 1 (by decide)
  have proper : Proper (step s creatA) (.write 1 (fun _ => 7) 0 4) :=
    ⟨allocated, show 4 ≤ 4096 by decide, show 0 ≤ 28 by decide⟩
  obtain ⟨allocated', type⟩ := rooted.backed.keeps rooted.synced proper noJunk allocated
  have file : (inodeOf (step s creatA) 1).type = ufsRegularFile := by
    rw [inodeOf_type rooted.backed.sim 1 (by decide),
      rooted.files _ (by decide) (rooted.bit _ (by decide))]
    rfl
  have answer := rooted.write_first 1 (by decide) (by decide) (fun _ => 7) 0 4 (by decide)
    (by decide) noJunk
  rw [← replyCode_write] at answer
  rw [ended]
  exact ⟨⟨made, proper, trivial⟩, allocated', type.trans file, answer⟩

/-- After one write of four bytes the file has size 4. -/
theorem first_write_gives_the_size : ∃ s, Started smallest s ∧
    Allowed step OneRun s [creatA, writeFour] ∧ Reaches (run step s [creatA, writeFour]) 1 4 := by
  obtain ⟨s, started⟩ := started_exists smallest
  obtain ⟨all, allocated, file, answer⟩ := Started.wroteFour started
  have size : furthest 1 s [creatA, writeFour] = 4 := by
    simp only [furthest, writeFour, writeEnd, answer]
    rfl
  refine ⟨s, started, all, ?_⟩
  rw [← size]
  exact files_reach_as_far_as_written started all allocated file

/-- The write to the inode table leaves the inode bitmap alone. -/
theorem Listed.write_allocated {names : List UInt8} (listed : Listed s names)
    (one : 1 ≤ names.length) (few : names.length < 30) (buf : Bytes) {offset nbytes : UInt32}
    (inside : offset.toNat + nbytes.toNat ≤ 4096) (below : offset.toNat < 4096) (junk : Junk)
    {inum : UInt32} (low : inum.toNat ≤ names.length) :
    Allocated (serve s (.write 1 buf offset nbytes) junk) inum := by
  obtain ⟨_, overlapped, word, early, bytes⟩ := listed.write one buf inside below junk
  rw [serve_write]
  generalize writeFile s 1 buf offset nbytes ufsRegularFile junk = written at overlapped bytes
  have many : wrappedSuper.numInodes.toNat = 33554400 := rfl
  refine ⟨by rw [(overlapped.answer _).super]; omega, ?_⟩
  have base : 4096 * wrappedSuper.inodeBitmapAddr.toNat = 4096 := rfl
  have before := listed.bit _ low
  rw [inodeBit, listed.super, base] at before
  rw [inodeBit, (overlapped.answer _).super, base, Serv.answer, bytes]
  rw [bitAt_outside (by omega), bitAt_outside (by omega),
    bitAt_outside (by omega), bitAt_outside (by omega), before]

/-- A word written to the first file at 260 is the size of the second. -/
theorem Listed.resized {names : List UInt8} (listed : Listed s names) (two : 2 ≤ names.length)
    (few : names.length < 30) (junk : Junk) :
    Proper s (.write 1 (byteAt 5) 260 4) ∧ Allocated (serve s (.write 1 (byteAt 5) 260 4) junk) 2 ∧
      (inodeOf (serve s (.write 1 (byteAt 5) 260 4) junk) 2).type = ufsRegularFile ∧
      (inodeOf (serve s (.write 1 (byteAt 5) 260 4) junk) 2).size = 5 := by
  obtain ⟨_, overlapped, word, early, bytes⟩ := listed.write (by omega) (byteAt 5)
    (show (260 : UInt32).toNat + (4 : UInt32).toNat ≤ 4096 by decide) (by decide) junk
  have one : (1 : UInt32).toNat ≤ names.length := by
    simp only [UInt32.reduceToNat]
    omega
  have allocated := Listed.write_allocated listed (by omega) few (byteAt 5)
    (show (260 : UInt32).toNat + (4 : UInt32).toNat ≤ 4096 by decide) (by decide) junk
    (show (2 : UInt32).toNat ≤ names.length by exact two)
  rw [serve_write] at allocated ⊢
  generalize writeFile s 1 (byteAt 5) 260 4 ufsRegularFile junk = written
    at overlapped bytes allocated
  have table := (overlapped.answer written.1).inodeOf 2
  refine ⟨⟨listed.allocated few one, show 4 ≤ 4096 by decide, show 0 ≤ 28 by decide⟩, allocated,
    ?_, ?_⟩
  · rw [table, Serv.answer, bytes, nodeAt_outside (by decide)]
    have type := congrArg Inode.type (listed.file 2 (by decide) two)
    exact (wordAt_overwrite_outside (by decide)).trans ((wordAt_overwrite_outside (by decide)).trans
        ((wordAt_overwrite_outside (by decide)).trans type))
  · rw [table, Serv.answer, bytes, nodeAt_outside (by decide)]
    exact (wordAt_overwrite_inside (by decide) (by decide)).trans (by decide)

def twoFiles : List Event :=
  [.request (.creat 0 ufsRegularFile [97]) noJunk, .request (.creat 0 ufsRegularFile [98]) noJunk,
    .request (.write 1 (byteAt 5) 260 4) noJunk]

/-- The word is the size of the second file, which nobody has written to. -/
theorem wrapped_layout_breaks_sizes : ∃ image s,
    mkfs 33554400 32 noJunk = some image ∧ image.length < 2147483648 ∧
      s = initializeServ image noJunk ∧ Allowed step OneRun s twoFiles ∧
      Allocated (run step s twoFiles) 2 ∧ (inodeOf (run step s twoFiles) 2).type = ufsRegularFile ∧
      ¬ Reaches (run step s twoFiles) 2 (furthest 2 s twoFiles) := by
  obtain ⟨image, made, length, empty⟩ := listed_wrapped
  have first := empty.creat (by decide) (show (97 : UInt8) ∉ [0, 46] by decide) noJunk
  have both := first.creat (by decide) (show (98 : UInt8) ∉ [0, 46, 97] by decide) noJunk
  obtain ⟨proper, allocated, type, size⟩ := Listed.resized both (by decide) (by decide) noJunk
  have ended : run step (initializeServ image noJunk) twoFiles = serve (serve (serve
      (initializeServ image noJunk) (.creat 0 ufsRegularFile [97]) noJunk)
        (.creat 0 ufsRegularFile [98]) noJunk) (.write 1 (byteAt 5) 260 4) noJunk := by
    simp only [twoFiles, run_cons, run_nil, step]
  have all : Allowed step OneRun (initializeServ image noJunk) twoFiles := by
    simp only [twoFiles, Allowed, step, OneRun]
    exact ⟨empty.proper_creat (by decide) 97, first.proper_creat (by decide) 98, proper, trivial⟩
  have none : furthest 2 (initializeServ image noJunk) twoFiles = 0 := by
    simp [furthest, twoFiles, writeEnd]
  rw [← ended] at allocated type size
  refine ⟨image, _, made, length, rfl, all, allocated, type, ?_⟩
  intro reaches
  have written := reaches.size
  rw [none, size] at written
  exact absurd written (by decide)

end OsProjects.FileSizes
