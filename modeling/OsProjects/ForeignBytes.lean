import OsProjects.WriteFrames

/-!
What a regular file shows. The bytes of its blocks are the ones that writes to
it have put there, or the zeros that `mkfs` left: a block is handed out once and
not cleared, and no other operation of the server writes to a regular file.
-/

namespace OsProjects.ForeignBytes

open ByteStore UfsLayout FileServer Volume VolumeSteps VolumeSound VolumeRefinement MkfsImage Runs
  ServerRuns BlockOwnership DirectorySlots FirstFiles FileContents FileSizes Repetition LateCopies
  WriteFrames Function

variable {g : Geometry} {s : Serv} {v v' : Vol}

section Volumes
variable {n offset nbytes : Nat} {buf : Bytes} {nd : Node} {i b index : Nat}

/-- A block of the file after its holes were filled: one it had, or one that has
never been written. -/
theorem filled_byte {v1 : Vol} (sound : Sound g v) (tidy : Tidy g v) (synced : Synced v)
    (inside : offset / 4096 ≤ 29)
    (filled : Vol.fillHoles g (offset / 4096 + 1) v (v.node n) = (some nd, v1))
    (mapped : nd.direct i = some b) (below : index < 4096) :
    v.block b index = 0 ∨ (v.node n).direct i = some b := by
  obtain ⟨alloc, found⟩ := filled_spec sound.hghstAllocDblk_lt inside filled
  rcases (found nd rfl).1.pointer i with old | ⟨_, k, low, high, new⟩
  · exact .inr (old.symm.trans mapped)
  · have last := alloc.counter_lt
    rw [Option.some.inj (mapped.symm.trans new)]
    exact .inl (synced.block_zero tidy (by omega) (by omega) below)

/-- One byte after a transfer into the block of `offset`: one of the transfer, or
neither inside it nor changed by it. -/
theorem transfer_byte {v1 : Vol} {count : Nat} (sound : Sound g v) (tidy : Tidy g v)
    (synced : Synced v) (inside : offset / 4096 ≤ 29)
    (filled : Vol.fillHoles g (offset / 4096 + 1) v (v.node n) = (some nd, v1))
    (short : count ≤ 4096 - offset % 4096)
    (only : nd.direct i = some (nd.at' (offset / 4096)) → i = offset / 4096)
    (mapped : nd.direct i = some b) (below : index < 4096) {byte : UInt8}
    (is : byte = update v.block (nd.at' (offset / 4096))
      (overwrite (v.block (nd.at' (offset / 4096))) (offset % 4096) count buf) b index) :
    (offset ≤ 4096 * i + index ∧ 4096 * i + index < offset + count ∧
        byte = buf (4096 * i + index - offset)) ∨
      (¬ (offset ≤ 4096 * i + index ∧ 4096 * i + index < offset + count) ∧
        (byte = 0 ∨ (v.node n).direct i = some b ∧ byte = v.block b index)) := by
  have first := ((filled_spec sound.hghstAllocDblk_lt inside filled).2 nd rfl).2.2.1
  have kept := filled_byte sound tidy synced inside filled mapped below
  -- the transfer touches the block of the offset, and that block has no other place in the file
  by_cases same : b = nd.at' (offset / 4096)
  · have slot := only (same ▸ mapped)
    rw [same, update_self, ← same] at is
    by_cases covered : offset % 4096 ≤ index ∧ index < offset % 4096 + count
    · rw [overwrite_inside covered.1 covered.2] at is
      refine .inl ⟨by omega, by omega, is.trans (congrArg buf ?_)⟩
      omega
    · rw [overwrite_outside (by omega)] at is
      refine .inr ⟨by omega, ?_⟩
      rw [is]
      exact kept.imp_right fun old => ⟨old, rfl⟩
  · have other : i ≠ offset / 4096 := by
      rintro rfl
      exact same (Option.some.inj (mapped.symm.trans first))
    rw [update_of_ne same] at is
    refine .inr ⟨by omega, ?_⟩
    rw [is]
    exact kept.imp_right fun old => ⟨old, rfl⟩

/-- A byte of the file after a write: one of the write, if it succeeded, or
outside of it and zero or kept. -/
theorem WriteOutcome.byte {ok : Bool}
    (outcome : WriteOutcome g v n buf offset nbytes ufsRegularFile ok v') (small : nbytes ≤ 4096)
    (sound : Sound g v) (tidy : Tidy g v) (synced : Synced v) (bit : v.inodeBit n = true)
    (single : Single (v.node n)) (mapped : (v'.node n).direct i = some b) (below : index < 4096) :
    ((ok = true ∧ offset ≤ 4096 * i + index ∧ 4096 * i + index < offset + nbytes) ∧
        v'.block b index = buf (4096 * i + index - offset)) ∨
      (¬ (ok = true ∧ offset ≤ 4096 * i + index ∧ 4096 * i + index < offset + nbytes) ∧
        (v'.block b index = 0 ∨
          (v.node n).direct i = some b ∧ v'.block b index = v.block b index)) := by
  have bound := sound.hghstAllocDblk_lt
  have distinct := Writes.single_node (outcome.writes bound small) sound synced bit single
  cases outcome with
  | refused wrong => exact .inr ⟨by simp, .inr ⟨mapped, rfl⟩⟩
  | noBlock v1 typed inside filled =>
    have alloc := (filled_spec bound inside filled).1
    rw [alloc.node] at mapped
    rw [alloc.block]
    exact .inr ⟨by simp, .inr ⟨mapped, rfl⟩⟩
  | oneBlock nd v1 typed inside filled short =>
    obtain ⟨alloc, found⟩ := filled_spec bound inside filled
    simp only [Vol.grow, Vol.setNode, Vol.putBlock, update_self, alloc.block]
      at mapped distinct ⊢
    rcases transfer_byte sound tidy synced inside filled short
      (fun here => distinct _ _ _ here (found nd rfl).2.2.1) mapped below rfl with
      ⟨low, high, is⟩ | ⟨outside, kept⟩
    · exact .inl ⟨⟨trivial, low, high⟩, is⟩
    · exact .inr ⟨fun covered => outside covered.2, kept⟩
  -- the next two fail after the holes were filled, with blocks of zeros
  | lastBlock nd v1 typed last filled long | noSecond nd v1 typed inside filled long full =>
    have alloc := (filled_spec bound (by omega) filled).1
    simp only [Vol.setNode, update_self, alloc.block] at mapped ⊢
    exact .inr ⟨by simp, (filled_byte sound tidy synced (by omega) filled mapped below).imp_right
      fun old => ⟨old, trivial⟩⟩
  | twoBlocks nd v1 v2 typed inside filled long alloc' next =>
    obtain ⟨alloc, found⟩ := filled_spec bound (by omega) filled
    obtain ⟨_, _, first, _⟩ := found nd rfl
    have firstNew := filled_ne_new sound synced bit (by omega) filled first
      (show v1.hghstAllocDblk < v2.hghstAllocDblk by omega)
    have blocks : v2.block = v.block := alloc'.block.trans alloc.block
    simp only [Vol.grow, Vol.setNode, Vol.putBlock, update_self, blocks]
      at mapped distinct ⊢
    by_cases second : i = offset / 4096 + 1
    · -- the block is new, so it held zeros
      subst second
      have passed := alloc.counter_le
      have zero := synced.block_zero tidy
        (show v.hghstAllocDblk < v2.hghstAllocDblk by omega) alloc'.counter_lt below
      rw [Node.setPtr_same] at mapped
      rw [← Option.some.inj mapped, update_self, update_of_ne firstNew.symm]
      by_cases covered : index < nbytes - (4096 - offset % 4096)
      · rw [overwrite_inside (Nat.zero_le _) (by omega)]
        refine .inl ⟨⟨trivial, by omega, by omega⟩, congrArg buf ?_⟩
        omega
      · rw [overwrite_outside (by omega)]
        exact .inr ⟨by omega, .inl zero⟩
    · rw [Node.setPtr_other second] at mapped
      have hereNew := filled_ne_new sound synced bit (by omega) filled mapped
        (show v1.hghstAllocDblk < v2.hghstAllocDblk by omega)
      rw [update_of_ne hereNew]
      rcases transfer_byte sound tidy synced (by omega) filled
        (le_refl _) (fun here => distinct i (offset / 4096) _
          (by rw [Node.setPtr_other second]; exact here)
          (by rw [Node.setPtr_other (by omega)]; exact first)) mapped below rfl with
        ⟨low, high, is⟩ | ⟨outside, kept⟩
      · exact .inl ⟨⟨trivial, low, by omega⟩, is⟩
      · refine .inr ⟨?_, kept⟩
        rintro ⟨_, low, high⟩
        omega
end Volumes

/-- A request that is no write leaves the blocks of every regular file alone. -/
theorem serve_apart_file (sound : Sound g v) (tidy : Tidy g v) (synced : Synced v)
    {request : Request} (admissible : Admissible v request) (chance : Chance)
    (other : ∀ inum buf offset nbytes, request ≠ .write inum buf offset nbytes) {m : Nat}
    (bit : v.inodeBit m = true) (file : (v.node m).type = ufsRegularFile) :
    Apart m v (v.serve g request chance).2 := by
  -- named itself, a file is no directory, and only a write changes it then
  by_cases named : m = (inode request).toNat
  · have noDir : (v.node (inode request).toNat).type ≠ ufsDirectory := by
      rw [← named, file]
      decide
    cases request with
    | lookup | stat | read => exact .refl m v
    | write inum buf offset nbytes => exact absurd rfl (other inum buf offset nbytes)
    | creat pinum type name =>
      simp only [inode] at noDir
      simp only [Vol.serve, Vol.creatFile]
      rw [if_pos noDir]
      exact .refl m v
    | unlink pinum name =>
      have absent : v.lookup pinum.toNat name = none := by
        cases found : v.lookup pinum.toNat name with
        | none => rfl
        | some slot => exact absurd (lookup_found found).1 noDir
      simp only [Vol.serve, Vol.unlinkFile, absent]
      exact .refl m v
  · exact (serve_respects sound tidy (fun _ => synced) admissible chance).apart m named bit

/-! Over a whole run. -/

def wrote (inum : UInt32) (position : Nat) (s : Serv) : Event → Option UInt8
  | .request (.write inum' buf offset nbytes) junk =>
    if inum' = inum ∧ replyCode s (.write inum' buf offset nbytes) junk = 0 ∧
        offset.toNat ≤ position ∧ position < offset.toNat + nbytes.toNat then
      some (buf (position - offset.toNat))
    else none
  | _ => none

def lastWritten (inum : UInt32) (position : Nat) : Serv → List Event → Option UInt8
  | _, [] => none
  | s, event :: rest =>
    (lastWritten inum position (step s event) rest).or (wrote inum position s event)

def Own (v : Vol) (last : UInt32 → Nat → Option UInt8) : Prop :=
  ∀ inum : UInt32, v.inodeBit inum.toNat = true → (v.node inum.toNat).type = ufsRegularFile →
    ∀ i b, (v.node inum.toNat).direct i = some b → ∀ index < 4096,
      v.block b index = 0 ∨ last inum (4096 * i + index) = some (v.block b index)

section Serving
variable {last : UInt32 → Nat → Option UInt8}

theorem Own.other (own : Own v last) (kept : FilesKept v v')
    (apart : ∀ m, v.inodeBit m = true → (v.node m).type = ufsRegularFile → Apart m v v') :
    Own v' last := by
  intro inum bit file i b mapped index below
  -- a file is an old one, unchanged, or new and without a block
  rcases kept.files _ bit file with ⟨old, same⟩ | ⟨_, empty⟩
  · rw [same] at file mapped
    rw [(apart _ old file).block i b mapped]
    exact own inum old file i b mapped index below
  · rw [empty] at mapped
    exact absurd mapped (by simp [Node.fresh])

theorem Own.write (own : Own v last) (sound : Sound g v) (tidy : Tidy g v) (synced : Synced v)
    (single : FilesSingle v) {inum : UInt32} (bit : v.inodeBit inum.toNat = true) (buf : Bytes)
    (offset nbytes : Nat) (small : nbytes ≤ 4096) :
    Own (v.writeFile g inum.toNat buf offset nbytes ufsRegularFile).2 fun other position =>
      (if inum = other ∧ (v.writeFile g inum.toNat buf offset nbytes ufsRegularFile).1 = true ∧
          offset ≤ position ∧ position < offset + nbytes then some (buf (position - offset))
        else none).or (last other position) := by
  have outcome := writeFile_outcome inum.toNat buf offset nbytes ufsRegularFile
    sound.hghstAllocDblk_lt
  have writes := outcome.writes sound.hghstAllocDblk_lt small
  have respects := writeFile_respects sound tidy synced bit buf offset nbytes small
  intro other bitOther file i b mapped index below
  beta_reduce
  rw [writes.inodeBit] at bitOther
  by_cases same : inum = other
  · subst same
    rw [writes.fills.type] at file
    rcases WriteOutcome.byte outcome small sound tidy synced bit (single _ bit file) mapped below
      with ⟨covered, is⟩ | ⟨outside, zero | ⟨old, is⟩⟩
    · rw [if_pos ⟨rfl, covered⟩, is]
      exact .inr rfl
    · exact .inl zero
    · rw [if_neg (fun covered => outside covered.2), Option.none_or, is]
      exact own inum bit file i b old index below
  · have apart := respects.apart other.toNat
      (fun equal => same (UInt32.toNat_inj.mp equal).symm) bitOther
    rw [apart.node] at file mapped
    rw [if_neg (fun covered => same covered.1), Option.none_or, apart.block i b mapped]
    exact own other bitOther file i b mapped index below

theorem Own.serve (own : Own v last) (backed : Backed g s v) (synced : Synced v)
    (single : FilesSingle v) {request : Request} (proper : Proper s request) {junk : Junk}
    {chance : Chance} (reply : replyCode s request junk = (v.serve g request chance).1) :
    Own (v.serve g request chance).2 fun inum position =>
      (wrote inum position s (.request request junk)).or (last inum position) := by
  have admissible := proper.admissible backed.sim backed.sound
  by_cases write : ∃ inum buf offset nbytes, request = .write inum buf offset nbytes
  · obtain ⟨inum, buf, offset, nbytes, rfl⟩ := write
    simp only [wrote, reply]
    simp only [Vol.serve, code_eq_zero]
    exact own.write backed.sound backed.tidy synced single admissible.1 buf _ _ admissible.2
  · have different : ∀ inum buf offset nbytes, request ≠ .write inum buf offset nbytes :=
      fun inum buf offset nbytes same => write ⟨inum, buf, offset, nbytes, same⟩
    have none : ∀ inum position, wrote inum position s (.request request junk) = none := by
      intro inum position
      cases request with
      | write inum' buf offset nbytes => exact absurd rfl (different inum' buf offset nbytes)
      | _ => rfl
    simp only [none, Option.none_or]
    exact own.other (serve_filesKept backed.sound backed.tidy synced admissible chance different)
      fun m bit file =>
        serve_apart_file backed.sound backed.tidy synced admissible chance different bit file

theorem Own.run {events : List Event} (all : Allowed step OneRun s events) (backed : Backed g s v)
    (synced : Synced v) (single : FilesSingle v) (own : Own v last) :
    ∃ v', Backed g (run step s events) v' ∧ Own v' fun inum position =>
      (lastWritten inum position s events).or (last inum position) := by
  -- `last` grows at its front, so it is general in the induction
  induction events generalizing s v last with
  | nil => exact ⟨v, backed, by simpa [lastWritten] using own⟩
  | cons event rest ih =>
    cases event with
    | restart junk => exact absurd all.1 id
    | request request junk =>
      obtain ⟨chance, reply, backed', _, respects⟩ := backed.serve all.1 (fun _ => synced) junk
      have single' := @serve_files g v request chance backed.sound backed.tidy synced
        (Proper.admissible all.1 backed.sim backed.sound) single
      obtain ⟨v'', backed'', own''⟩ := ih all.2 backed' (respects.synced synced) single'
        (own.serve backed synced single all.1 reply)
      exact ⟨v'', backed'', by simpa only [lastWritten, Option.or_assoc] using own''⟩

theorem Initial.own (initial : Initial g v) : Own v fun _ _ => none := by
  intro inum bit file
  simp only [initial.inodeBit, decide_eq_true_eq] at bit
  rw [bit, initial.root] at file
  exact absurd file (directory_ne_regular rfl)

theorem Own.readFile (own : Own v last) {inum : UInt32} (bit : v.inodeBit inum.toNat = true)
    (file : (v.node inum.toNat).type = ufsRegularFile) {offset nbytes : Nat} {bytes : Bytes}
    (read : v.readFile inum.toNat offset nbytes = some bytes) (small : nbytes ≤ 4096) {index : Nat}
    (inside : index < nbytes) :
    bytes index = 0 ∨ last inum (offset + index) = some (bytes index) := by
  -- the two shapes of a read: inside one block, or over a block boundary
  simp only [Vol.readFile] at read
  split at read
  · exact absurd read (by simp)
  split at read
  · obtain ⟨b, mapped, rfl⟩ := Option.map_eq_some_iff.mp read
    have here := own inum bit file _ b mapped (offset % 4096 + index) (by omega)
    rwa [show 4096 * (offset / 4096) + (offset % 4096 + index) = offset + index by omega] at here
  split at read
  · exact absurd read (by simp)
  · obtain ⟨b, mapped, rest⟩ := Option.bind_eq_some_iff.mp read
    obtain ⟨c, mapped', rfl⟩ := Option.map_eq_some_iff.mp rest
    beta_reduce
    split
    · have here := own inum bit file _ b mapped (offset % 4096 + index) (by omega)
      rwa [show 4096 * (offset / 4096) + (offset % 4096 + index) = offset + index by omega] at here
    · have here := own inum bit file _ c mapped' (index - (4096 - offset % 4096)) (by omega)
      rwa [show 4096 * (offset / 4096 + 1) + (index - (4096 - offset % 4096)) = offset + index by
        omega] at here
end Serving

structure ShowsOwn (s : Serv) (inum : UInt32) (last : Nat → Option UInt8) : Prop where
  readable : ∀ position : UInt32, position.toNat < (inodeOf s inum).size.toNat →
    ∀ buf junk, (readFile s inum buf position 1 junk).1 = 0
  own : ∀ buf (offset nbytes : UInt32) junk, nbytes.toNat ≤ 4096 →
    (readFile s inum buf offset nbytes junk).1 = 0 → ∀ index < nbytes.toNat,
      (readFile s inum buf offset nbytes junk).2 index = 0 ∨
        last (offset.toNat + index) = some ((readFile s inum buf offset nbytes junk).2 index)

/-- In every state of a session a regular file shows zeros and its own bytes. -/
theorem files_show_own_bytes (started : Started g s) {events : List Event}
    (all : Allowed step OneRun s events) {inum : UInt32}
    (allocated : Allocated (run step s events) inum)
    (file : (inodeOf (run step s events) inum).type = ufsRegularFile) :
    ShowsOwn (run step s events) inum fun position => lastWritten inum position s events := by
  obtain ⟨v, backed, initial⟩ := Started.backed started
  obtain ⟨v', past, backed', _, _, fitted⟩ := oneRun_orderly started all
  obtain ⟨v'', backed'', own⟩ := Own.run all backed (Initial.synced initial)
    (fun n bit _ => Initial.single initial n bit) (Initial.own initial)
  refine ⟨?_, ?_⟩
  · intro position below buf junk
    have bit := (allocated_iff backed'.sim backed'.sound inum).mp allocated
    have inside := backed'.sound.inodeBit_lt _ bit
    rw [inodeOf_type backed'.sim inum inside] at file
    rw [inodeOf_size backed'.sim inum inside] at below
    have covered := fitted.file inum bit file
    rw [covered.size] at below
    exact (Covered.read_byte covered backed' bit below buf junk).1
  · intro buf offset nbytes junk small success index inside
    have bit := (allocated_iff backed''.sim backed''.sound inum).mp allocated
    rw [inodeOf_type backed''.sim inum (backed''.sound.inodeBit_lt _ bit)] at file
    have read := readFile_sim backed''.sim backed''.sound bit buf offset nbytes small junk
    cases result : v''.readFile inum.toNat offset.toNat nbytes.toNat with
    | none =>
      simp only [result] at read
      rw [read] at success
      exact absurd success (show minusOne ≠ 0 by decide)
    | some bytes =>
      simp only [result] at read
      rw [read.2 index inside]
      simpa only [Option.or_none] using own.readFile bit file result small inside

/-- The four bytes written to the first file are the ones it may show. -/
theorem first_file_shows_own_bytes : ∃ s, Started smallest s ∧
    Allowed step OneRun s [creatA, writeFour] ∧ lastWritten 1 2 s [creatA, writeFour] = some 7 ∧
      ShowsOwn (run step s [creatA, writeFour]) 1
        fun position => lastWritten 1 position s [creatA, writeFour] := by
  obtain ⟨s, started⟩ := started_exists smallest
  obtain ⟨all, allocated, file, answer⟩ := Started.wroteFour started
  refine ⟨s, started, all, ?_, files_show_own_bytes started all allocated file⟩
  simp only [lastWritten, writeFour, wrote, answer]
  rfl

def oneByte : List Event :=
  [.request (.creat 0 ufsRegularFile [97]) noJunk, .request (.write 1 (fun _ => 5) 300 1) noJunk]

/-- The block of the file is the inode table: at 4 it shows the size of the root. -/
theorem Listed.shows_root (listed : Listed s [97]) (junk : Junk) :
    Proper s (.write 1 (fun _ => 5) 300 1) ∧
      Allocated (serve s (.write 1 (fun _ => 5) 300 1) junk) 1 ∧
      (inodeOf (serve s (.write 1 (fun _ => 5) 300 1) junk) 1).type = ufsRegularFile ∧
      (inodeOf (serve s (.write 1 (fun _ => 5) 300 1) junk) 1).size = 301 ∧
      ∀ buf junk', (readFile (serve s (.write 1 (fun _ => 5) 300 1) junk) 1 buf 4 1 junk').1 = 0 ∧
        (readFile (serve s (.write 1 (fun _ => 5) 300 1) junk) 1 buf 4 1 junk').2 0 = 96 := by
  obtain ⟨_, overlapped, word, early, bytes⟩ := listed.write (by decide) (fun _ => 5)
    (show (300 : UInt32).toNat + (1 : UInt32).toNat ≤ 4096 by decide) (by decide) junk
  have allocated := Listed.write_allocated listed (by decide) (by decide) (fun _ => 5)
    (show (300 : UInt32).toNat + (1 : UInt32).toNat ≤ 4096 by decide) (by decide) junk
    (show (1 : UInt32).toNat ≤ [(97 : UInt8)].length by decide)
  rw [serve_write] at allocated ⊢
  generalize writeFile s 1 (fun _ => 5) 300 1 ufsRegularFile junk = written
    at overlapped bytes allocated
  have later := overlapped.answer written.1
  have record : nodeAt written.2.image.bytes 4202624 =
      { (Inode.fresh ufsRegularFile).setPtr 0 1026 with size := 301 } := by
    rw [bytes, nodeAt_written]
    rfl
  have root : nodeAt written.2.image.bytes 4202496 = wrappedRoot 96 := by
    rw [bytes, nodeAt_outside (by decide), nodeAt_outside (by decide),
      nodeAt_outside (by decide), nodeAt_outside (by decide), listed.root]
    rfl
  have table : inodeOf (written.2.answer written.1) 1 = nodeAt written.2.image.bytes 4202624 :=
    later.inodeOf 1
  refine ⟨⟨listed.allocated (by decide) (by decide), show 1 ≤ 4096 by decide,
    show 0 ≤ 28 by decide⟩, allocated, by rw [table, record]; rfl, by rw [table, record], ?_⟩
  intro buf junk'
  have read : (readInode (written.2.answer written.1) 1 (junk'.call 0)).2 =
      { (Inode.fresh ufsRegularFile).setPtr 0 1026 with size := 301 } :=
    (later.read_inode (by decide) _).trans record
  have first : (wrap (signed (4 : UInt32) / 4096)).toNat = 0 := by decide
  have place : ((1026 : UInt32) * 4096 + 4 % 4096).toNat = 4202500 := by decide
  have size : (wrappedRoot 96).encode 4 = 96 := by decide
  have short : (1 : UInt32) ≤ 4096 - 4 % 4096 := by decide
  have shown := nodeAt_byte written.2.image.bytes 4202496 4 (by decide)
  rw [root, size] at shown
  have direct : Inode.ptr { (Inode.fresh ufsRegularFile).setPtr 0 1026 with size := 301 } 0 =
      1026 := by
    simp [Inode.ptr, Inode.setPtr]
  have answered : readFile (written.2.answer written.1) 1 buf 4 1 junk' =
      (0, fsread (written.2.answer written.1) 4202500 buf 1) := by
    simp only [readFile, read, first, direct]
    rw [if_neg (by decide), if_pos short, if_neg (by decide), lseek_low (by decide), place]
    rfl
  rw [answered]
  refine ⟨rfl, ?_⟩
  simp only [fsread]
  rw [if_pos ⟨by decide, by rw [later.length]; decide⟩]
  exact shown

/-- Nobody has written the 96 that the file shows. -/
theorem wrapped_layout_shows_the_inode_table : ∃ image s,
    mkfs 33554400 32 noJunk = some image ∧ image.length < 2147483648 ∧
      s = initializeServ image noJunk ∧ Allowed step OneRun s oneByte ∧
      Allocated (run step s oneByte) 1 ∧ (inodeOf (run step s oneByte) 1).type = ufsRegularFile ∧
      (4 : UInt32).toNat < (inodeOf (run step s oneByte) 1).size.toNat ∧
      lastWritten 1 4 s oneByte = none ∧
      ∀ buf junk, (readFile (run step s oneByte) 1 buf 4 1 junk).1 = 0 ∧
        (readFile (run step s oneByte) 1 buf 4 1 junk).2 0 = 96 := by
  obtain ⟨image, made, length, empty⟩ := listed_wrapped
  have first := empty.creat (by decide) (show (97 : UInt8) ∉ [0, 46] by decide) noJunk
  obtain ⟨proper, allocated, type, size, shows⟩ := Listed.shows_root first noJunk
  have ended : run step (initializeServ image noJunk) oneByte = serve (serve
      (initializeServ image noJunk) (.creat 0 ufsRegularFile [97]) noJunk)
        (.write 1 (fun _ => 5) 300 1) noJunk := by
    simp only [oneByte, run_cons, run_nil, step]
  have all : Allowed step OneRun (initializeServ image noJunk) oneByte := by
    simp only [oneByte, Allowed, step, OneRun]
    exact ⟨empty.proper_creat (by decide) 97, proper, trivial⟩
  have none : lastWritten 1 4 (initializeServ image noJunk) oneByte = none := by
    simp [lastWritten, oneByte, wrote]
  rw [← ended] at allocated type size shows
  refine ⟨image, _, made, length, rfl, all, allocated, type, ?_, none, shows⟩
  rw [size]
  decide

end OsProjects.ForeignBytes
