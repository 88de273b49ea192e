import OsProjects.Crashes
import OsProjects.FailedRequests

/-!
Requests on inode numbers that are not in use. `read_inode` is the only check,
it looks at a whole bitmap word, and its verdict never reaches the handlers: the
pointer it sets to `NULL` is its own copy, and no caller looks at what it
returns. A request then works on whatever the inode table or fresh memory holds,
and is refused only if that happens to be a record it refuses.
-/

namespace OsProjects.MissingInodes

open ByteStore UfsLayout FileServer VolumeSound VolumeRefinement ServerRuns BlockOwnership
  DirectorySlots FirstFiles FailedRequests

variable {s : Serv} {inum pinum : UInt32} {name : List UInt8} {junk : Junk}

/-- What `read_inode` leaves to its caller: fresh memory where no bit of the bitmap
word is set, and otherwise what is read of the inode table, in use or not. -/
def record (s : Serv) (inum : UInt32) (junk : Junk) : Inode :=
  let word := (bmaddr s.super.inodeBitmapAddr inum).toNat
  if wordAt (fsread s word (junk.call 0).here 4) 0 = 0 then Inode.decode junk.here
  else Inode.decode (fsread s (lseek (fsreadEnd s word 4) (inodeAddr s inum)) junk.here 128)

theorem readInode_record (s : Serv) (inum : UInt32) (junk : Junk) :
    (readInode s inum junk).2 = record s inum junk := by
  simp only [readInode, record]
  by_cases none : wordAt (fsread s (bmaddr s.super.inodeBitmapAddr inum).toNat
      (junk.call 0).here 4) 0 = 0
  · simp [none]
  · simp [none, mask_ne_zero]

section Entries

def hit (name : List UInt8) (de : Bytes) : Bool := streq de 0 name && wordAt de 28 != minusOne

def slots (s : Serv) (block : UInt32) (de : Bytes) (pos : Nat) : Nat → Bytes × Nat
  | 0 => (de, pos)
  | j + 1 =>
    let start := lseek (slots s block de pos j).2 (block * 4096 + UInt32.ofNat j * 32)
    (fsread s start (slots s block de pos j).1 32, fsreadEnd s start 32)

theorem scanBlock_eq (s : Serv) (block : UInt32) (name : List UInt8) (de : Bytes)
    (pos left j : Nat) :
    scanBlock s block name left j (slots s block de pos j).1 (slots s block de pos j).2 =
      match (List.range' j left).find? fun k => hit name (slots s block de pos (k + 1)).1 with
      | some k => (some ((slots s block de pos (k + 1)).1, block * 4096 + UInt32.ofNat k * 32),
          (slots s block de pos (k + 1)).2)
      | none => (none, (slots s block de pos (j + left)).2) := by
  induction left generalizing j with
  | zero => rfl
  | succ left ih =>
    rw [List.range'_succ, List.find?_cons, scanBlock]
    cases here : hit name (slots s block de pos (j + 1)).1 with
    | true => exact if_pos here
    | false =>
      have passed : ¬ hit name (slots s block de pos (j + 1)).1 = true := by
        rw [here]
        exact Bool.false_ne_true
      rw [show j + (left + 1) = j + 1 + left by omega]
      exact (if_neg passed).trans (ih (j + 1))

def blockPos (s : Serv) (nd : Inode) (junk : Junk) (pos : Nat) : Nat → Nat
  | 0 => pos
  | i + 1 => (slots s (directPtr nd (junk.call 0) i) ((junk.call 1).call i).here
      (blockPos s nd junk pos i) 128).2

def entryAt (s : Serv) (nd : Inode) (junk : Junk) (pos : Nat) (slot : Nat × Nat) : Bytes :=
  (slots s (directPtr nd (junk.call 0) slot.1) ((junk.call 1).call slot.1).here
    (blockPos s nd junk pos slot.1) (slot.2 + 1)).1

theorem scanDir_eq (s : Serv) (nd : Inode) (name : List UInt8) (junk : Junk) (pos left i : Nat) :
    scanDir s nd name junk left i (blockPos s nd junk pos i) =
      (((List.range' i left).flatMap fun i => (List.range 128).map fun j => (i, j)).find?
        fun slot => hit name (entryAt s nd junk pos slot)).map fun slot =>
          (entryAt s nd junk pos slot,
            directPtr nd (junk.call 0) slot.1 * 4096 + UInt32.ofNat slot.2 * 32) := by
  induction left generalizing i with
  | zero => rfl
  | succ left ih =>
    have block := scanBlock_eq s (directPtr nd (junk.call 0) i) name ((junk.call 1).call i).here
      (blockPos s nd junk pos i) 128 0
    rw [← List.range_eq_range'] at block
    change scanBlock s (directPtr nd (junk.call 0) i) name 128 0 ((junk.call 1).call i).here
      (blockPos s nd junk pos i) = match (List.range 128).find?
        ((fun slot => hit name (entryAt s nd junk pos slot)) ∘ fun j => (i, j)) with
      | some k => (some (entryAt s nd junk pos (i, k), _), _)
      | none => (none, blockPos s nd junk pos (i + 1)) at block
    rw [List.range'_succ, List.flatMap_cons, List.find?_append, List.find?_map, scanDir, block]
    cases (List.range 128).find? ((fun slot => hit name (entryAt s nd junk pos slot)) ∘
        fun j => (i, j)) with
    | none => exact ih (i + 1)
    | some j => rfl

def entry (s : Serv) (pinum : UInt32) (junk : Junk) (slot : Nat × Nat) : Bytes :=
  entryAt s (record s pinum (junk.call 0)) junk (readInodeEnd s pinum (junk.call 0)) slot

/-- The first live slot with this name in the blocks of the directory; there is none
in what is not a directory. -/
def found (s : Serv) (pinum : UInt32) (name : List UInt8) (junk : Junk) : Option (Nat × Nat) :=
  let nd := record s pinum (junk.call 0)
  if nd.type ≠ ufsDirectory then none
  else ((List.range (maxBlocks nd.size).toNat).flatMap fun i =>
    (List.range 128).map fun j => (i, j)).find? fun slot => hit name (entry s pinum junk slot)

theorem lookupFile_found (s : Serv) (pinum : UInt32) (name : List UInt8) (junk : Junk) :
    lookupFile s pinum name junk = (found s pinum name junk).map fun slot =>
      (entry s pinum junk slot, directPtr (record s pinum (junk.call 0)) (junk.call 0) slot.1 * 4096 +
        UInt32.ofNat slot.2 * 32) := by
  have scanned := scanDir_eq s (record s pinum (junk.call 0)) name junk
    (readInodeEnd s pinum (junk.call 0)) (maxBlocks (record s pinum (junk.call 0)).size).toNat 0
  rw [← List.range_eq_range', blockPos] at scanned
  simp only [lookupFile, readInode_record, found, entry]
  split
  · rfl
  · exact scanned

theorem found_live {slot : Nat × Nat} (here : found s pinum name junk = some slot) :
    wordAt (entry s pinum junk slot) 28 ≠ minusOne := by
  simp only [found] at here
  split at here
  · cases here
  · have live := List.find?_some here
    rw [hit, Bool.and_eq_true, bne_iff_ne] at live
    exact live.2
end Entries

section Blocks

def NoBlockLeft (s : Serv) : Prop := s.hghstAllocDblk = s.super.dataRegionLen - 1

/-- Between `low` and `high` blocks were taken on the way, and no inode. -/
structure Taken (s t : Serv) (low high : Nat) : Prop where
  inodes : t.highestInode = s.highestInode
  blocks : ∃ count, low ≤ count ∧ count ≤ high ∧
    t.hghstAllocDblk = s.hghstAllocDblk + UInt32.ofNat count

variable {t u : Serv} {low high low' high' : Nat}

theorem Taken.refl (s : Serv) : Taken s s 0 0 :=
  ⟨rfl, 0, le_refl _, le_refl _, (UInt32.add_zero _).symm⟩

theorem Taken.mono (taken : Taken s t low high) (less : low' ≤ low) (more : high ≤ high') :
    Taken s t low' high' := by
  obtain ⟨inodes, count, above, below, counter⟩ := taken
  exact ⟨inodes, count, less.trans above, below.trans more, counter⟩

theorem Taken.congr (taken : Taken s t low high) (inodes : u.highestInode = t.highestInode)
    (blocks : u.hghstAllocDblk = t.hghstAllocDblk) : Taken s u low high :=
  ⟨inodes.trans taken.inodes, by rw [blocks]; exact taken.blocks⟩

theorem Taken.trans (first : Taken s t low high) (second : Taken t u low' high') :
    Taken s u (low + low') (high + high') := by
  obtain ⟨inodes, count, above, below, counter⟩ := first
  obtain ⟨inodes', count', above', below', counter'⟩ := second
  refine ⟨inodes'.trans inodes, count + count', by omega, by omega, ?_⟩
  rw [counter', counter, UInt32.add_assoc, UInt32.ofNat_add]

theorem Taken.changed (taken : Taken s t low high) (some : 0 < low) (few : high < 4294967296) :
    ¬ Unchanged s t := by
  obtain ⟨_, count, above, below, counter⟩ := taken
  intro same
  have equal := congrArg UInt32.toNat (counter.symm.trans same.hghstAllocDblk)
  have bound := s.hghstAllocDblk.toNat_lt
  rw [UInt32.toNat_add, toNat_ofNat_lt (by omega)] at equal
  omega

theorem allocDblk_full (full : NoBlockLeft s) (junk : Junk) : allocDblk s junk = (minusOne, s) :=
  if_pos full

theorem allocDblk_room (room : ¬ NoBlockLeft s) (junk : Junk) :
    Taken s (allocDblk s junk).2 1 1 := by
  have result : allocDblk s junk = _ := if_neg room
  rw [result]
  exact ⟨rfl, 1, le_refl _, le_refl _, rfl⟩

theorem allocDblk_taken (s : Serv) (junk : Junk) : Taken s (allocDblk s junk).2 0 1 := by
  by_cases full : NoBlockLeft s
  · rw [allocDblk_full full]
    exact (Taken.refl s).mono (le_refl _) (Nat.zero_le _)
  · exact (allocDblk_room full junk).mono (Nat.zero_le _) (le_refl _)

theorem fillHoles_taken (junk : Junk) (d : Nat) (s : Serv) (fnd : Inode) :
    Taken s (fillHoles junk d s fnd).2 0 d := by
  induction d generalizing s fnd with
  | zero => exact Taken.refl s
  | succ d ih =>
    have first := allocDblk_taken s (junk.call d)
    simp only [fillHoles]
    generalize allocDblk s (junk.call d) = result at first ⊢
    obtain ⟨ndb, t⟩ := result
    split
    · split
      · exact first.mono (le_refl _) (by omega)
      · exact (first.trans (ih t (fnd.setPtr d ndb))).mono (le_refl _) (by omega)
    · exact (Taken.refl s).mono (le_refl _) (Nat.zero_le _)

theorem fillHoles_room {fnd : Inode} {d : Nat} (hole : fnd.ptr d = minusOne)
    (room : ¬ NoBlockLeft s) (junk : Junk) : Taken s (fillHoles junk (d + 1) s fnd).2 1 (d + 1) := by
  have first := allocDblk_room room (junk.call d)
  simp only [fillHoles, if_pos hole]
  generalize allocDblk s (junk.call d) = result at first ⊢
  obtain ⟨ndb, t⟩ := result
  split
  · exact first.mono (le_refl _) (by omega)
  · exact (first.trans (fillHoles_taken junk d t (fnd.setPtr d ndb))).mono (le_refl _) (by omega)

theorem writeBlocks_taken (s : Serv) (inum : UInt32) (buf : Bytes) (offset nbytes : UInt32)
    (fnd : Inode) (junk : Junk) : Taken s (writeBlocks s inum buf offset nbytes fnd junk).2 0 1 := by
  have kept : Taken s (writeInode s inum fnd) 0 0 := (Taken.refl s).congr rfl rfl
  have second := kept.trans (allocDblk_taken (writeInode s inum fnd) (junk.call 2))
  simp only [writeBlocks]
  generalize allocDblk (writeInode s inum fnd) (junk.call 2) = result at second ⊢
  obtain ⟨ndb, t⟩ := result
  split
  · exact (kept.mono (le_refl _) (Nat.zero_le _)).congr rfl rfl
  · split
    · exact kept.mono (le_refl _) (Nat.zero_le _)
    · split
      · exact second
      · exact second.congr rfl rfl

theorem writeFile_taken (s : Serv) (inum : UInt32) (buf : Bytes) (offset nbytes type : UInt32)
    (junk : Junk) : ∃ high, Taken s (writeFile s inum buf offset nbytes type junk).2 0 high := by
  have filled := fillHoles_taken (junk.call 1) ((offset / 4096).toNat + 1) s
    (readInode s inum (junk.call 0)).2
  simp only [writeFile]
  generalize fillHoles (junk.call 1) ((offset / 4096).toNat + 1) s
    (readInode s inum (junk.call 0)).2 = result at filled ⊢
  obtain ⟨found, t⟩ := result
  split
  · exact ⟨0, Taken.refl s⟩
  · split
    · exact ⟨0, Taken.refl s⟩
    · cases found with
      | none => exact ⟨_, filled⟩
      | some fnd => exact ⟨_, filled.trans (writeBlocks_taken t inum buf offset nbytes fnd junk)⟩

theorem makeDir_taken (s : Serv) (ninum pinum : UInt32) (junk : Junk) :
    Taken s (makeDir s ninum pinum junk).2 0 1 := by
  have taken := allocDblk_taken s (junk.call 1)
  simp only [makeDir]
  generalize allocDblk s (junk.call 1) = result at taken ⊢
  obtain ⟨ndb, t⟩ := result
  split
  · exact taken
  · exact taken.congr rfl rfl

/-- A `Creat` that takes an inode has changed the counter, whatever comes of it. -/
theorem creatFile_changes {type : UInt32}
    (dir : (readInode s pinum (junk.call 0)).2.type = ufsDirectory)
    (absent : lookupFile s pinum name (junk.call 1) = none)
    (room : s.highestInode ≠ s.super.numInodes - 1) :
    ¬ Unchanged s (creatFile s pinum type name junk).2 := by
  have opened : (newInode s type (junk.call 2)).2.highestInode = s.highestInode + 1 := by
    rw [newInode, if_neg room]
    rfl
  have grown : ∀ {t : Serv}, t.highestInode = s.highestInode + 1 → ∀ {u low high},
      Taken t u low high → ¬ Unchanged s u := by
    intro t opened u low high taken same
    have equal := same.highestInode.symm.trans (taken.inodes.trans opened)
    exact absurd (UInt32.add_eq_left.mp equal.symm) (by decide)
  simp only [creatFile, dir, absent, ne_eq, not_true, Option.isSome_none, Bool.false_eq_true,
    if_false]
  generalize newInode s type (junk.call 2) = result at opened ⊢
  obtain ⟨ninum, t⟩ := result
  split
  · exact grown opened (Taken.refl t)
  · split
    · have made := makeDir_taken t ninum pinum (junk.call 3)
      generalize makeDir t ninum pinum (junk.call 3) = result at made ⊢
      obtain ⟨found, u⟩ := result
      cases found with
      | none => exact grown opened made
      | some _ =>
        obtain ⟨high, added⟩ := writeFile_taken u pinum _ _ 32 ufsDirectory ((junk.call 4).call 2)
        exact grown opened (made.trans added)
    · obtain ⟨high, added⟩ := writeFile_taken t pinum _ _ 32 ufsDirectory ((junk.call 4).call 2)
      exact grown opened added
end Blocks

def InTable (s : Serv) (inum : UInt32) (nd : Inode) : Prop :=
  s.image.put (inodeAddr s inum).toNat 128 nd.encode = s.image

/-- When a request is refused and changes nothing, by what the server holds before
it and by fresh memory. Whether the inode is in use does not matter. -/
def Refusal (s : Serv) : Request → Junk → Prop
  | .stat _, _ => False
  | .lookup pinum name, junk => found s pinum name junk = none
  | .read inum offset nbytes, junk =>
    let nd := record s inum (junk.call 0)
    let rdb := (wrap (signed offset / 4096)).toNat
    29 < rdb ∨ nd.ptr rdb = minusOne ∨
      ¬ nbytes ≤ 4096 - offset % 4096 ∧ (rdb = 29 ∨ nd.ptr (rdb + 1) = minusOne)
  | .write inum _ offset nbytes, junk =>
    let nd := record s inum (junk.call 0)
    let ofd := (offset / 4096).toNat
    nd.type ≠ ufsRegularFile ∨ 29 < ofd ∨
      if nd.ptr ofd = minusOne then NoBlockLeft s
      else ¬ nbytes ≤ 4096 - offset % 4096 ∧ (ofd = 29 ∨ NoBlockLeft s) ∧ InTable s inum nd
  | .creat pinum _ name, junk =>
    (record s pinum (junk.call 0)).type ≠ ufsDirectory ∨
      found s pinum name (junk.call 1) = none ∧ s.highestInode = s.super.numInodes - 1
  | .unlink pinum name, junk =>
    ∀ slot, found s pinum name (junk.call 0) = some slot →
      let ind := record s (wordAt (entry s pinum (junk.call 0) slot) 28) (junk.call 1)
      ind.type = ufsDirectory ∧ ind.size > 64

section Refusals

theorem unchanged_self (s : Serv) : Unchanged s s := ⟨rfl, rfl, rfl⟩

theorem minusOne_ne_zero : (0 : UInt32) ≠ minusOne := by decide

theorem lookup_refused_iff (s : Serv) (pinum : UInt32) (name : List UInt8) (junk : Junk) :
    lookupCode (lookupFile s pinum name junk) = minusOne ↔ found s pinum name junk = none := by
  rw [lookupFile_found]
  cases here : found s pinum name junk with
  | none => exact iff_of_true rfl rfl
  | some slot => exact iff_of_false (found_live here) (Option.some_ne_none slot)

section
variable (s : Serv) (inum : UInt32) (buf : Bytes) (offset nbytes : UInt32)

theorem read_refused_iff (junk : Junk) : (readFile s inum buf offset nbytes junk).1 = minusOne ↔
      Refusal s (.read inum offset nbytes) junk := by
  simp only [readFile, Refusal, readInode_record]
  generalize (wrap (signed offset / 4096)).toNat = rdb
  by_cases beyond : rdb > 29
  · rw [if_pos beyond]
    exact iff_of_true rfl (Or.inl beyond)
  · by_cases short : nbytes ≤ 4096 - offset % 4096
    · rw [if_neg beyond, if_pos short]
      split
      · rename_i hole
        exact iff_of_true rfl (Or.inr (Or.inl hole))
      · rename_i mapped
        refine iff_of_false minusOne_ne_zero ?_
        rintro (high | hole | ⟨long, _⟩)
        · exact beyond high
        · exact mapped hole
        · exact long short
    · rw [if_neg beyond, if_neg short]
      by_cases last : rdb = 29
      · rw [if_pos last]
        exact iff_of_true rfl (Or.inr (Or.inr ⟨short, Or.inl last⟩))
      · rw [if_neg last]
        split
        · rename_i hole
          exact iff_of_true rfl (Or.inr (hole.imp_right fun second => ⟨short, Or.inr second⟩))
        · rename_i mapped
          refine iff_of_false minusOne_ne_zero ?_
          rintro (high | hole | ⟨_, last' | hole⟩)
          · exact beyond high
          · exact mapped (Or.inl hole)
          · exact last last'
          · exact mapped (Or.inr hole)

theorem writeBlocks_refused_iff (fnd : Inode) (junk : Junk) :
    ((writeBlocks s inum buf offset nbytes fnd junk).1 = minusOne ∧
        Unchanged s (writeBlocks s inum buf offset nbytes fnd junk).2) ↔
      ¬ nbytes ≤ 4096 - offset % 4096 ∧ ((offset / 4096).toNat = 29 ∨ NoBlockLeft s) ∧
        InTable s inum fnd := by
  have stored : Unchanged s (writeInode s inum fnd) ↔ InTable s inum fnd :=
    ⟨fun same => same.image, fun same => ⟨same, rfl, rfl⟩⟩
  simp only [writeBlocks]
  by_cases short : nbytes ≤ 4096 - offset % 4096
  · rw [if_pos short]
    exact iff_of_false (fun both => minusOne_ne_zero both.1) fun both => both.1 short
  · rw [if_neg short]
    by_cases last : (offset / 4096).toNat = 29
    · rw [if_pos last, stored]
      exact ⟨fun both => ⟨short, Or.inl last, both.2⟩, fun all => ⟨rfl, all.2.2⟩⟩
    · rw [if_neg last]
      by_cases full : NoBlockLeft s
      · rw [allocDblk_full (show NoBlockLeft (writeInode s inum fnd) from full)]
        simp only [↓reduceIte, stored, true_and]
        exact ⟨fun same => ⟨short, Or.inr full, same⟩, fun all => all.2.2⟩
      · -- the counter goes up before the answer is known
        have taken := allocDblk_room (show ¬ NoBlockLeft (writeInode s inum fnd) from full)
          (junk.call 2)
        refine iff_of_false (fun both => ?_) fun all => all.2.1.elim last full
        generalize allocDblk (writeInode s inum fnd) (junk.call 2) = result at taken both
        obtain ⟨ndb, t⟩ := result
        have counted : Taken s t 1 1 := ⟨taken.inodes, taken.blocks⟩
        split at both
        · exact counted.changed Nat.one_pos (by decide) both.2
        · exact minusOne_ne_zero both.1

theorem write_refused_iff (junk : Junk) :
    ((writeFile s inum buf offset nbytes ufsRegularFile junk).1 = minusOne ∧
        Unchanged s (writeFile s inum buf offset nbytes ufsRegularFile junk).2) ↔
      Refusal s (.write inum buf offset nbytes) junk := by
  simp only [writeFile, Refusal, readInode_record]
  generalize record s inum (junk.call 0) = nd
  by_cases typed : nd.type ≠ ufsRegularFile
  · rw [if_pos typed]
    exact iff_of_true ⟨rfl, unchanged_self s⟩ (Or.inl typed)
  · by_cases beyond : (offset / 4096).toNat > 29
    · rw [if_neg typed, if_pos beyond]
      exact iff_of_true ⟨rfl, unchanged_self s⟩ (Or.inr (Or.inl beyond))
    · rw [if_neg typed, if_neg beyond, or_iff_right typed, or_iff_right beyond]
      by_cases hole : nd.ptr (offset / 4096).toNat = minusOne
      · rw [if_pos hole]
        by_cases full : NoBlockLeft s
        · simp only [fillHoles, if_pos hole, allocDblk_full full, ↓reduceIte, true_and]
          exact iff_of_true (unchanged_self s) full
        · have taken := fillHoles_room hole full (junk.call 1)
          refine iff_of_false (fun both => ?_) full
          generalize fillHoles (junk.call 1) ((offset / 4096).toNat + 1) s nd = result at taken both
          obtain ⟨found, t⟩ := result
          cases found with
          | none => exact taken.changed Nat.one_pos (by omega) both.2
          | some fnd =>
            have more := taken.trans (writeBlocks_taken t inum buf offset nbytes fnd junk)
            exact more.changed Nat.one_pos (by omega) both.2
      · simp only [fillHoles, if_neg hole]
        exact writeBlocks_refused_iff s inum buf offset nbytes nd junk
end

theorem creat_refused_iff (s : Serv) (pinum type : UInt32) (name : List UInt8) (junk : Junk) :
    ((creatFile s pinum type name junk).1 = minusOne ∧
        Unchanged s (creatFile s pinum type name junk).2) ↔
      Refusal s (.creat pinum type name) junk := by
  have kept := unchanged_self s
  have lookup := lookupFile_found s pinum name (junk.call 1)
  simp only [Refusal, ← readInode_record]
  by_cases dir : (readInode s pinum (junk.call 0)).2.type = ufsDirectory
  · rw [or_iff_right (not_not_intro dir)]
    cases here : found s pinum name (junk.call 1) with
    | none =>
      rw [here] at lookup
      by_cases full : s.highestInode = s.super.numInodes - 1
      · have refused : creatFile s pinum type name junk = (minusOne, s) := by
          simp [creatFile, dir, lookup, newInode, full]
        rw [refused]
        exact iff_of_true ⟨rfl, kept⟩ ⟨rfl, full⟩
      · exact iff_of_false (fun both => creatFile_changes dir lookup full both.2)
          fun both => full both.2
    | some slot =>
      rw [here] at lookup
      have accepted : creatFile s pinum type name junk = (0, s) := by
        simp [creatFile, dir, lookup]
      rw [accepted]
      exact iff_of_false (fun both => minusOne_ne_zero both.1)
        fun both => Option.some_ne_none slot both.1
  · have refused : creatFile s pinum type name junk = (minusOne, s) := if_pos dir
    rw [refused]
    exact iff_of_true ⟨rfl, kept⟩ (Or.inl dir)

theorem unlink_refused_iff (s : Serv) (pinum : UInt32) (name : List UInt8) (junk : Junk) :
    ((unlinkFile s pinum name junk).1 = minusOne ∧ Unchanged s (unlinkFile s pinum name junk).2) ↔
      Refusal s (.unlink pinum name) junk := by
  simp only [unlinkFile, Refusal, lookupFile_found]
  cases here : found s pinum name (junk.call 0) with
  | none => exact iff_of_true ⟨rfl, unchanged_self s⟩ fun slot none => by cases none
  | some slot =>
    simp only [Option.map_some, unlinkEntry, if_pos (found_live here), readInode_record]
    split
    · rename_i keeps
      exact iff_of_true ⟨rfl, unchanged_self s⟩ fun _ same => Option.some.inj same ▸ keeps
    · rename_i removes
      exact iff_of_false (fun both => minusOne_ne_zero both.1) fun keeps => removes (keeps slot rfl)
end Refusals

/-- Every request is answered -1 without a change exactly if what is read of the
bitmap, of the inode table and of fresh memory is such that the request refuses it.
That the inode is not in use is no reason, and `Stat` has none. -/
theorem request_is_refused_iff (s : Serv) (request : Request) (junk : Junk) :
    (replyCode s request junk = minusOne ∧ Unchanged s (serve s request junk)) ↔
      Refusal s request junk := by
  have answered : ∀ (t : Serv) (code : UInt32), Unchanged s (t.answer code) ↔ Unchanged s t :=
    fun t code => ⟨fun same => ⟨same.1, same.2, same.3⟩, fun same => ⟨same.1, same.2, same.3⟩⟩
  cases request with
  | stat inum => exact iff_of_false (fun both => minusOne_ne_zero both.1) id
  | lookup pinum name =>
    exact (and_iff_left ((answered s _).mpr (unchanged_self s))).trans
      (lookup_refused_iff s pinum name junk)
  | read inum offset nbytes =>
    exact (and_iff_left ⟨rfl, rfl, rfl⟩).trans (read_refused_iff s inum s.rx.buf offset nbytes junk)
  | write inum buf offset nbytes =>
    simp only [replyCode, serve, answered]
    exact write_refused_iff s inum buf offset nbytes junk
  | creat pinum type name =>
    simp only [replyCode, serve, answered]
    exact creat_refused_iff s pinum type name junk
  | unlink pinum name =>
    simp only [replyCode, serve, answered]
    exact unlink_refused_iff s pinum name junk

/-- The word that `read_inode` looks at is zero, or is not there and the variable
it would be read into holds zero. -/
def NoBits (s : Serv) (inum : UInt32) : Prop :=
  wordAt (fsread s (bmaddr s.super.inodeBitmapAddr inum).toNat (fun _ => 0) 4) 0 = 0

theorem stat_answers_zero (s : Serv) (inum : UInt32) (junk : Junk) :
    replyCode s (.stat inum) junk = 0 := rfl

/-- Fresh memory that holds this record where the inode is read, and zeros
everywhere else. -/
def forged (ind : Inode) : Junk := fun path => if path = [] then ind.encode else fun _ => 0

/-- Where the check fails, the handlers work on the record in fresh memory. -/
theorem readInode_forged {inum : UInt32} (none : NoBits s inum) (ind : Inode) :
    readInode s inum (forged ind) = (minusOne, ind) := by
  have word : wordAt (fsread s (bmaddr s.super.inodeBitmapAddr inum).toNat
      ((forged ind).call 0).here 4) 0 = 0 := none
  have record : Inode.decode (forged ind).here = ind := ind.decode_encode
  simp only [readInode, word, record]
  rfl

def fileAt (block : UInt32) : Inode := ⟨ufsRegularFile, 0, fun _ => block⟩

def forgedCall (ind : Inode) : Junk
  | 0 :: path => forged ind path
  | _ => fun _ => 0

/-- Where the check fails, fresh memory decides what a write overwrites: it is
answered 0 and lands in any block, the super block included. -/
theorem write_lands_anywhere {inum : UInt32} (none : NoBits s inum) (block : UInt32)
    (mapped : block ≠ minusOne) (buf : Bytes) (nbytes : UInt32) (small : nbytes ≤ 4096) :
    replyCode s (.write inum buf 0 nbytes) (forgedCall (fileAt block)) = 0 ∧
      ⟨(block * 4096).toNat, nbytes.toNat, buf⟩ ∈
        (serve s (.write inum buf 0 nbytes) (forgedCall (fileAt block))).pending := by
  have record : readInode s inum ((forgedCall (fileAt block)).call 0) = (minusOne, fileAt block) :=
    readInode_forged none _
  have first : (fileAt block).ptr 0 = block := rfl
  have filled : ∀ junk, fillHoles junk 1 s (fileAt block) = (some (fileAt block), s) := by
    intro junk
    simp only [fillHoles, first, if_neg mapped]
  have zero : ((0 : UInt32) / 4096).toNat = 0 := rfl
  have within : (0 : UInt32) % 4096 = 0 := rfl
  have type : ¬ (fileAt block).type ≠ ufsRegularFile := fun differs => differs rfl
  have inside : ¬ 0 > 29 := by omega
  have result : writeFile s inum buf 0 nbytes ufsRegularFile (forgedCall (fileAt block)) =
      (0, growFile (fswrite (writeInode s inum (fileAt block)) (block * 4096) buf nbytes.toNat)
        inum (fileAt block) 0 nbytes) := by
    simp only [writeFile, record, if_neg type, zero, if_neg inside, filled, writeBlocks, within,
      UInt32.sub_zero, if_pos small, first, UInt32.add_zero]
  constructor
  · simp only [replyCode, serve, result]
    rfl
  · simp only [serve, result, Serv.answer, growFile, writeInode, fswrite]
    simp

/-- The bitmap word of inode -1 is far behind the end of a small image. -/
theorem noBits_minusOne (started : Started smallest s) : NoBits s minusOne := by
  obtain ⟨v, sim, _⟩ := started.initial
  have length : s.image.length = 147456 := sim.shows'.length
  have address : (bmaddr s.super.inodeBitmapAddr minusOne).toNat = 536875004 := by
    rw [sim.super]
    rfl
  have beyond : ∀ index, ¬ (index < 4 ∧
      (bmaddr s.super.inodeBitmapAddr minusOne).toNat + index < s.image.length) := by
    intro index inside
    omega
  unfold NoBits fsread
  simp only [if_neg (beyond _)]
  rfl

/-- On a new file system `Stat` of inode 1 is answered 0, and with suitable bytes
in fresh memory a `Write` to inode -1 is answered 0 and goes to the super block.
Neither inode is in use. -/
theorem write_to_no_inode_hits_the_super_block : ∃ s, Started smallest s ∧
    ¬ Allocated s 1 ∧ (∀ junk, replyCode s (.stat 1) junk = 0) ∧ ¬ Allocated s minusOne ∧
      ∃ junk, replyCode s (.write minusOne (fun _ => 0) 0 1) junk = 0 ∧
        ⟨0, 1, fun _ => 0⟩ ∈ (serve s (.write minusOne (fun _ => 0) 0 1) junk).pending := by
  obtain ⟨s, started⟩ := started_exists smallest
  obtain ⟨v, sim, initial⟩ := started.initial
  have absent : ∀ inum : UInt32, inum.toNat ≠ 0 → ¬ Allocated s inum := by
    intro inum other allocated
    have bit := (allocated_iff sim initial.sound inum).mp allocated
    simp only [initial.inodeBit, decide_eq_true_eq] at bit
    exact other bit
  have none := noBits_minusOne started
  have lands := write_lands_anywhere none 0 (by decide) (fun _ => 0) 1 (by decide)
  exact ⟨s, started, absent 1 (by decide), stat_answers_zero s 1, absent minusOne (by decide), _,
    lands⟩

end OsProjects.MissingInodes
