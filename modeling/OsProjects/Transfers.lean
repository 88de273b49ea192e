import OsProjects.Repetition

/-!
The data transfers of `write_file` and `read_file`. `writeFileData` lists the
`fswrite` calls that carry data and `readFileData` the `fsread` calls that do;
the other writes of `write_file` go to the data bitmap and to the slot of the
inode. A transfer should stay inside one block of the file. The length is an
`int` that is compared with an `unsigned int`, so a negative length, which the
client library lets through, counts as more than a block.
-/

namespace OsProjects.Transfers

open ByteStore UfsLayout FileServer Volume VolumeSteps VolumeSound VolumeRefinement Runs ServerRuns
  FirstFiles Repetition List

section Writes

def writeBlocksData (s : Serv) (inum : UInt32) (buf : Bytes) (offset nbytes : UInt32)
    (fnd : Inode) (junk : Junk) : List FsWrite :=
  let ofd := (offset / 4096).toNat
  let ofr := offset % 4096
  let offree := 4096 - ofr
  -- both operands are unsigned here: a negative `nbytes` is larger than any `offree`
  if nbytes ≤ offree then [⟨(fnd.ptr ofd * 4096 + ofr).toNat, nbytes.toNat, buf⟩]
  else if ofd = 29 then []
  else
    let (ndb, _) := allocDblk (writeInode s inum fnd) (junk.call 2)
    if ndb = minusOne then []
    else
      let fnd := fnd.setPtr (ofd + 1) ndb
      [⟨(fnd.ptr ofd * 4096 + ofr).toNat, offree.toNat, buf⟩,
        ⟨(fnd.ptr (ofd + 1) * 4096).toNat, (nbytes - offree).toNat,
          fun index => buf (offree.toNat + index)⟩]

def writeFileData (s : Serv) (inum : UInt32) (buf : Bytes) (offset nbytes type : UInt32)
    (junk : Junk) : List FsWrite :=
  let fnd := (readInode s inum (junk.call 0)).2
  if fnd.type ≠ type then []
  else if (offset / 4096).toNat > 29 then []
  else
    match fillHoles (junk.call 1) ((offset / 4096).toNat + 1) s fnd with
    | (none, _) => []
    | (some fnd, s) => writeBlocksData s inum buf offset nbytes fnd junk

def Metadata (super : Super) (inum : UInt32) (write : FsWrite) : Prop :=
  (∃ k, write.addr = (bmaddr super.dataBitmapAddr k).toNat ∧ write.count = 4) ∨
    write.addr = (super.inodeRegionAddr * 4096 + inum * 128).toNat ∧ write.count = 128

structure Marks (inum : UInt32) (s s' : Serv) : Prop where
  super : s'.super = s.super
  pending : ∃ marks, s'.pending = s.pending ++ marks ∧
    ∀ write ∈ marks, Metadata s.super inum write

variable {s s' s'' : Serv} {inum : UInt32}

namespace Marks

theorem refl (s : Serv) (inum : UInt32) : Marks inum s s := ⟨rfl, [], by simp, by simp⟩

theorem trans (first : Marks inum s s') (second : Marks inum s' s'') : Marks inum s s'' := by
  obtain ⟨super1, marks1, log1, meta1⟩ := first
  obtain ⟨super2, marks2, log2, meta2⟩ := second
  -- addresses of the second call are those of the first, as the super block is the same
  refine ⟨super2.trans super1, marks1 ++ marks2, by rw [log2, log1, append_assoc], ?_⟩
  rw [super1] at meta2
  intro write member
  rcases mem_append.mp member with early | late
  · exact meta1 write early
  · exact meta2 write late

theorem writeInode (s : Serv) (inum : UInt32) (ind : Inode) :
    Marks inum s (FileServer.writeInode s inum ind) :=
  ⟨rfl, [⟨(inodeAddr s inum).toNat, 128, ind.encode⟩], rfl, fun write member => by
    rw [mem_singleton.mp member]
    exact Or.inr ⟨rfl, rfl⟩⟩

theorem allocDblk (s : Serv) (inum : UInt32) (junk : Junk) :
    Marks inum s (FileServer.allocDblk s junk).2 := by
  unfold FileServer.allocDblk
  split
  · exact refl s inum
  · refine ⟨rfl, [_], rfl, fun write member => ?_⟩
    rw [mem_singleton.mp member]
    exact Or.inl ⟨_, rfl, rfl⟩

theorem fillHoles (s : Serv) (inum : UInt32) (d : Nat) (fnd : Inode) (junk : Junk) :
    Marks inum s (FileServer.fillHoles junk d s fnd).2 := by
  induction d generalizing s fnd with
  | zero => exact refl s inum
  | succ d ih =>
    simp only [FileServer.fillHoles]
    split
    · have taken := allocDblk s inum (junk.call d)
      split
      · exact taken
      · exact taken.trans (ih _ _)
    · exact refl s inum
end Marks

def Logs (inum : UInt32) (s s' : Serv) (data : List FsWrite) : Prop :=
  ∃ before after, s'.pending = s.pending ++ before ++ data ++ after ∧
    ∀ write ∈ before ++ after, Metadata s.super inum write

theorem Marks.logs (marks : Marks inum s s') : Logs inum s s' [] := by
  obtain ⟨_, added, log, meta'⟩ := marks
  exact ⟨added, [], by simp [log], by simpa using meta'⟩

theorem Marks.logs_data {t t' : Serv} {data : List FsWrite} (before : Marks inum s s')
    (super : t.super = s'.super) (written : t.pending = s'.pending ++ data)
    (after : Marks inum t t') : Logs inum s t' data := by
  obtain ⟨super1, marks1, log1, meta1⟩ := before
  obtain ⟨_, marks2, log2, meta2⟩ := after
  refine ⟨marks1, marks2, by rw [log2, written, log1], fun write member => ?_⟩
  rcases mem_append.mp member with early | late
  · exact meta1 write early
  · rw [super, super1] at meta2
    exact meta2 write late

theorem writeBlocks_logs {t : Serv} (before : Marks inum s t) (buf : Bytes)
    (offset nbytes : UInt32) (fnd : Inode) (junk : Junk) :
    Logs inum s (writeBlocks t inum buf offset nbytes fnd junk).2
      (writeBlocksData t inum buf offset nbytes fnd junk) := by
  have stored := before.trans (Marks.writeInode t inum fnd)
  simp only [writeBlocks, writeBlocksData, growFile]
  split
  · refine stored.logs_data ?_ ?_ (Marks.writeInode _ _ _) <;> rfl
  · split
    · exact stored.logs
    · have taken := stored.trans (Marks.allocDblk (writeInode t inum fnd) inum (junk.call 2))
      generalize allocDblk (writeInode t inum fnd) (junk.call 2) = result at taken
      obtain ⟨ndb, t'⟩ := result
      split
      · exact taken.logs
      · refine taken.logs_data ?_ ?_ (Marks.writeInode _ _ _)
        · rfl
        · simp [fswrite]

/-- Every `fswrite` of `write_file` is one of its data transfers or goes to the
bitmap or the inode. -/
theorem writeFile_logs (s : Serv) (inum : UInt32) (buf : Bytes) (offset nbytes type : UInt32)
    (junk : Junk) :
    Logs inum s (writeFile s inum buf offset nbytes type junk).2
      (writeFileData s inum buf offset nbytes type junk) := by
  simp only [writeFile, writeFileData]
  split
  · exact (Marks.refl s inum).logs
  · split
    · exact (Marks.refl s inum).logs
    -- blocks may have been taken before the request fails; that is metadata only
    · have filled := Marks.fillHoles s inum ((offset / 4096).toNat + 1)
        (readInode s inum (junk.call 0)).2 (junk.call 1)
      generalize fillHoles (junk.call 1) ((offset / 4096).toNat + 1) s
        (readInode s inum (junk.call 0)).2 = result at filled
      obtain ⟨found, t⟩ := result
      cases found with
      | none => exact filled.logs
      | some fnd => exact writeBlocks_logs filled buf offset nbytes fnd junk

end Writes

section Reads

structure FsRead where
  start : Nat
  count : Nat
  into : Nat

def readFileData (s : Serv) (inum offset nbytes : UInt32) (junk : Junk) : List FsRead :=
  let fnd := (readInode s inum (junk.call 0)).2
  let pos := readInodeEnd s inum (junk.call 1)
  -- `offset` is an `int`, and `floor` rounds a negative one down
  let rdb := (wrap (signed offset / 4096)).toNat
  if rdb > 29 then []
  else
    let rds := offset % 4096
    let rdf := 4096 - rds
    if nbytes ≤ rdf then
      if fnd.ptr rdb = minusOne then []
      else [⟨lseek pos (fnd.ptr rdb * 4096 + rds), nbytes.toNat, 0⟩]
    else if rdb = 29 then []
    else if fnd.ptr rdb = minusOne ∨ fnd.ptr (rdb + 1) = minusOne then []
    else
      let start := lseek pos (fnd.ptr rdb * 4096 + rds)
      let start' := lseek (fsreadEnd s start rdf.toNat) (fnd.ptr (rdb + 1) * 4096)
      [⟨start, rdf.toNat, 0⟩, ⟨start', (nbytes - rdf).toNat, rdf.toNat⟩]

def FsRead.perform (s : Serv) (buf : Bytes) (read : FsRead) : Bytes := fun index =>
  if index < read.into then buf index
  else fsread s read.start (fun k => buf (read.into + k)) read.count (index - read.into)

/-- `read_file` fills the buffer by these calls and no others. -/
theorem readFile_reads (s : Serv) (inum : UInt32) (buf : Bytes) (offset nbytes : UInt32)
    (junk : Junk) :
    (readFile s inum buf offset nbytes junk).2 =
      (readFileData s inum offset nbytes junk).foldl (FsRead.perform s) buf := by
  have first : ∀ (start count : Nat) (buf : Bytes),
      FsRead.perform s buf ⟨start, count, 0⟩ = fsread s start buf count := by
    intro start count buf
    funext index
    simp [FsRead.perform]
  simp only [readFile, readFileData]
  split
  · rfl
  · split
    · split
      · rfl
      · simp only [foldl_cons, foldl_nil, first]
    · split
      · rfl
      · split
        · rfl
        · simp only [foldl_cons, foldl_nil, first]
          rfl

end Reads

/-! Where the transfers go. -/

def InOwnBlock (s : Serv) (inum : UInt32) (addr count : Nat) : Prop :=
  ∃ i < 30, (inodeOf s inum).ptr i ≠ minusOne ∧
    s.super.dataRegionAddr ≤ (inodeOf s inum).ptr i ∧
    ((inodeOf s inum).ptr i).toNat < s.super.dataRegionAddr.toNat + s.super.dataRegionLen.toNat ∧
    4096 * ((inodeOf s inum).ptr i).toNat ≤ addr ∧
    addr + count ≤ 4096 * ((inodeOf s inum).ptr i).toNat + 4096

/-- The data of a write goes to blocks of the file, as the request leaves it, and
a successful write transfers what it was asked to. -/
structure WriteInside (s : Serv) (inum : UInt32) (buf : Bytes) (offset nbytes : UInt32)
    (junk : Junk) : Prop where
  blocks : ∀ write ∈ writeFileData s inum buf offset nbytes ufsRegularFile junk,
    InOwnBlock (writeFile s inum buf offset nbytes ufsRegularFile junk).2 inum write.addr
      write.count
  total : (writeFile s inum buf offset nbytes ufsRegularFile junk).1 = 0 →
    (((writeFileData s inum buf offset nbytes ufsRegularFile junk).map FsWrite.count).sum : Int) =
      signed nbytes

structure ReadInside (s : Serv) (inum : UInt32) (buf : Bytes) (offset nbytes : UInt32)
    (junk : Junk) : Prop where
  blocks : ∀ read ∈ readFileData s inum offset nbytes junk,
    InOwnBlock s inum read.start read.count
  total : (readFile s inum buf offset nbytes junk).1 = 0 →
    (((readFileData s inum offset nbytes junk).map FsRead.count).sum : Int) = signed nbytes

section Inside
variable {g : Geometry} {s : Serv} {v : Vol} {inum : UInt32}

section
variable (sim : Sim g s v) (sound : Sound g v) (bit : v.inodeBit inum.toNat = true) {i : Nat}
  (mapped : (inodeOf s inum).ptr i ≠ minusOne)
include sim sound bit mapped

theorem own_bounds :
    i < 30 ∧ (view (inodeOf s inum)).direct i = some ((inodeOf s inum).ptr i).toNat ∧
      g.dataRegionAddr ≤ ((inodeOf s inum).ptr i).toNat ∧
      ((inodeOf s inum).ptr i).toNat < g.dataRegionAddr + g.numData := by
  have node := inodeOf_eq sim inum (sound.inodeBit_lt _ bit)
  have direct : (view (inodeOf s inum)).direct i = some ((inodeOf s inum).ptr i).toNat := by
    rw [view_direct, if_neg mapped]
  obtain ⟨small, k, less, _, block⟩ := (sound.node _ bit).pointer i _ (node ▸ direct)
  exact ⟨small, direct, by omega, by omega⟩

theorem inOwnBlock_intro {addr count : Nat} (low : 4096 * ((inodeOf s inum).ptr i).toNat ≤ addr)
    (high : addr + count ≤ 4096 * ((inodeOf s inum).ptr i).toNat + 4096) :
    InOwnBlock s inum addr count := by
  have layout := g.layout
  obtain ⟨small, _, above, below⟩ := own_bounds sim sound bit mapped
  have start : s.super.dataRegionAddr.toNat = g.dataRegionAddr := by
    rw [sim.super]
    exact toNat_ofNat_lt (by omega)
  have length : s.super.dataRegionLen.toNat = g.numData := by
    rw [sim.super]
    exact toNat_ofNat_lt (by omega)
  refine ⟨i, small, mapped, ?_, by omega, low, high⟩
  rw [UInt32.le_iff_toNat_le]
  omega

/-- The address of a transfer into a block that the pointer names. -/
theorem place_toNat (offset : UInt32) (small : offset.toNat < 4096) :
    ((inodeOf s inum).ptr i * 4096 + offset).toNat =
      4096 * ((inodeOf s inum).ptr i).toNat + offset.toNat := by
  have layout := g.layout
  -- the block lies in the image, so the product does not wrap around
  obtain ⟨_, direct, _, below⟩ := own_bounds sim sound bit mapped
  exact ptr_place direct offset (by omega)

theorem lseek_own (offset : UInt32) (small : offset.toNat < 4096) (pos : Nat) :
    lseek pos ((inodeOf s inum).ptr i * 4096 + offset) =
      ((inodeOf s inum).ptr i * 4096 + offset).toNat := by
  have layout := g.layout
  have place := place_toNat sim sound bit mapped offset small
  obtain ⟨_, _, _, below⟩ := own_bounds sim sound bit mapped
  exact lseek_low (by omega) pos
end

theorem readFileData_cases (s : Serv) (inum : UInt32) (buf : Bytes) (offset nbytes : UInt32)
    (junk : Junk) :
    (readFileData s inum offset nbytes junk = [] ∧
        (readFile s inum buf offset nbytes junk).1 = minusOne) ∨
      (∃ rdb pos, nbytes ≤ 4096 - offset % 4096 ∧
        (readInode s inum (junk.call 0)).2.ptr rdb ≠ minusOne ∧
        readFileData s inum offset nbytes junk =
          [⟨lseek pos ((readInode s inum (junk.call 0)).2.ptr rdb * 4096 + offset % 4096),
            nbytes.toNat, 0⟩]) ∨
      ∃ rdb pos pos', ¬ nbytes ≤ 4096 - offset % 4096 ∧
        (readInode s inum (junk.call 0)).2.ptr rdb ≠ minusOne ∧
        (readInode s inum (junk.call 0)).2.ptr (rdb + 1) ≠ minusOne ∧
        readFileData s inum offset nbytes junk =
          [⟨lseek pos ((readInode s inum (junk.call 0)).2.ptr rdb * 4096 + offset % 4096),
              (4096 - offset % 4096).toNat, 0⟩,
            ⟨lseek pos' ((readInode s inum (junk.call 0)).2.ptr (rdb + 1) * 4096),
              (nbytes - (4096 - offset % 4096)).toNat, (4096 - offset % 4096).toNat⟩] := by
  simp only [readFile, readFileData]
  split
  · exact Or.inl ⟨rfl, rfl⟩
  · split
    · rename_i short
      split
      · exact Or.inl ⟨rfl, rfl⟩
      · rename_i mapped
        exact Or.inr (Or.inl ⟨_, _, short, mapped, rfl⟩)
    · rename_i long
      split
      · exact Or.inl ⟨rfl, rfl⟩
      · split
        · exact Or.inl ⟨rfl, rfl⟩
        · rename_i mapped
          exact Or.inr (Or.inr ⟨_, _, _, long, fun hole => mapped (Or.inl hole),
            fun hole => mapped (Or.inr hole), rfl⟩)

theorem rest_toNat {offset nbytes : UInt32} (long : ¬ nbytes ≤ 4096 - offset % 4096) :
    (nbytes - (4096 - offset % 4096)).toNat = nbytes.toNat - (4096 - offset.toNat % 4096) ∧
      4096 - offset.toNat % 4096 < nbytes.toNat := by
  have less : 4096 - offset % 4096 < nbytes := UInt32.not_le.mp long
  rw [UInt32.toNat_sub_of_le _ _ (UInt32.le_of_lt less), toNat_free]
  exact ⟨rfl, by rwa [UInt32.lt_iff_toNat_lt, toNat_free] at less⟩

section
variable (sim : Sim g s v) (sound : Sound g v) (bit : v.inodeBit inum.toNat = true)
include sim sound bit

theorem inodeOf_read (junk : Junk) : (readInode s inum junk).2 = inodeOf s inum := by
  have inside := sound.inodeBit_lt _ bit
  exact view_injective ((readInode_sim sim bit inside junk).trans (inodeOf_eq sim inum inside).symm)

theorem rest_inside
    {i : Nat} (mapped : (inodeOf s inum).ptr i ≠ minusOne) {offset : UInt32} {count : Nat}
    (fits : count ≤ 4096 - offset.toNat % 4096) :
    InOwnBlock s inum ((inodeOf s inum).ptr i * 4096 + offset % 4096).toNat count := by
  have inBlock : (offset % 4096).toNat < 4096 := by rw [toNat_mod_block]; omega
  have place := place_toNat sim sound bit mapped (offset % 4096) inBlock
  rw [toNat_mod_block] at place inBlock
  exact inOwnBlock_intro sim sound bit mapped (by omega) (by omega)

theorem start_inside
    {i : Nat} (mapped : (inodeOf s inum).ptr i ≠ minusOne) {count : Nat} (fits : count ≤ 4096) :
    InOwnBlock s inum ((inodeOf s inum).ptr i * 4096).toNat count := by
  have place := place_toNat sim sound bit mapped 0 (by decide)
  rw [UInt32.add_zero, UInt32.toNat_zero, Nat.add_zero] at place
  exact inOwnBlock_intro sim sound bit mapped (by omega) (by omega)
end

theorem signed_of_small {word : UInt32} (small : word.toNat ≤ 4096) : signed word = word.toNat :=
  if_pos (by omega)

theorem read_inside (sim : Sim g s v) (sound : Sound g v) (bit : v.inodeBit inum.toNat = true)
    (buf : Bytes) (offset nbytes : UInt32) (small : nbytes.toNat ≤ 4096) (junk : Junk) :
    ReadInside s inum buf offset nbytes junk := by
  have record := inodeOf_read sim sound bit (junk.call 0)
  rcases readFileData_cases s inum buf offset nbytes junk with
    ⟨none, failed⟩ | ⟨rdb, pos, short, mapped, one⟩ | ⟨rdb, pos, pos', long, mapped, mapped2, two⟩
  · refine ⟨by simp [none], fun success => ?_⟩
    rw [failed] at success
    cases success
  · rw [record] at mapped one
    rw [UInt32.le_iff_toNat_le, toNat_free] at short
    refine ⟨?_, by simp [one, signed_of_small small]⟩
    rw [one, forall_mem_singleton]
    rw [lseek_own sim sound bit mapped _ (by rw [toNat_mod_block]; omega)]
    exact rest_inside sim sound bit mapped short
  · rw [record] at mapped mapped2 two
    obtain ⟨count, more⟩ := rest_toNat long
    constructor
    · rw [two, forall_mem_cons, forall_mem_singleton]
      have second := lseek_own sim sound bit mapped2 0 (by decide) pos'
      rw [UInt32.add_zero] at second
      rw [lseek_own sim sound bit mapped _ (by rw [toNat_mod_block]; omega), second]
      exact ⟨rest_inside sim sound bit mapped (le_of_eq (toNat_free offset)),
        start_inside sim sound bit mapped2 (by simp only [count]; omega)⟩
    · intro _
      simp only [two, map_cons, map_nil, sum_cons, sum_nil, count,
        signed_of_small small, toNat_free]
      omega

/-- With a negative length a transfer is longer than a block. -/
theorem negative_rest (offset : UInt32) {nbytes : UInt32} (negative : signed nbytes < 0) :
    ¬ nbytes ≤ 4096 - offset % 4096 ∧ 4096 < (nbytes - (4096 - offset % 4096)).toNat := by
  have large : 2147483648 ≤ nbytes.toNat := by
    by_contra less
    rw [signed, if_pos (by omega)] at negative
    omega
  have long : ¬ nbytes ≤ 4096 - offset % 4096 := by
    rw [UInt32.le_iff_toNat_le, toNat_free]
    omega
  exact ⟨long, by rw [(rest_toNat long).1]; omega⟩

theorem InOwnBlock.count_le {addr count : Nat} (inside : InOwnBlock s inum addr count) :
    count ≤ 4096 := by
  obtain ⟨_, _, _, _, _, low, high⟩ := inside
  omega

theorem toNat_of_signed {word : UInt32} (natural : ¬ signed word < 0) (small : signed word ≤ 4096) :
    word.toNat ≤ 4096 := by
  have bound := word.toNat_lt
  simp only [signed] at natural small
  split at small
  · omega
  · rename_i large
    rw [if_neg large] at natural
    omega

def ReadsOn (s : Serv) (inum offset : UInt32) : Prop :=
  (wrap (signed offset / 4096)).toNat < 29 ∧
    (inodeOf s inum).ptr (wrap (signed offset / 4096)).toNat ≠ minusOne ∧
    (inodeOf s inum).ptr ((wrap (signed offset / 4096)).toNat + 1) ≠ minusOne

theorem readFileData_eq_nil (sim : Sim g s v) (sound : Sound g v)
    (bit : v.inodeBit inum.toNat = true) {offset nbytes : UInt32}
    (long : ¬ nbytes ≤ 4096 - offset % 4096) (junk : Junk) :
    readFileData s inum offset nbytes junk = [] ↔ ¬ ReadsOn s inum offset := by
  simp only [readFileData, inodeOf_read sim sound bit, ReadsOn]
  by_cases beyond : (wrap (signed offset / 4096)).toNat > 29
  · rw [if_pos beyond]
    exact iff_of_true rfl fun reads => by omega
  · by_cases last : (wrap (signed offset / 4096)).toNat = 29
    · rw [if_neg beyond, if_neg long, if_pos last]
      exact iff_of_true rfl fun reads => by omega
    · have inside : (wrap (signed offset / 4096)).toNat < 29 := by omega
      rw [if_neg beyond, if_neg long, if_neg last]
      by_cases hole : (inodeOf s inum).ptr (wrap (signed offset / 4096)).toNat = minusOne ∨
          (inodeOf s inum).ptr ((wrap (signed offset / 4096)).toNat + 1) = minusOne
      · rw [if_pos hole]
        exact iff_of_true rfl fun reads => hole.elim reads.2.1 reads.2.2
      · rw [if_neg hole]
        rw [not_or] at hole
        exact iff_of_false (cons_ne_nil _ _) fun missed => missed ⟨inside, hole.1, hole.2⟩

theorem read_inside_iff (sim : Sim g s v) (sound : Sound g v)
    (bit : v.inodeBit inum.toNat = true) (buf : Bytes) (offset nbytes : UInt32)
    (small : signed nbytes ≤ 4096) (junk : Junk) :
    ReadInside s inum buf offset nbytes junk ↔ 0 ≤ signed nbytes ∨ ¬ ReadsOn s inum offset := by
  by_cases negative : signed nbytes < 0
  · obtain ⟨long, large⟩ := negative_rest offset negative
    rw [← readFileData_eq_nil sim sound bit long junk]
    rcases readFileData_cases s inum buf offset nbytes junk with
      ⟨none, failed⟩ | ⟨_, _, short, _⟩ | ⟨rdb, _, _, _, _, _, two⟩
    · refine iff_of_true ⟨by simp [none], fun success => ?_⟩ (Or.inr none)
      rw [failed] at success
      cases success
    · exact absurd short long
    -- the second transfer is longer than any block
    · refine iff_of_false (fun inside => ?_) (by simp [two, negative])
      have fits := (inside.blocks _ (two ▸ mem_cons_of_mem _ (mem_singleton_self _))).count_le
      simp only at fits
      omega
  · exact iff_of_true
      (read_inside sim sound bit buf offset nbytes (toNat_of_signed negative small) junk)
      (Or.inl (Int.not_lt.mp negative))

theorem fillHoles_above {d i : Nat} {fnd fnd' : Inode} {s' : Serv} (junk : Junk)
    (filled : fillHoles junk d s fnd = (some fnd', s')) (above : d ≤ i) :
    fnd'.ptr i = fnd.ptr i := by
  induction d generalizing s fnd with
  | zero =>
    cases filled
    rfl
  | succ d ih =>
    simp only [fillHoles] at filled
    split at filled
    · split at filled
      · cases filled
      · rw [ih filled (by omega)]
        by_cases inside : i < 30
        · rw [Inode.ptr_setPtr _ _ _ _ inside, if_neg (by omega)]
        · rw [Inode.ptr_beyond _ _ (by omega), Inode.ptr_beyond _ _ (by omega)]
    · cases filled
      rfl

theorem fillHoles_last {d : Nat} {fnd fnd' : Inode} {s' : Serv} (junk : Junk) (inside : d < 30)
    (filled : fillHoles junk (d + 1) s fnd = (some fnd', s')) : fnd'.ptr d ≠ minusOne := by
  simp only [fillHoles] at filled
  split at filled
  · split at filled
    · cases filled
    · rename_i real
      rw [fillHoles_above junk filled (le_refl d), Inode.ptr_setPtr _ _ _ _ inside, if_pos rfl]
      exact real
  · rename_i mapped
    cases filled
    exact mapped

/-- The ways `write_file` transfers data, with the inode it leaves. -/
theorem writeFileData_cases (s : Serv) (inum : UInt32) (buf : Bytes) (offset nbytes type : UInt32)
    (junk : Junk) :
    (writeFileData s inum buf offset nbytes type junk = [] ∧
        (writeFile s inum buf offset nbytes type junk).1 = minusOne) ∨
      ∃ t ind, (writeFile s inum buf offset nbytes type junk).2 = writeInode t inum ind ∧
        ind.ptr (offset / 4096).toNat ≠ minusOne ∧
        ((nbytes ≤ 4096 - offset % 4096 ∧ writeFileData s inum buf offset nbytes type junk =
            [⟨(ind.ptr (offset / 4096).toNat * 4096 + offset % 4096).toNat, nbytes.toNat, buf⟩]) ∨
          (¬ nbytes ≤ 4096 - offset % 4096 ∧ ind.ptr ((offset / 4096).toNat + 1) ≠ minusOne ∧
            writeFileData s inum buf offset nbytes type junk =
              [⟨(ind.ptr (offset / 4096).toNat * 4096 + offset % 4096).toNat,
                  (4096 - offset % 4096).toNat, buf⟩,
                ⟨(ind.ptr ((offset / 4096).toNat + 1) * 4096).toNat,
                  (nbytes - (4096 - offset % 4096)).toNat,
                  fun index => buf ((4096 - offset % 4096).toNat + index)⟩])) := by
  simp only [writeFile, writeFileData]
  split
  · exact Or.inl ⟨rfl, rfl⟩
  · split
    · exact Or.inl ⟨rfl, rfl⟩
    · rename_i inside
      have mapped : ∀ fnd t, fillHoles (junk.call 1) ((offset / 4096).toNat + 1) s
          (readInode s inum (junk.call 0)).2 = (some fnd, t) →
            fnd.ptr (offset / 4096).toNat ≠ minusOne :=
        fun fnd t filled => fillHoles_last (junk.call 1) (by omega) filled
      generalize fillHoles (junk.call 1) ((offset / 4096).toNat + 1) s
        (readInode s inum (junk.call 0)).2 = result at mapped
      obtain ⟨found, t⟩ := result
      cases found with
      | none => exact Or.inl ⟨rfl, rfl⟩
      | some fnd =>
        have first := mapped fnd t rfl
        simp only [writeBlocks, writeBlocksData, growFile]
        split
        · rename_i short
          exact Or.inr ⟨_, _, rfl, first, Or.inl ⟨short, rfl⟩⟩
        · rename_i long
          split
          · exact Or.inl ⟨rfl, rfl⟩
          · split
            · exact Or.inl ⟨rfl, rfl⟩
            · rename_i notLast real
              refine Or.inr ⟨_, _, rfl, ?_, Or.inr ⟨long, ?_, rfl⟩⟩
              · rw [Inode.ptr_size, Inode.ptr_setPtr _ _ _ _ (by omega), if_neg (by omega)]
                exact first
              · rw [Inode.ptr_size, Inode.ptr_setPtr _ _ _ _ (by omega), if_pos rfl]
                exact real

theorem inodeOf_writeInode {t : Serv} {ind : Inode} (sim : Sim g (writeInode t inum ind) v)
    (inside : inum.toNat < g.numInodes) : inodeOf (writeInode t inum ind) inum = ind := by
  have layout := g.layout
  have place := inodeAddr_toNat sim inum inside
  have start : (writeInode t inum ind).super.inodeRegionAddr.toNat = g.inodeRegionAddr := by
    rw [sim.super]
    exact toNat_ofNat_lt (by omega)
  rw [inodeOf, start, ← place]
  exact nodeAt_written _ _ _

theorem write_inside (sim : Sim g s v) (sound : Sound g v) (bit : v.inodeBit inum.toNat = true)
    (buf : Bytes) (offset nbytes : UInt32) (small : nbytes.toNat ≤ 4096) (junk : Junk) :
    WriteInside s inum buf offset nbytes junk := by
  have inside := sound.inodeBit_lt _ bit
  have after := (writeFile_sim sim sound bit buf offset nbytes ufsRegularFile small junk).2
  have sound' := writeFile_sound sound bit buf offset.toNat nbytes.toNat small
  have writes := (writeFile_outcome (g := g) inum.toNat buf offset.toNat nbytes.toNat
    ufsRegularFile sound.hghstAllocDblk_lt).writes sound.hghstAllocDblk_lt small
  have bit' := writes.inodeBit ▸ bit
  rcases writeFileData_cases s inum buf offset nbytes ufsRegularFile junk with
    ⟨none, failed⟩ | ⟨t, ind, left, mapped, shape⟩
  · refine ⟨by simp [none], fun success => ?_⟩
    rw [failed] at success
    cases success
  · have stored := inodeOf_writeInode (left ▸ after) inside
    rw [← left] at stored
    rw [← stored] at mapped shape
    rcases shape with ⟨short, one⟩ | ⟨long, mapped2, two⟩
    · rw [UInt32.le_iff_toNat_le, toNat_free] at short
      refine ⟨?_, by simp [one, signed_of_small small]⟩
      rw [one, forall_mem_singleton]
      exact rest_inside after sound' bit' mapped short
    · obtain ⟨count, more⟩ := rest_toNat long
      constructor
      · rw [two, forall_mem_cons, forall_mem_singleton]
        exact ⟨rest_inside after sound' bit' mapped (le_of_eq (toNat_free offset)),
          start_inside after sound' bit' mapped2 (by simp only [count]; omega)⟩
      · intro _
        simp only [two, map_cons, map_nil, sum_cons, sum_nil, count,
          signed_of_small small, toNat_free]
        omega

theorem allocDblk_eq_minusOne (sim : Sim g s v) (bound : v.hghstAllocDblk < g.numData)
    (junk : Junk) : (allocDblk s junk).1 = minusOne ↔ v.hghstAllocDblk = g.numData - 1 := by
  have layout := g.layout
  rw [(allocDblk_sim sim bound junk).1, Vol.allocDblk]
  by_cases full : v.hghstAllocDblk = g.numData - 1
  · rw [if_pos full]
    exact iff_of_true rfl full
  · rw [if_neg full]
    exact iff_of_false (blockWord_ne (by omega)) full

/-- A write that is longer than the rest of the block transfers data iff it gets as
far as the second block. -/
theorem writeFileData_eq_nil (sim : Sim g s v) (sound : Sound g v)
    (bit : v.inodeBit inum.toNat = true) (buf : Bytes) {offset nbytes : UInt32}
    (long : ¬ nbytes ≤ 4096 - offset % 4096) (junk : Junk) :
    writeFileData s inum buf offset nbytes ufsRegularFile junk = [] ↔
      ¬ Straddles s inum offset nbytes := by
  have inside := sound.inodeBit_lt _ bit
  have bound := sound.hghstAllocDblk_lt
  have block : (offset / 4096).toNat = offset.toNat / 4096 := toNat_div_block offset
  have more : 4096 - offset.toNat % 4096 < nbytes.toNat := (rest_toNat long).2
  rw [straddles_iff sim inside, GoesOn]
  simp only [writeFileData, inodeOf_read sim sound bit, inodeOf_type sim inum inside, block]
  by_cases typed : (v.node inum.toNat).type = ufsRegularFile
  · rw [if_neg (not_not.mpr typed)]
    by_cases beyond : offset.toNat / 4096 > 29
    · rw [if_pos beyond]
      exact iff_of_true rfl fun goes => by omega
    · rw [if_neg beyond]
      -- the loop over the holes takes as many blocks as are missing
      obtain ⟨filled, result⟩ := fillHoles_sim (offset.toNat / 4096 + 1) (by omega) sim bound
        (inodeOf s inum) (junk.call 1)
      obtain ⟨enough, short⟩ := @fillHoles_counter g v (offset.toNat / 4096 + 1) bound
        (v.node inum.toNat)
      rw [inodeOf_eq sim inum inside] at filled result
      generalize fillHoles (junk.call 1) (offset.toNat / 4096 + 1) s (inodeOf s inum) = loop
        at filled result ⊢
      obtain ⟨found, t⟩ := loop
      cases found with
      | none =>
        refine iff_of_true rfl fun goes => ?_
        exact (enough (by omega)).1 result.symm
      | some fnd =>
        have room : v.hghstAllocDblk + holes (v.node inum.toNat) (offset.toNat / 4096 + 1) <
            g.numData := by
          by_contra none
          rw [short (by omega)] at result
          cases result
        have count := (enough room).2
        have stored := writeInode_sim filled inside fnd
        have taken := allocDblk_eq_minusOne stored (by rw [Vol.setNode, count]; exact room)
          (junk.call 2)
        rw [Vol.setNode, count] at taken
        simp only [writeBlocksData, block, if_neg long]
        by_cases last : offset.toNat / 4096 = 29
        · rw [if_pos last]
          exact iff_of_true rfl fun goes => by omega
        · rw [if_neg last]
          by_cases full : (allocDblk (writeInode t inum fnd) (junk.call 2)).1 = minusOne
          · rw [if_pos full]
            have := taken.mp full
            exact iff_of_true rfl fun goes => by omega
          · rw [if_neg full]
            have left := mt taken.mpr full
            exact iff_of_false (cons_ne_nil _ _) fun stays =>
              stays ⟨typed, by omega, more, by omega⟩
  · rw [if_pos typed]
    exact iff_of_true rfl fun goes => typed goes.1

theorem write_inside_iff (sim : Sim g s v) (sound : Sound g v)
    (bit : v.inodeBit inum.toNat = true) (buf : Bytes) (offset nbytes : UInt32)
    (small : signed nbytes ≤ 4096) (junk : Junk) :
    WriteInside s inum buf offset nbytes junk ↔
      0 ≤ signed nbytes ∨ ¬ Straddles s inum offset nbytes := by
  by_cases negative : signed nbytes < 0
  · obtain ⟨long, large⟩ := negative_rest offset negative
    rw [← writeFileData_eq_nil sim sound bit buf long junk]
    rcases writeFileData_cases s inum buf offset nbytes ufsRegularFile junk with
      ⟨none, failed⟩ | ⟨t, ind, _, _, ⟨short, _⟩ | ⟨_, _, two⟩⟩
    · refine iff_of_true ⟨by simp [none], fun success => ?_⟩ (Or.inr none)
      rw [failed] at success
      cases success
    · exact absurd short long
    · refine iff_of_false (fun inside => ?_) (by simp [two, negative])
      have fits := (inside.blocks _ (two ▸ mem_cons_of_mem _ (mem_singleton_self _))).count_le
      simp only at fits
      omega
  · exact iff_of_true
      (write_inside sim sound bit buf offset nbytes (toNat_of_signed negative small) junk)
      (Or.inl (Int.not_lt.mp negative))

end Inside

/-- The listed transfers are those of the code, and a request the client library
lets through stays inside the blocks of its inode unless its length is negative and
it gets as far as a second block: a write has a place and the data blocks for it, a
read finds both blocks there. -/
theorem transfers_stay_inside_iff (g : Geometry) (s : Serv) (started : Started g s)
    (events : List Event) (all : Allowed step Sessions s events) (inum : UInt32)
    (allocated : Allocated (run step s events) inum) (buf : Bytes) (offset nbytes : UInt32)
    (small : signed nbytes ≤ 4096) (junk : Junk) :
    Logs inum (run step s events)
        (writeFile (run step s events) inum buf offset nbytes ufsRegularFile junk).2
        (writeFileData (run step s events) inum buf offset nbytes ufsRegularFile junk) ∧
      (readFile (run step s events) inum buf offset nbytes junk).2 =
        (readFileData (run step s events) inum offset nbytes junk).foldl
          (FsRead.perform (run step s events)) buf ∧
      (WriteInside (run step s events) inum buf offset nbytes junk ↔
        0 ≤ signed nbytes ∨ ¬ Straddles (run step s events) inum offset nbytes) ∧
      (ReadInside (run step s events) inum buf offset nbytes junk ↔
        0 ≤ signed nbytes ∨ ¬ ReadsOn (run step s events) inum offset) := by
  obtain ⟨v, sim, sound⟩ := sessions_sound started all
  have bit := (allocated_iff sim sound inum).mp allocated
  exact ⟨writeFile_logs _ _ _ _ _ _ _, readFile_reads _ _ _ _ _ _,
    write_inside_iff sim sound bit buf offset nbytes small junk,
    read_inside_iff sim sound bit buf offset nbytes small junk⟩

theorem first_write_stays_inside : ∃ s, Allowed step Sessions s [creatA] ∧
    WriteInside (run step s [creatA]) 1 (fun _ => 7) 0 4 noJunk ∧
    ReadInside (run step s [creatA]) 1 (fun _ => 0) 0 4 noJunk := by
  obtain ⟨s, started⟩ := started_exists smallest
  obtain ⟨all, v, rooted⟩ := Started.creatA started
  have stays := fun buf => transfers_stay_inside_iff smallest s started [creatA]
    (oneRun_sessions all) 1 (rooted.allocated 1 (by decide)) buf 0 4 (by decide) noJunk
  exact ⟨s, oneRun_sessions all, (stays (fun _ => 7)).2.2.1.mpr (Or.inl (by decide)),
    (stays (fun _ => 0)).2.2.2.mpr (Or.inl (by decide))⟩

/-- The second transfer of a write of -1 bytes is 4294963199 bytes long. -/
theorem negative_length_leaves_the_block : ∃ s, Started smallest s ∧
    Allowed step Sessions s [creatA] ∧ Allocated (run step s [creatA]) 1 ∧
    signed 4294967295 ≤ 4096 ∧
    ¬ WriteInside (run step s [creatA]) 1 (fun _ => 0) 0 4294967295 noJunk := by
  obtain ⟨s, started⟩ := started_exists smallest
  obtain ⟨all, v, rooted⟩ := Started.creatA started
  have bit : v.inodeBit (1 : UInt32).toNat = true := rooted.bit 1 (le_refl _)
  have empty : v.node (1 : UInt32).toNat = Node.fresh ufsRegularFile := rooted.files 1 (by decide) bit
  have straddles : Straddles (run step s [creatA]) 1 0 4294967295 := by
    refine (straddles_iff rooted.backed.sim (by decide) 0 4294967295).mpr ?_
    rw [GoesOn, empty, rooted.hghstAllocDblk]
    exact ⟨rfl, by decide, by decide, by decide⟩
  refine ⟨s, started, oneRun_sessions all, rooted.allocated 1 (by decide), by decide, ?_⟩
  rw [write_inside_iff rooted.backed.sim rooted.backed.sound bit _ _ _ (by decide)]
  rintro (natural | stays)
  · revert natural
    decide
  · exact stays straddles

end OsProjects.Transfers
