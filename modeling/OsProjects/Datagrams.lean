import OsProjects.MissingInodes

/-!
`run_udp` on the bytes of its two packets. A datagram overwrites the front of
`buf_pk`, an operation sets some fields of `rx_pk`, and neither packet is ever
cleared: what a request leaves out is taken from the requests before it, and what
an operation does not set is sent back as the replies before it left it. Apart
from that an answer is determined by the files, the counters and the request.
-/

namespace OsProjects.Datagrams

open ByteStore UfsLayout FileServer Volume VolumeSound VolumeRefinement MkfsImage Runs ServerRuns
  DirectoryBlocks BlockOwnership DirectorySlots FirstFiles Crashes MissingInodes

variable {s s' : Serv} {junk : Junk}

/-- What `recvfrom` hands to `UDP_Read`; `sizeof(message_t)` is 4152. -/
structure Datagram where
  bytes : Bytes
  length : Nat
  nonempty : 1 ≤ length
  fits : length ≤ 4152

inductive MfsOps where
  | init
  | lookup
  | stat
  | write
  | read
  | creat
  | unlink
  | shutdown
  | feedback
  deriving DecidableEq

def MfsOps.ofWord (word : UInt32) : Option MfsOps :=
  [init, lookup, stat, write, read, creat, unlink, shutdown, feedback][word.toNat]?

/-- A string from `name` on. C reads on behind its 28 bytes to the next NUL; the
operations that have a name are small numbers, so `msg` ends it at the latest. -/
def nameOf (pk : Bytes) : List UInt8 :=
  ((List.range 48).map fun index => pk (4096 + index)).takeWhile (· != 0)

/-- The fields of a `message_t` that the server reads. `buf` comes first, so it is
the packet itself. -/
structure Message where
  buf : Bytes
  name : List UInt8
  offset : UInt32
  nbytes : UInt32
  mtype : UInt32
  nodeNum : UInt32
  msg : UInt32

def Message.ofPacket (pk : Bytes) : Message :=
  ⟨pk, nameOf pk, wordAt pk 4124, wordAt pk 4128, wordAt pk 4132, wordAt pk 4136, wordAt pk 4140⟩

def feedback (rx : Bytes) (code : UInt32) : Bytes := putWord (putWord rx 4136 code) 4140 8

/-- The branches of `run_udp`: the server and `rx_pk` when the reply is sent.
There is none if the server ends, and none if a transfer of more than a whole
packet runs over the end of it. -/
def handle (s : Serv) (rx : Bytes) (m : Message) (junk : Junk) : Option (Serv × Bytes) :=
  match MfsOps.ofWord m.msg with
  | some .lookup => some (s, feedback rx (lookupCode (lookupFile s m.nodeNum m.name junk)))
  | some .stat =>
    let ind := (readInode s m.nodeNum junk).2
    some (s, feedback (putWord (putWord rx 4148 ind.size) 4144 ind.type) 0)
  | some .write =>
    let (code, s) := writeFile s m.nodeNum m.buf m.offset m.nbytes ufsRegularFile junk
    if code = 0 ∧ 4152 < m.nbytes.toNat then none else some (s, feedback rx code)
  | some .read =>
    let (code, rx) := readFile s m.nodeNum rx m.offset m.nbytes junk
    if code = 0 ∧ 4152 < m.nbytes.toNat then none else some (s, feedback rx code)
  | some .creat =>
    let (code, s) := creatFile s m.nodeNum m.mtype m.name junk
    some (s, feedback rx code)
  | some .unlink =>
    let (code, s) := unlinkFile s m.nodeNum m.name junk
    some (s, feedback rx code)
  | some .feedback => some (s, putWord rx 4140 8)
  | some .shutdown | some .init | none => none

/-- The locals of `run_udp` and the server. The reply is `rxPk`; the copy of it
in `serv.rx` is not looked at. -/
structure Udp where
  serv : Serv
  bufPk : Bytes
  rxPk : Bytes

def turn (u : Udp) (d : Datagram) (junk : Junk) : Option Udp :=
  let bufPk := overwrite u.bufPk 0 d.length d.bytes
  (handle u.serv u.rxPk (Message.ofPacket bufPk) junk).map fun (serv, rxPk) => ⟨serv, bufPk, rxPk⟩

def start (image : Image) (junk : Junk) : Udp :=
  ⟨initializeServ image (junk.call 0), (junk.call 1).here, (junk.call 2).here⟩

def turns (u : Udp) (history : List (Datagram × Junk)) : Option Udp :=
  history.foldlM (fun u (d, junk) => turn u d junk) u

def Reached (image : Image) (u : Udp) : Prop :=
  ∃ junk history, turns (start image junk) history = some u

structure SameFiles (s s' : Serv) : Prop where
  image : s'.image = s.image
  highestInode : s'.highestInode = s.highestInode
  hghstAllocDblk : s'.hghstAllocDblk = s.hghstAllocDblk

structure Alike (s s' : Serv) : Prop extends SameFiles s s' where
  super : s'.super = s.super

structure Matched {Result : Type} (x x' : Result × Serv) : Prop where
  result : x'.1 = x.1
  alike : Alike x.2 x'.2

theorem Matched.exists_eq {Result : Type} {x x' : Result × Serv} (matched : Matched x x') :
    ∃ result t t', x = (result, t) ∧ x' = (result, t') ∧ Alike t t' := by
  obtain ⟨result, t⟩ := x
  obtain ⟨result', t'⟩ := x'
  obtain ⟨same, alike⟩ := matched
  subst same
  exact ⟨_, t, t', rfl, rfl, alike⟩

theorem put_congr (image : Image) (addr count : Nat) {source source' : Bytes}
    (same : ∀ index < count, source' index = source index) :
    image.put addr count source' = image.put addr count source :=
  Image.ext_bytes (overwrite_congr _ _ _ _ _ same) rfl

namespace Alike
variable (alike : Alike s s')
include alike

theorem readInode (inum : UInt32) (junk : Junk) : readInode s' inum junk = readInode s inum junk :=
  readInode_disk alike.super alike.image inum junk

theorem lookupFile (pinum : UInt32) (name : List UInt8) (junk : Junk) :
    lookupFile s' pinum name junk = lookupFile s pinum name junk :=
  lookupFile_disk alike.super alike.image pinum name junk

theorem readFile (inum : UInt32) (buf : Bytes) (offset nbytes : UInt32) (junk : Junk) :
    readFile s' inum buf offset nbytes junk = readFile s inum buf offset nbytes junk :=
  readFile_disk alike.super alike.image inum buf offset nbytes junk

theorem fswrite (addr : UInt32) {buf buf' : Bytes} {nbytes : Nat}
    (same : ∀ index < nbytes, buf' index = buf index) :
    Alike (fswrite s addr buf nbytes) (fswrite s' addr buf' nbytes) where
  image := by simp only [FileServer.fswrite, alike.image, put_congr _ _ _ same]
  highestInode := alike.highestInode
  hghstAllocDblk := alike.hghstAllocDblk
  super := alike.super

theorem fswrite_same (addr : UInt32) (buf : Bytes) (nbytes : Nat) :
    Alike (FileServer.fswrite s addr buf nbytes) (FileServer.fswrite s' addr buf nbytes) :=
  alike.fswrite addr fun _ _ => rfl

theorem writeInode (inum : UInt32) (ind : Inode) :
    Alike (writeInode s inum ind) (writeInode s' inum ind) := by
  have addr : inodeAddr s' inum = inodeAddr s inum := by simp only [inodeAddr, alike.super]
  simp only [FileServer.writeInode, addr]
  exact alike.fswrite_same _ _ _

theorem growFile (inum : UInt32) (fnd : Inode) (offset nbytes : UInt32) :
    Alike (growFile s inum fnd offset nbytes) (growFile s' inum fnd offset nbytes) :=
  alike.writeInode _ _

theorem matched {Result : Type} (result : Result) : Matched (result, s) (result, s') := ⟨rfl, alike⟩

omit alike in
theorem trans {s'' : Serv} (first : Alike s s') (second : Alike s' s'') : Alike s s'' :=
  ⟨⟨second.image.trans first.image, second.highestInode.trans first.highestInode,
    second.hghstAllocDblk.trans first.hghstAllocDblk⟩, second.super.trans first.super⟩

theorem exists_eq : ∃ pending rx, s' = { s with pending, rx } := by
  obtain ⟨⟨image, highestInode, hghstAllocDblk⟩, super⟩ := alike
  refine ⟨s'.pending, s'.rx, ?_⟩
  rw [← image, ← highestInode, ← hghstAllocDblk, ← super]

theorem allocDblk (junk : Junk) : Matched (allocDblk s junk) (allocDblk s' junk) := by
  obtain ⟨pending, rx, rfl⟩ := alike.exists_eq
  unfold FileServer.allocDblk
  dsimp only
  split
  · exact alike.matched _
  · have counted : Alike { s with hghstAllocDblk := s.hghstAllocDblk + 1 }
        { s with hghstAllocDblk := s.hghstAllocDblk + 1, pending, rx } :=
      ⟨⟨rfl, rfl, rfl⟩, rfl⟩
    simp only [fsread_image counted.image]
    exact (counted.fswrite_same _ _ _).matched _

theorem newInode (type : UInt32) (junk : Junk) :
    Matched (newInode s type junk) (newInode s' type junk) := by
  obtain ⟨pending, rx, rfl⟩ := alike.exists_eq
  unfold FileServer.newInode
  dsimp only
  split
  · exact alike.matched _
  · have counted : Alike { s with highestInode := s.highestInode + 1 }
        { s with highestInode := s.highestInode + 1, pending, rx } :=
      ⟨⟨rfl, rfl, rfl⟩, rfl⟩
    simp only [fsread_image counted.image]
    exact ((counted.fswrite_same _ _ _).writeInode _ _).matched _

omit alike in
theorem fillHoles (junk : Junk) (count : Nat) (alike : Alike s s') (fnd : Inode) :
    Matched (fillHoles junk count s fnd) (fillHoles junk count s' fnd) := by
  induction count generalizing s s' fnd with
  | zero => exact alike.matched _
  | succ d ih =>
    obtain ⟨ndb, t, t', here, there, after⟩ := (alike.allocDblk (junk.call d)).exists_eq
    unfold FileServer.fillHoles
    simp only [here, there]
    split
    · split
      · exact after.matched _
      · exact ih after _
    · exact alike.matched _

section
variable (inum : UInt32) {buf buf' : Bytes} (offset : UInt32) {nbytes : UInt32}
  (same : ∀ index < nbytes.toNat, buf' index = buf index)
include same

theorem writeBlocks (fnd : Inode) (junk : Junk) :
    Matched (writeBlocks s inum buf offset nbytes fnd junk)
      (writeBlocks s' inum buf' offset nbytes fnd junk) := by
  have noted := alike.writeInode inum fnd
  obtain ⟨ndb, t, t', here, there, after⟩ := (noted.allocDblk (junk.call 2)).exists_eq
  unfold FileServer.writeBlocks
  simp only [here, there]
  split
  · exact ((noted.fswrite _ same).growFile _ _ _ _).matched _
  · rename_i above
    split
    · exact noted.matched _
    · split
      · exact after.matched _
      · -- the two parts together are the bytes of the request
        have larger : (4096 - offset % 4096).toNat < nbytes.toNat :=
          UInt32.lt_iff_toNat_lt.mp (UInt32.not_le.mp above)
        have parts : (nbytes - (4096 - offset % 4096)).toNat =
            nbytes.toNat - (4096 - offset % 4096).toNat :=
          UInt32.toNat_sub_of_le _ _ (UInt32.le_iff_toNat_le.mpr larger.le)
        refine (((after.fswrite _ fun index small => same index ?_).fswrite _
          fun index small => same _ ?_).growFile _ _ _ _).matched _ <;> omega

theorem writeFile (type : UInt32) (junk : Junk) :
    Matched (writeFile s inum buf offset nbytes type junk)
      (writeFile s' inum buf' offset nbytes type junk) := by
  obtain ⟨found, t, t', here, there, after⟩ := (fillHoles (junk.call 1)
    ((offset / 4096).toNat + 1) alike (FileServer.readInode s inum (junk.call 0)).2).exists_eq
  unfold FileServer.writeFile
  simp only [alike.readInode, here, there]
  split
  · exact alike.matched _
  · split
    · exact alike.matched _
    · cases found with
      | none => exact after.matched _
      | some fnd => exact after.writeBlocks inum offset same fnd junk
end

theorem makeDir (ninum pinum : UInt32) (junk : Junk) :
    Matched (makeDir s ninum pinum junk) (makeDir s' ninum pinum junk) := by
  obtain ⟨ndb, t, t', here, there, after⟩ := (alike.allocDblk (junk.call 1)).exists_eq
  unfold FileServer.makeDir
  simp only [alike.readInode, here, there]
  split
  · exact after.matched _
  · exact ((after.fswrite_same _ _ _).writeInode _ _).matched _

theorem addEntry (pinum ninum : UInt32) (name : List UInt8) (junk : Junk) :
    Alike (addEntry s pinum ninum name junk) (addEntry s' pinum ninum name junk) := by
  unfold FileServer.addEntry
  simp only [alike.readInode]
  exact (alike.writeFile pinum _ (fun _ _ => rfl) ufsDirectory _).alike

theorem creatFile (pinum type : UInt32) (name : List UInt8) (junk : Junk) :
    Matched (creatFile s pinum type name junk) (creatFile s' pinum type name junk) := by
  obtain ⟨ninum, t, t', here, there, opened⟩ := (alike.newInode type (junk.call 2)).exists_eq
  obtain ⟨made, t1, t1', here', there', after⟩ :=
    (opened.makeDir ninum pinum (junk.call 3)).exists_eq
  unfold FileServer.creatFile
  simp only [alike.readInode, alike.lookupFile, here, there, here', there']
  split
  · exact alike.matched _
  · split
    · exact alike.matched _
    · split
      · exact opened.matched _
      · split
        · cases made with
          | none => exact after.matched _
          | some _ => exact (after.addEntry _ _ _ _).matched _
        · exact (opened.addEntry _ _ _ _).matched _

theorem shrinkDir (pinum addr : UInt32) (junk : Junk) :
    Alike (shrinkDir s pinum addr junk) (shrinkDir s' pinum addr junk) := by
  unfold FileServer.shrinkDir
  simp only [alike.readInode]
  exact alike.writeInode _ _

theorem unlinkFile (pinum : UInt32) (name : List UInt8) (junk : Junk) :
    Matched (unlinkFile s pinum name junk) (unlinkFile s' pinum name junk) := by
  unfold FileServer.unlinkFile
  simp only [alike.lookupFile]
  split
  · exact alike.matched _
  · unfold unlinkEntry
    simp only [alike.readInode]
    split
    · split
      · exact alike.matched _
      · exact ((alike.fswrite_same _ _ _).shrinkDir _ _ _).matched _
    · exact (alike.shrinkDir _ _ _).matched _
end Alike

/-- The place in the image that byte `index` of an `fsread` comes from; there is
none where the buffer keeps its byte. -/
def fsreadSource (s : Serv) (start nbytes index : Nat) : Option Nat :=
  if index < nbytes ∧ start + index < s.image.length then some (start + index) else none

theorem fsread_source (s : Serv) (start : Nat) (buf : Bytes) (nbytes index : Nat) :
    fsread s start buf nbytes index =
      ((fsreadSource s start nbytes index).map s.image.bytes).getD (buf index) := by
  unfold fsread fsreadSource
  split <;> rfl

theorem fsreadSource_beyond (s : Serv) (start : Nat) {nbytes index : Nat}
    (beyond : nbytes ≤ index) : fsreadSource s start nbytes index = none :=
  if_neg fun inside => absurd inside.1 (by omega)

def readSource (s : Serv) (inum offset nbytes : UInt32) (junk : Junk) (index : Nat) : Option Nat :=
  let fnd := (readInode s inum (junk.call 0)).2
  let rdb := (wrap (signed offset / 4096)).toNat
  let rds := offset % 4096
  let rdf := 4096 - rds
  let start := lseek (readInodeEnd s inum (junk.call 1)) (fnd.ptr rdb * 4096 + rds)
  let start' := lseek (fsreadEnd s start rdf.toNat) (fnd.ptr (rdb + 1) * 4096)
  if (readFile s inum (fun _ => 0) offset nbytes junk).1 ≠ 0 then none
  else if nbytes ≤ rdf then fsreadSource s start nbytes.toNat index
  else if index < rdf.toNat then fsreadSource s start rdf.toNat index
  else fsreadSource s start' (nbytes - rdf).toNat (index - rdf.toNat)

theorem readFile_code (s : Serv) (inum : UInt32) (buf buf' : Bytes) (offset nbytes : UInt32)
    (junk : Junk) :
    (readFile s inum buf offset nbytes junk).1 = (readFile s inum buf' offset nbytes junk).1 := by
  unfold readFile
  dsimp only
  split_ifs <;> rfl

theorem readFile_source (s : Serv) (inum : UInt32) (buf : Bytes) (offset nbytes : UInt32)
    (junk : Junk) (index : Nat) :
    (readFile s inum buf offset nbytes junk).2 index =
      ((readSource s inum offset nbytes junk index).map s.image.bytes).getD (buf index) := by
  have refused : minusOne ≠ 0 := by decide
  unfold readSource readFile
  dsimp only
  split_ifs <;> simp_all [fsread_source]
  -- behind the first block, where the first of the two calls reads nothing
  rename_i behind
  rw [if_neg (by omega), fsreadSource_beyond s _ behind]
  rfl

def Sets (s : Serv) (m : Message) (junk : Junk) (index : Nat) : Prop :=
  match MfsOps.ofWord m.msg with
  | some .feedback => 4140 ≤ index ∧ index < 4144
  | some .stat => 4136 ≤ index ∧ index < 4152
  | some .read => (readSource s m.nodeNum m.offset m.nbytes junk index).isSome ∨
      4136 ≤ index ∧ index < 4144
  | _ => 4136 ≤ index ∧ index < 4144

/-- Two packets are filled with the same bytes in the same places, and keep what
they had in the others. -/
structure Filled (sets : Nat → Prop) (rx rx' filled filled' : Bytes) : Prop where
  same : ∀ index, sets index → filled' index = filled index
  kept : ∀ index, ¬ sets index → filled index = rx index ∧ filled' index = rx' index

namespace Filled
variable {sets sets' : Nat → Prop} {rx rx' filled filled' : Bytes}

theorem nothing (rx rx' : Bytes) : Filled (fun _ => False) rx rx' rx rx' :=
  ⟨fun _ none => none.elim, fun _ _ => ⟨rfl, rfl⟩⟩

theorem congr (both : Filled sets rx rx' filled filled') (iff : ∀ index, sets' index ↔ sets index) :
    Filled sets' rx rx' filled filled' where
  same index set := both.same index ((iff index).mp set)
  kept index unset := both.kept index fun set => unset ((iff index).mpr set)

theorem putWord (both : Filled sets rx rx' filled filled') (addr : Nat) (word : UInt32) :
    Filled (fun index => sets index ∨ addr ≤ index ∧ index < addr + 4) rx rx'
      (putWord filled addr word) (putWord filled' addr word) where
  same index set := by
    by_cases inside : addr ≤ index ∧ index < addr + 4
    · simp only [ByteStore.putWord, overwrite, if_pos inside]
    · simp only [ByteStore.putWord, overwrite, if_neg inside]
      exact both.same index (set.resolve_right inside)
  kept index unset := by
    rw [putWord_outside (by omega), putWord_outside (by omega)]
    exact both.kept index fun set => unset (Or.inl set)

theorem feedback (both : Filled sets rx rx' filled filled') (code : UInt32) :
    Filled (fun index => sets index ∨ 4136 ≤ index ∧ index < 4144) rx rx'
      (feedback filled code) (feedback filled' code) :=
  ((both.putWord 4136 code).putWord 4140 8).congr fun index => by
    rw [or_assoc]
    exact or_congr_right (by omega)

theorem code (rx rx' : Bytes) (code : UInt32) :
    Filled (fun index => 4136 ≤ index ∧ index < 4144) rx rx' (Datagrams.feedback rx code)
      (Datagrams.feedback rx' code) :=
  ((nothing rx rx').feedback code).congr fun index => by simp

theorem readFile (alike : Alike s s') (inum : UInt32) (rx rx' : Bytes) (offset nbytes : UInt32)
    (junk : Junk) :
    Filled (fun index => (readSource s inum offset nbytes junk index).isSome) rx rx'
      (readFile s inum rx offset nbytes junk).2
      (FileServer.readFile s' inum rx' offset nbytes junk).2 := by
  constructor
  · intro index set
    obtain ⟨addr, source⟩ := Option.isSome_iff_exists.mp set
    rw [alike.readFile, readFile_source, readFile_source, source]
    rfl
  · intro index unset
    have source := Option.not_isSome_iff_eq_none.mp unset
    rw [alike.readFile, readFile_source, readFile_source, source]
    exact ⟨rfl, rfl⟩
end Filled

/-- Alike servers answer one request alike: with the same files afterwards, and
with packets that are filled with the same bytes. For a write the request has to
bring the bytes along. -/
theorem handle_alike (alike : Alike s s') {m : Message} {buf : Bytes} (buf' rx rx' : Bytes)
    (same : MfsOps.ofWord m.msg = some .write → ∀ index < m.nbytes.toNat, buf' index = buf index)
    {t : Serv} {filled : Bytes} (handled : handle s rx { m with buf } junk = some (t, filled)) :
    ∃ t' filled', handle s' rx' { m with buf := buf' } junk = some (t', filled') ∧ Alike t t' ∧
      Filled (Sets s m junk) rx rx' filled filled' := by
  unfold handle at handled ⊢
  unfold Sets
  dsimp only at handled ⊢
  cases op : MfsOps.ofWord m.msg with
  | none => simp [op] at handled
  | some o =>
    cases o with
    | init | shutdown => simp [op] at handled
    | lookup =>
      simp only [op] at handled
      cases handled
      exact ⟨_, _, rfl, alike, by rw [alike.lookupFile]; exact Filled.code _ _ _⟩
    | stat =>
      simp only [op] at handled
      cases handled
      refine ⟨_, _, rfl, alike, ?_⟩
      rw [alike.readInode]
      have stat := ((Filled.nothing rx rx').putWord 4148
        (readInode s m.nodeNum junk).2.size).putWord 4144 (readInode s m.nodeNum junk).2.type
      exact (stat.feedback 0).congr fun index => by simp only [false_or]; omega
    | write =>
      -- only here does the server take bytes from the packet's buffer
      obtain ⟨code, s1, s1', here, there, after⟩ :=
        (alike.writeFile m.nodeNum m.offset (same op) ufsRegularFile junk).exists_eq
      simp only [op, here, there] at handled ⊢
      split at handled
      · cases handled
      · rename_i whole
        cases handled
        exact ⟨_, _, if_neg whole, after, Filled.code _ _ _⟩
    | read =>
      -- the reply keeps its old bytes where nothing is read
      have filled := Filled.readFile alike m.nodeNum rx rx' m.offset m.nbytes junk
      have code : (readFile s' m.nodeNum rx' m.offset m.nbytes junk).1 =
          (readFile s m.nodeNum rx m.offset m.nbytes junk).1 := by
        rw [alike.readFile]
        exact readFile_code _ _ _ _ _ _ _
      simp only [op, code] at handled ⊢
      split at handled
      · cases handled
      · rename_i whole
        cases handled
        exact ⟨_, _, if_neg whole, alike, filled.feedback _⟩
    | creat =>
      obtain ⟨code, s1, s1', here, there, after⟩ :=
        (alike.creatFile m.nodeNum m.mtype m.name junk).exists_eq
      simp only [op, here, there] at handled ⊢
      cases handled
      exact ⟨_, _, rfl, after, Filled.code _ _ _⟩
    | unlink =>
      obtain ⟨code, s1, s1', here, there, after⟩ :=
        (alike.unlinkFile m.nodeNum m.name junk).exists_eq
      simp only [op, here, there] at handled ⊢
      cases handled
      exact ⟨_, _, rfl, after, Filled.code _ _ _⟩
    | feedback =>
      simp only [op] at handled
      cases handled
      refine ⟨_, _, rfl, alike, ((Filled.nothing rx rx').putWord 4140 8).congr fun index => ?_⟩
      simp only [false_or]

theorem handle_works {rx filled : Bytes} {m : Message} {t : Serv}
    (handled : handle s rx m junk = some (t, filled)) : Works s t := by
  unfold handle at handled
  split at handled
  -- a transfer of more than a packet has no result
  case h_3 =>
    dsimp only at handled
    split_ifs at handled
    cases handled
    exact Works.writeFile s _ _ _ _ _ _
  case h_4 =>
    dsimp only at handled
    split_ifs at handled
    cases handled
    exact Works.refl
  case h_5 =>
    cases handled
    exact Works.creatFile s _ _ _ _
  case h_6 =>
    cases handled
    exact Works.unlinkFile s _ _ _
  case h_1 | h_2 | h_7 =>
    cases handled
    exact Works.refl
  all_goals cases handled

theorem turn_eq_some {u v : Udp} (handled : turn u d junk = some v) :
    v.bufPk = overwrite u.bufPk 0 d.length d.bytes ∧
      handle u.serv u.rxPk (Message.ofPacket v.bufPk) junk = some (v.serv, v.rxPk) := by
  obtain ⟨⟨t, filled⟩, answered, rfl⟩ := Option.map_eq_some_iff.mp handled
  exact ⟨rfl, answered⟩

theorem turn_of_handle {u : Udp} {t : Serv} {filled : Bytes}
    (handled : handle u.serv u.rxPk (Message.ofPacket (overwrite u.bufPk 0 d.length d.bytes)) junk =
      some (t, filled)) :
    turn u d junk = some ⟨t, overwrite u.bufPk 0 d.length d.bytes, filled⟩ := by
  rw [turn, handled]
  rfl

theorem turns_super {u v : Udp} {history : List (Datagram × Junk)}
    (handled : turns u history = some v) : v.serv.super = u.serv.super := by
  induction history generalizing u with
  | nil =>
    cases handled
    rfl
  | cons first rest ih =>
    obtain ⟨d, junk⟩ := first
    simp only [turns, List.foldlM_cons, Option.bind_eq_bind, Option.bind_eq_some_iff] at handled
    obtain ⟨w, turned, handled⟩ := handled
    rw [ih handled, (Logs.of_works (handle_works (turn_eq_some turned).2)).super]

/-- The super block is the one that `mkfs` writes for these numbers. -/
def Formatted (numInodes numData : Int) (image : Image) : Prop :=
  ∀ junk, (initializeServ image junk).super = mkfsSuper numInodes numData

theorem Reached.super {image : Image} {numInodes numData : Int} {u : Udp}
    (reached : Reached image u) (formatted : Formatted numInodes numData image) :
    u.serv.super = mkfsSuper numInodes numData := by
  obtain ⟨junk, history, handled⟩ := reached
  exact (turns_super handled).trans (formatted _)

structure Complete (d : Datagram) : Prop where
  fields : 4144 ≤ d.length
  bytes : MfsOps.ofWord (wordAt d.bytes 4140) = some .write →
    (wordAt d.bytes 4128).toNat ≤ d.length

/-- Nothing of an older request is left in the fields of a complete one. -/
theorem Complete.ofPacket (complete : Complete d) (old : Bytes) :
    Message.ofPacket (overwrite old 0 d.length d.bytes) =
      { Message.ofPacket d.bytes with buf := overwrite old 0 d.length d.bytes } := by
  have covered := complete.fields
  have words : ∀ addr, addr + 4 ≤ 4144 →
      wordAt (overwrite old 0 d.length d.bytes) addr = wordAt d.bytes addr := fun addr inside =>
    wordAt_overwrite_inside (Nat.zero_le _) (by omega)
  have name : nameOf (overwrite old 0 d.length d.bytes) = nameOf d.bytes := by
    unfold nameOf
    congr 1
    apply List.map_congr_left
    intro index inside
    have small := List.mem_range.mp inside
    exact overwrite_inside (Nat.zero_le _) (by omega)
  simp only [Message.ofPacket, name, words 4124 (by decide), words 4128 (by decide),
    words 4132 (by decide), words 4136 (by decide), words 4140 (by decide)]

theorem Complete.brought (complete : Complete d) (old : Bytes)
    (write : MfsOps.ofWord (wordAt d.bytes 4140) = some .write) (index : Nat)
    (small : index < (wordAt d.bytes 4128).toNat) :
    overwrite old 0 d.length d.bytes index = d.bytes index := by
  have whole := complete.bytes write
  exact overwrite_inside (Nat.zero_le _) (by omega)

section Requests

def Message.request (m : Message) : Option Request :=
  match MfsOps.ofWord m.msg with
  | some .lookup => some (.lookup m.nodeNum m.name)
  | some .stat => some (.stat m.nodeNum)
  | some .write => some (.write m.nodeNum m.buf m.offset m.nbytes)
  | some .read => some (.read m.nodeNum m.offset m.nbytes)
  | some .creat => some (.creat m.nodeNum m.mtype m.name)
  | some .unlink => some (.unlink m.nodeNum m.name)
  | _ => none

structure Displays (rx : Bytes) (reply : Reply) : Prop where
  nodeNum : wordAt rx 4136 = reply.nodeNum
  statType : wordAt rx 4144 = reply.statType
  statSize : wordAt rx 4148 = reply.statSize
  buf : ∀ index < 4096, rx index = reply.buf index

theorem readSource_beyond (s : Serv) (inum offset : UInt32) {nbytes : UInt32} (junk : Junk)
    {index : Nat} (beyond : nbytes.toNat ≤ index) :
    readSource s inum offset nbytes junk index = none := by
  unfold readSource
  dsimp only
  split_ifs with refused single front
  · rfl
  · exact fsreadSource_beyond _ _ beyond
  · refine absurd front ?_
    have above := UInt32.lt_iff_toNat_lt.mp (UInt32.not_le.mp single)
    omega
  · have above := UInt32.lt_iff_toNat_lt.mp (UInt32.not_le.mp single)
    refine fsreadSource_beyond _ _ ?_
    rw [UInt32.toNat_sub_of_le _ _ (UInt32.le_iff_toNat_le.mpr above.le)]
    omega

namespace Displays
variable {rx : Bytes} {reply : Reply}

theorem code (shows : Displays rx reply) (code : UInt32) :
    Displays (feedback rx code) { reply with nodeNum := code } where
  nodeNum := by
    rw [feedback, wordAt_putWord_other (by omega), wordAt_putWord_same]
  statType := by
    rw [feedback, wordAt_putWord_other (by omega), wordAt_putWord_other (by omega)]
    exact shows.statType
  statSize := by
    rw [feedback, wordAt_putWord_other (by omega), wordAt_putWord_other (by omega)]
    exact shows.statSize
  buf index small := by
    rw [feedback, putWord_outside (by omega), putWord_outside (by omega)]
    exact shows.buf index small

theorem stat (shows : Displays rx reply) (type size : UInt32) :
    Displays (putWord (putWord rx 4148 size) 4144 type)
      { reply with statType := type, statSize := size } where
  nodeNum := by
    rw [wordAt_putWord_other (by omega), wordAt_putWord_other (by omega)]
    exact shows.nodeNum
  statType := wordAt_putWord_same _ _ _
  statSize := by rw [wordAt_putWord_other (by omega), wordAt_putWord_same]
  buf index small := by
    rw [putWord_outside (by omega), putWord_outside (by omega)]
    exact shows.buf index small

/-- A read that fits into `buf` leaves the other fields alone. -/
theorem read (shows : Displays rx reply) (s : Serv) (inum offset : UInt32) {nbytes : UInt32}
    (junk : Junk) (small : nbytes.toNat ≤ 4096) :
    Displays (readFile s inum rx offset nbytes junk).2
      { reply with buf := (readFile s inum reply.buf offset nbytes junk).2 } := by
  have words : ∀ addr, 4096 ≤ addr →
      wordAt (readFile s inum rx offset nbytes junk).2 addr = wordAt rx addr := by
    intro addr behind
    apply wordAt_congr
    intro index _
    rw [readFile_source, readSource_beyond _ _ _ _ (by omega)]
    rfl
  refine ⟨?_, ?_, ?_, ?_⟩
  · rw [words _ (by omega)]
    exact shows.nodeNum
  · rw [words _ (by omega)]
    exact shows.statType
  · rw [words _ (by omega)]
    exact shows.statSize
  · intro index inside
    dsimp only
    rw [readFile_source, readFile_source, shows.buf index inside]
end Displays

/-- What a packet asks for is what `serve` does, if the bytes to move fit into `buf`. -/
theorem handle_serve {rx : Bytes} (shows : Displays rx s.rx) {m : Message} {request : Request}
    (asked : m.request = some request) (small : VolumeSound.length request ≤ 4096) (junk : Junk) :
    ∃ t filled, handle s rx m junk = some (t, filled) ∧ Alike (serve s request junk) t ∧
      Displays filled (serve s request junk).rx := by
  have answered : ∀ (t : Serv) (code : UInt32), Works s t → Alike (t.answer code) t ∧
      Displays (feedback rx code) (t.answer code).rx := by
    intro t code works
    refine ⟨⟨⟨rfl, rfl, rfl⟩, rfl⟩, ?_⟩
    simp only [Serv.answer, works.rx]
    exact shows.code code
  unfold Message.request at asked
  unfold handle
  split at asked <;> rename_i op <;> cases asked <;> simp only [op, serve]
  case h_1.refl => exact ⟨_, _, rfl, answered s _ Works.refl⟩
  case h_2.refl => exact ⟨_, _, rfl, ⟨⟨rfl, rfl, rfl⟩, rfl⟩, (shows.stat _ _).code 0⟩
  case h_3.refl =>
    have whole : ¬ 4152 < m.nbytes.toNat :=
      fun large => absurd small (by simp only [VolumeSound.length]; omega)
    rw [if_neg fun both => whole both.2]
    exact ⟨_, _, rfl, answered _ _ (Works.writeFile s _ _ _ _ _ _)⟩
  case h_4.refl =>
    have fits : m.nbytes.toNat ≤ 4096 := small
    rw [if_neg fun both => absurd both.2 (by omega)]
    have read := (shows.read s m.nodeNum m.offset junk fits).code
      (readFile s m.nodeNum rx m.offset m.nbytes junk).1
    refine ⟨_, _, rfl, ⟨⟨rfl, rfl, rfl⟩, rfl⟩, ?_⟩
    rw [readFile_code s m.nodeNum s.rx.buf rx]
    exact read
  case h_5.refl => exact ⟨_, _, rfl, answered _ _ (Works.creatFile s _ _ _ _)⟩
  case h_6.refl => exact ⟨_, _, rfl, answered _ _ (Works.unlinkFile s _ _ _)⟩

/-- The packet server does to the files and to the reply what this server of
requests does. -/
structure Mirrors (u : Udp) (s : Serv) : Prop where
  alike : Alike s u.serv
  shows : Displays u.rxPk s.rx

structure Asks (d : Datagram) (request : Request) : Prop extends Complete d where
  asked : (Message.ofPacket d.bytes).request = some request
  small : VolumeSound.length request ≤ 4096

namespace Mirrors
variable {u : Udp}

theorem turn (mirrors : Mirrors u s) {request : Request} (asks : Asks d request)
    (junk : Junk) : ∃ u', turn u d junk = some u' ∧ Mirrors u' (serve s request junk) := by
  have complete := asks.toComplete
  obtain ⟨t, filled, handled, served, shows⟩ :=
    handle_serve mirrors.shows asks.asked asks.small junk
  have whole : handle s u.rxPk { Message.ofPacket d.bytes with buf := d.bytes } junk =
    some (t, filled) := handled
  obtain ⟨t', filled', handled', alike, both⟩ := handle_alike mirrors.alike
    (overwrite u.bufPk 0 d.length d.bytes) _ u.rxPk (complete.brought u.bufPk) whole
  have same : filled' = filled := by
    funext index
    by_cases set : Sets s (Message.ofPacket d.bytes) junk index
    · exact both.same index set
    · rw [(both.kept index set).1, (both.kept index set).2]
  refine ⟨⟨t', overwrite u.bufPk 0 d.length d.bytes, filled'⟩, ?_, served.trans alike, ?_⟩
  · rw [← complete.ofPacket] at handled'
    exact turn_of_handle handled'
  · rw [same]
    exact shows

/-- Whole runs of such datagrams are runs of the server of requests. -/
theorem turns (mirrors : Mirrors u s) {history : List (Datagram × Request × Junk)}
    (asks : ∀ entry ∈ history, Asks entry.1 entry.2.1) :
    ∃ u', turns u (history.map fun entry => (entry.1, entry.2.2)) = some u' ∧
      Mirrors u' (run step s (history.map fun entry => .request entry.2.1 entry.2.2)) := by
  induction history generalizing u s with
  | nil => exact ⟨u, rfl, mirrors⟩
  | cons first rest ih =>
    obtain ⟨u1, turned, mirrors1⟩ := mirrors.turn (asks first (List.mem_cons_self ..)) first.2.2
    obtain ⟨u', turned', mirrors'⟩ := ih mirrors1 fun entry later =>
      asks entry (List.mem_cons_of_mem _ later)
    refine ⟨u', ?_, mirrors'⟩
    simp only [List.map_cons, Datagrams.turns, List.foldlM_cons, turned]
    exact turned'
end Mirrors

end Requests

/-- In servers that hold the same files after any two histories, started on images
with the same super block, a complete datagram leads to the same files and counters,
and to replies that are the same in every byte the operation sets. Every other byte
of the two replies is what the replies before it left there. -/
theorem answers_depend_on_files_and_request {numInodes numData : Int} {image image' : Image}
    (formatted : Formatted numInodes numData image)
    (formatted' : Formatted numInodes numData image')
    {u u' v : Udp} (reached : Reached image u) (reached' : Reached image' u')
    (files : SameFiles u.serv u'.serv)
    {d : Datagram} (complete : Complete d) (handled : turn u d junk = some v) :
    ∃ v', turn u' d junk = some v' ∧ SameFiles v.serv v'.serv ∧
      (∀ index, Sets u.serv (Message.ofPacket d.bytes) junk index → v'.rxPk index = v.rxPk index) ∧
      ∀ index, ¬ Sets u.serv (Message.ofPacket d.bytes) junk index →
        v.rxPk index = u.rxPk index ∧ v'.rxPk index = u'.rxPk index := by
  obtain ⟨packet, answered⟩ := turn_eq_some handled
  rw [packet, complete.ofPacket] at answered
  have brought := fun write index small => (complete.brought u'.bufPk write index small).trans
    (complete.brought u.bufPk write index small).symm
  obtain ⟨t', filled', answered', alike, filled⟩ :=
    handle_alike ⟨files, (reached'.super formatted').trans (reached.super formatted).symm⟩ _ _
      u'.rxPk brought answered
  rw [← complete.ofPacket] at answered'
  exact ⟨_, turn_of_handle answered', alike.toSameFiles, filled.same, filled.kept⟩

/-- A datagram for an operation on this inode, with this name; the fields that the
client library leaves alone are zero. -/
def sent (op nodeNum : UInt32) (name : List UInt8) : Datagram where
  bytes := putWord (putWord (strcpy (fun _ => 0) 4096 name) 4136 nodeNum) 4140 op
  length := 4152
  nonempty := by decide
  fits := by decide

theorem wordAt_sent (old : Bytes) (op nodeNum : UInt32) (name : List UInt8) :
    wordAt (overwrite old 0 4152 (sent op nodeNum name).bytes) 4136 = nodeNum ∧
      wordAt (overwrite old 0 4152 (sent op nodeNum name).bytes) 4140 = op := by
  rw [wordAt_overwrite_inside (by decide) (by decide),
    wordAt_overwrite_inside (by decide) (by decide)]
  refine ⟨?_, wordAt_putWord_same _ _ _⟩
  exact (wordAt_putWord_other (by decide)).trans (wordAt_putWord_same _ _ _)

def oneByte : Datagram := ⟨fun _ => 0, 1, by decide, by decide⟩

theorem handle_stat {rx pk : Bytes} (op : wordAt pk 4140 = 2) (s : Serv) (junk : Junk) :
    handle s rx (Message.ofPacket pk) junk =
      some (s, feedback (putWord (putWord rx 4148 (readInode s (wordAt pk 4136) junk).2.size) 4144
        (readInode s (wordAt pk 4136) junk).2.type) 0) := by
  simp only [handle, Message.ofPacket, op]
  rfl

theorem handle_feedback {rx pk : Bytes} (op : wordAt pk 4140 = 8) (s : Serv) (junk : Junk) :
    handle s rx (Message.ofPacket pk) junk = some (s, putWord rx 4140 8) := by
  simp only [handle, Message.ofPacket, op]
  rfl

section NewImage
variable {rx pk : Bytes} (started : Started smallest s)
include started

theorem handle_stat_root (op : wordAt pk 4140 = 2) (nodeNum : wordAt pk 4136 = 0) :
    handle s rx (Message.ofPacket pk) noJunk =
      some (s, feedback (putWord (putWord rx 4148 64) 4144 ufsDirectory) 0) := by
  obtain ⟨v, sim, initial⟩ := started.initial
  have bit : v.inodeBit (0 : UInt32).toNat = true := by
    simp [initial.inodeBit]
  have root := readInode_sim sim bit (by decide) noJunk
  rw [UInt32.toNat_zero, initial.root] at root
  have type : (readInode s 0 noJunk).2.type = ufsDirectory := by rw [← view_type, root]
  have size : (readInode s 0 noJunk).2.size = 64 := by
    apply UInt32.toNat_inj.mp
    rw [← view_size, root]
    rfl
  rw [handle_stat op, nodeNum, type, size]

theorem handle_lookup_a (op : wordAt pk 4140 = 1) (nodeNum : wordAt pk 4136 = 0)
    (name : nameOf pk = [97]) :
    handle s rx (Message.ofPacket pk) noJunk = some (s, feedback rx minusOne) := by
  obtain ⟨v, rooted⟩ := Started.rooted started
  have missing := rooted.lookupFile_none letterA_fileName (by simp [dot, dotDot]) noJunk
  simp only [handle, Message.ofPacket, op, nodeNum, name, missing]
  rfl
end NewImage

theorem byte_of_statSize (rx : Bytes) (type size code : UInt32) :
    feedback (putWord (putWord rx 4148 size) 4144 type) code 4148 = byteAt size 0 := by
  simp [feedback, putWord, overwrite]

theorem byte_of_nodeNum (rx : Bytes) (code : UInt32) : feedback rx code 4136 = byteAt code 0 := by
  simp [feedback, putWord, overwrite]

def after (image : Image) (d : Datagram) (filled : Bytes) : Udp :=
  ⟨initializeServ image noJunk, overwrite (fun _ => 0) 0 d.length d.bytes, filled⟩

theorem reached_after {image : Image} {filled : Bytes}
    (handled : handle (initializeServ image noJunk) (fun _ => 0)
      (Message.ofPacket (overwrite (fun _ => 0) 0 d.length d.bytes)) noJunk =
        some (initializeServ image noJunk, filled)) : Reached image (after image d filled) := by
  refine ⟨noJunk, [(d, noJunk)], ?_⟩
  have turned : turn (start image noJunk) d noJunk = some (after image d filled) :=
    turn_of_handle handled
  simp only [turns, List.foldlM_cons, turned]
  rfl

theorem formatted_mkfs (g : Geometry) {image : Image}
    (made : mkfs g.numInodes g.numData noJunk = some image) :
    Formatted g.numInodes g.numData image := by
  intro junk
  obtain ⟨v, sim, _⟩ := Started.initial ⟨image, noJunk, junk, made, rfl⟩
  rw [sim.super, mkfsSuper_eq]

/-- Two servers on one new image, with the same files. One has answered a lookup of
`a`, the other a `Stat` of the root directory, and this is what their replies
and requests have left in the packets. -/
theorem two_histories : ∃ image u u', mkfs 32 32 noJunk = some image ∧
    Started smallest u.serv ∧ u'.serv = u.serv ∧ Reached image u ∧ Reached image u' ∧
      u.bufPk = overwrite (fun _ => 0) 0 4152 (sent 1 0 [97]).bytes ∧
      u'.bufPk = overwrite (fun _ => 0) 0 4152 (sent 2 0 []).bytes ∧
      u.rxPk 4148 = 0 ∧ u'.rxPk 4148 = 64 := by
  obtain ⟨image, made, _⟩ := mkfs_initial smallest noJunk
  have started : Started smallest (initializeServ image noJunk) :=
    ⟨image, noJunk, noJunk, made, rfl⟩
  have asked := wordAt_sent (fun _ => 0) 1 0 [97]
  have asked' := wordAt_sent (fun _ => 0) 2 0 []
  have lookup : Reached image (after image (sent 1 0 [97]) _) :=
    reached_after (handle_lookup_a started asked.2 asked.1 (by decide +kernel))
  have stat : Reached image (after image (sent 2 0 []) _) :=
    reached_after (handle_stat_root started asked'.2 asked'.1)
  refine ⟨image, after image (sent 1 0 [97]) _, after image (sent 2 0 []) _, made, started, rfl,
    lookup, stat, rfl, rfl, ?_, ?_⟩
  · rfl
  · exact byte_of_statSize (fun _ => 0) ufsDirectory 64 0

/-- Both servers answer the next `Stat` with the same size. -/
theorem stat_is_answered_alike : ∃ image u u' v v', Formatted 32 32 image ∧ Reached image u ∧
    Reached image u' ∧ SameFiles u.serv u'.serv ∧ Complete (sent 2 0 []) ∧
      turn u (sent 2 0 []) noJunk = some v ∧ turn u' (sent 2 0 []) noJunk = some v' ∧
      u.rxPk 4148 ≠ u'.rxPk 4148 ∧ v'.rxPk 4148 = v.rxPk 4148 := by
  obtain ⟨image, u, u', made, started, serv, reached, reached', packet, _, old, old'⟩ :=
    two_histories
  have formatted := formatted_mkfs smallest made
  have files : SameFiles u.serv u'.serv := by
    rw [serv]
    exact ⟨rfl, rfl, rfl⟩
  have complete : Complete (sent 2 0 []) :=
    ⟨by decide, fun write => absurd write (by decide +kernel)⟩
  have fields := wordAt_sent u.bufPk 2 0 []
  have handled : turn u (sent 2 0 []) noJunk = some _ :=
    turn_of_handle (handle_stat_root started fields.2 fields.1)
  obtain ⟨v', handled', _, same, _⟩ :=
    answers_depend_on_files_and_request formatted formatted reached reached' files complete handled
  refine ⟨image, u, u', _, v', formatted, reached, reached', files, complete, handled, handled',
    ?_, ?_⟩
  · rw [old, old']
    decide
  · refine same 4148 ?_
    have stat : MfsOps.ofWord (Message.ofPacket (sent 2 0 []).bytes).msg = some .stat := by
      decide +kernel
    simp only [Sets, stat]
    decide

/-- The two servers hold the same files, and yet: the reply to the same `MFS_FEEDBACK`
shows the size that another client has asked for; a datagram of one byte is
answered as the last request was; and a `Stat` of an inode that is not in use
shows what fresh memory holds. -/
theorem replies_show_earlier_requests : ∃ image u u', mkfs 32 32 noJunk = some image ∧
    Reached image u ∧ Reached image u' ∧ SameFiles u.serv u'.serv ∧
      (∃ d v v', d.length = 4152 ∧ turn u d noJunk = some v ∧ turn u' d noJunk = some v' ∧
        v.rxPk 4148 ≠ v'.rxPk 4148) ∧
      (∃ d v v', d.length = 1 ∧ turn u d noJunk = some v ∧ turn u' d noJunk = some v' ∧
        v.rxPk 4136 ≠ v'.rxPk 4136) ∧
      ∃ d junk junk' v v', d.length = 4152 ∧ turn u d junk = some v ∧ turn u' d junk' = some v' ∧
        Sets u.serv (Message.ofPacket d.bytes) junk 4148 ∧ v.rxPk 4148 ≠ v'.rxPk 4148 := by
  obtain ⟨image, u, u', made, started, serv, reached, reached', packet, packet', old, old'⟩ :=
    two_histories
  have files : SameFiles u.serv u'.serv := by
    rw [serv]
    exact ⟨rfl, rfl, rfl⟩
  have started' : Started smallest u'.serv := serv ▸ started
  refine ⟨image, u, u', made, reached, reached', files, ?_, ?_, ?_⟩
  · have left : turn u (sent 8 0 []) noJunk = some _ :=
      turn_of_handle (handle_feedback (wordAt_sent u.bufPk 8 0 []).2 _ _)
    have left' : turn u' (sent 8 0 []) noJunk = some _ :=
      turn_of_handle (handle_feedback (wordAt_sent u'.bufPk 8 0 []).2 _ _)
    refine ⟨sent 8 0 [], _, _, rfl, left, left', ?_⟩
    dsimp only
    rw [putWord_outside (by decide), putWord_outside (by decide), old, old']
    decide
  · have again : turn u oneByte noJunk = some _ := turn_of_handle (handle_lookup_a started
      (by rw [packet]; decide +kernel) (by rw [packet]; decide +kernel)
      (by rw [packet]; decide +kernel))
    have again' : turn u' oneByte noJunk = some _ := turn_of_handle (handle_stat_root started'
      (by rw [packet']; decide +kernel) (by rw [packet']; decide +kernel))
    refine ⟨oneByte, _, _, rfl, again, again', ?_⟩
    dsimp only
    rw [byte_of_nodeNum, byte_of_nodeNum]
    decide
  · have none := noBits_minusOne started
    have fields := wordAt_sent u.bufPk 2 minusOne []
    have fields' := wordAt_sent u'.bufPk 2 minusOne []
    have shown : turn u (sent 2 minusOne []) (forged ⟨0, 0, fun _ => 0⟩) = some _ :=
      turn_of_handle (handle_stat fields.2 _ _)
    have shown' : turn u' (sent 2 minusOne []) (forged ⟨0, 1, fun _ => 0⟩) = some _ :=
      turn_of_handle (handle_stat fields'.2 _ _)
    refine ⟨sent 2 minusOne [], _, _, _, _, rfl, shown, shown', ?_, ?_⟩
    · have stat : MfsOps.ofWord (Message.ofPacket (sent 2 minusOne []).bytes).msg = some .stat := by
        decide +kernel
      simp only [Sets, stat]
      decide
    · dsimp only
      rw [byte_of_statSize, byte_of_statSize, fields.1, fields'.1, serv, readInode_forged none,
        readInode_forged none]
      decide

end OsProjects.Datagrams
