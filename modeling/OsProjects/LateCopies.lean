import OsProjects.Repetition
import OsProjects.RetriedCalls
import OsProjects.FileSizes

/-!
The client library of `mfs.c` and the loop of `run_udp` over an unreliable
network. A write that was answered 0 can be read back until the server is given
another write to the same bytes. That need not be a later call: requests carry
no sequence number, and a late copy of an earlier write is served like a new one.
-/

namespace OsProjects.LateCopies

open ByteStore UfsLayout FileServer Volume VolumeSteps VolumeSound VolumeRefinement MkfsImage Runs
  ServerRuns BlockOwnership DirectorySlots FirstFiles FileContents FileSizes FailedRequests Restarts
  Repetition RetriedCalls Function

variable {g : Geometry} {s : Serv} {v v' : Vol}

def handle (s : Serv) (request : Request) (junk : Junk) : Serv × Reply :=
  (serve s request junk, (serve s request junk).rx)

def udp : Net Serv Request Reply → Action Request Junk → Net Serv Request Reply := act handle

def Lawful (net : Net Serv Request Reply) (action : Action Request Junk) : Prop :=
  Possible net action ∧ Fitting Proper net action

def Overlap (offset nbytes offset' nbytes' : UInt32) : Prop :=
  ∃ byte, offset.toNat ≤ byte ∧ byte < offset.toNat + nbytes.toNat ∧
    offset'.toNat ≤ byte ∧ byte < offset'.toNat + nbytes'.toNat

/-- A write that has nothing to do with this range: not to this inode, or to
other bytes and not across a block boundary into the block of the range. -/
def Spares (inum offset nbytes : UInt32) : Request → Prop
  | .write inum' _ offset' nbytes' => inum' = inum → ¬ Overlap offset nbytes offset' nbytes' ∧
      ¬ (offset'.toNat / 4096 + 1 = offset.toNat / 4096 ∧
        4096 < offset'.toNat % 4096 + nbytes'.toNat)
  | _ => True

def FilesSingle (v : Vol) : Prop :=
  ∀ n, v.inodeBit n = true → (v.node n).type = ufsRegularFile → Single (v.node n)

section Files
variable {request : Request} {chance : Chance}

theorem serve_files (sound : Sound g v) (tidy : Tidy g v) (synced : Synced v)
    (admissible : Admissible v request) (files : FilesSingle v) :
    FilesSingle (v.serve g request chance).2 := by
  intro n set file
  by_cases write : ∃ inum buf offset nbytes, request = .write inum buf offset nbytes
  · obtain ⟨inum, buf, offset, nbytes, rfl⟩ := write
    have writes : Writes g inum.toNat v _ := (writeFile_outcome inum.toNat buf offset.toNat
      nbytes.toNat ufsRegularFile sound.hghstAllocDblk_lt).writes sound.hghstAllocDblk_lt
        admissible.small
    simp only [Vol.serve] at set file ⊢
    rw [writes.inodeBit] at set
    by_cases same : n = inum.toNat
    · subst same
      rw [writes.fills.type] at file
      exact Writes.single_node writes sound synced set (files _ set file)
    · rw [writes.others n same] at file ⊢
      exact files n set file
  · have kept := serve_filesKept sound tidy synced admissible chance
      fun inum buf offset nbytes same => write ⟨inum, buf, offset, nbytes, same⟩
    rcases kept.files n set file with ⟨old, same⟩ | ⟨_, empty⟩
    · rw [same] at file ⊢
      exact files n old file
    · rw [empty]
      intro i j b impossible
      cases impossible
end Files

structure Holds (v : Vol) (n : Nat) (buf : Bytes) (offset nbytes b : Nat) : Prop where
  type : (v.node n).type = ufsRegularFile
  inside : offset / 4096 ≤ 29
  within : offset % 4096 + nbytes ≤ 4096
  mapped : (v.node n).direct (offset / 4096) = some b
  bytes : ∀ index < nbytes, v.block b (offset % 4096 + index) = buf index
  size : offset + nbytes ≤ (v.node n).size

section Holding
variable {n offset nbytes b : Nat} {buf : Bytes}

theorem WriteOutcome.holds (outcome : WriteOutcome g v n buf offset nbytes ufsRegularFile true v')
    (bound : v.hghstAllocDblk < g.numData) (within : offset % 4096 + nbytes ≤ 4096) :
    ∃ b, Holds v' n buf offset nbytes b := by
  cases outcome with
  | oneBlock nd v1 typed inside filled short =>
    obtain ⟨alloc, found⟩ := filled_spec bound inside filled
    obtain ⟨fills, _, mapped, _⟩ := found nd rfl
    refine ⟨nd.at' (offset / 4096), ?_, inside, within, ?_, ?_, ?_⟩
    · simpa [Vol.grow, Vol.setNode] using fills.type.trans typed
    · simpa [Vol.grow, Vol.setNode] using mapped
    · intro index small
      simp only [Vol.grow, Vol.setNode, Vol.putBlock, update_self]
      rw [overwrite_inside (by omega) (by omega), Nat.add_sub_cancel_left]
    · simp only [Vol.grow, Vol.setNode, update_self]
      exact le_max_left _ _
  | twoBlocks nd v1 v2 typed inside filled long alloc next => omega

section
variable (held : Holds v n buf offset nbytes b)
include held

theorem Holds.again :
    v.writeFile g n buf offset nbytes ufsRegularFile = (true, v) := by
  have short : nbytes ≤ 4096 - offset % 4096 := by
    have := held.within
    omega
  have place : (v.node n).at' (offset / 4096) = b := by simp [Node.at', held.mapped]
  have same : overwrite (v.block b) (offset % 4096) nbytes buf = v.block b := by
    funext index
    by_cases inside : offset % 4096 ≤ index ∧ index < offset % 4096 + nbytes
    · rw [overwrite_inside inside.1 inside.2, ← held.bytes _ (by omega)]
      congr 1
      omega
    · rw [overwrite_outside (by omega)]
  rw [writeFile_mapped held.type held.inside held.mapped]
  simp [Vol.writeBlocks, short, place, Vol.grow, Vol.setNode, Vol.putBlock, same,
    max_eq_right held.size]

theorem Holds.read :
    ∃ bytes, v.readFile n offset nbytes = some bytes ∧ ∀ index < nbytes, bytes index = buf index := by
  have within := held.within
  exact ⟨_, readFile_oneBlock held.inside (by omega) held.mapped, held.bytes⟩

theorem Holds.apart (apart : Apart n v v') :
    Holds v' n buf offset nbytes b := by
  obtain ⟨type, inside, within, mapped, bytes, size⟩ := held
  refine { type := ?_, inside, within, mapped := ?_, bytes := ?_, size := ?_ }
  · rw [apart.node]
    exact type
  · rw [apart.node]
    exact mapped
  · rw [apart.block _ b mapped]
    exact bytes
  · rw [apart.node]
    exact size

/-- A node whose mapped pointers were kept, stored with no smaller size, and
blocks that agree on the range. -/
theorem Holds.stored (nd : Node) (node : v'.node n = nd)
    (type : nd.type = (v.node n).type)
    (mapped : nd.direct (offset / 4096) = (v.node n).direct (offset / 4096))
    (size : (v.node n).size ≤ nd.size) (block : ∀ index < nbytes,
      v'.block b (offset % 4096 + index) = v.block b (offset % 4096 + index)) :
    Holds v' n buf offset nbytes b := by
  refine { held with type := ?_, mapped := ?_, bytes := ?_, size := ?_ }
  · rw [node, type]
    exact held.type
  · rw [node, mapped]
    exact held.mapped
  · intro index small
    rw [block index small]
    exact held.bytes index small
  · rw [node]
    exact le_trans held.size size
end

theorem Holds.filled {offset' : Nat} {nd : Node} (held : Holds v n buf offset nbytes b)
    (bound : v.hghstAllocDblk < g.numData) (inside : offset' / 4096 ≤ 29)
    (filled : Vol.fillHoles g (offset' / 4096 + 1) v (v.node n) = (some nd, v')) :
    Holds (v'.setNode n nd) n buf offset nbytes b := by
  obtain ⟨alloc, found⟩ := filled_spec bound inside filled
  obtain ⟨fills, size, _, kept⟩ := found nd rfl
  have front : (v.node n).direct (offset / 4096) ≠ none := by
    rw [held.mapped]
    exact Option.some_ne_none b
  exact held.stored nd (by simp [Vol.setNode]) fills.type (kept _ (Or.inl front))
    (le_of_eq size.symm) (fun _ _ => by simp [Vol.setNode, alloc.block])

/-- Another write to the same file, to other bytes and not from the block before
on into this one. -/
theorem Holds.write {offset' nbytes' : Nat} {buf' : Bytes} {ok : Bool}
    (held : Holds v n buf offset nbytes b)
    (outcome : WriteOutcome g v n buf' offset' nbytes' ufsRegularFile ok v')
    (sound : Sound g v) (synced : Synced v) (bit : v.inodeBit n = true) (single : Single (v.node n))
    (disjoint : ∀ byte, offset ≤ byte → byte < offset + nbytes →
      ¬ (offset' ≤ byte ∧ byte < offset' + nbytes'))
    (apart : ¬ (offset' / 4096 + 1 = offset / 4096 ∧ 4096 < offset' % 4096 + nbytes')) :
    Holds v' n buf offset nbytes b := by
  have bound := sound.hghstAllocDblk_lt
  obtain ⟨_, k, _, used, place⟩ := (sound.node n bit).pointer _ b held.mapped
  have low := synced.blocks k used
  have front : (v.node n).direct (offset / 4096) ≠ none := by
    rw [held.mapped]
    exact Option.some_ne_none b
  -- the block that is written to is this one only if it is at the same index
  have where' : ∀ nd : Node, ∀ c, Fills g v.hghstAllocDblk c (v.node n) nd →
      nd.direct (offset' / 4096) = some b → offset' / 4096 = offset / 4096 := by
    intro nd c fills here
    rcases fills.pointer (offset' / 4096) with old | ⟨_, k', above, _, new⟩
    · exact single _ _ b (old ▸ here) held.mapped
    · have := Option.some.inj (here.symm.trans new)
      omega
  have outside : ∀ (nd : Node) c count, Fills g v.hghstAllocDblk c (v.node n) nd →
      nd.direct (offset' / 4096) = some b → count ≤ nbytes' → ∀ index < nbytes,
        overwrite (v.block b) (offset' % 4096) count buf' (offset % 4096 + index) =
          v.block b (offset % 4096 + index) := by
    intro nd c count fills here less index small
    have same := where' nd c fills here
    have clear := disjoint (offset + index) (by omega) (by omega)
    exact overwrite_outside (by omega)
  cases outcome with
  | refused wrong => exact held
  | noBlock _ typed inside filled =>
    have alloc := (filled_spec bound inside filled).1
    exact held.apart ⟨by rw [alloc.node], fun _ _ _ => by rw [alloc.block]⟩
  | oneBlock nd v1 typed inside filled short =>
    obtain ⟨alloc, found⟩ := filled_spec bound inside filled
    obtain ⟨fills, size, here, kept⟩ := found nd rfl
    refine held.stored { nd with size := max (offset' + nbytes') nd.size }
      (by simp [Vol.grow, Vol.setNode]) fills.type (kept _ (Or.inl front))
      (le_trans (le_of_eq size.symm) (le_max_right _ _)) ?_
    intro index small
    simp only [Vol.grow, Vol.setNode, Vol.putBlock, alloc.block]
    by_cases same : b = nd.at' (offset' / 4096)
    · rw [← same] at here ⊢
      rw [update_self]
      exact outside nd _ nbytes' fills here (le_refl _) index small
    · rw [update_of_ne same]
  | lastBlock nd v1 typed last filled long => exact held.filled bound (by omega) filled
  | noSecond nd v1 typed inside filled long full => exact held.filled bound (by omega) filled
  | twoBlocks nd v1 v2 typed inside filled long alloc' next =>
    obtain ⟨alloc, found⟩ := filled_spec bound (by omega) filled
    obtain ⟨fills, size, here, kept⟩ := found nd rfl
    have above := alloc.counter_le
    have other : offset / 4096 ≠ offset' / 4096 + 1 := by omega
    refine held.stored { nd.setPtr (offset' / 4096 + 1)
        (g.dataRegionAddr + v2.hghstAllocDblk) with size := max (offset' + nbytes') nd.size }
      (by simp [Vol.grow, Vol.setNode]) fills.type ?_
      (le_trans (le_of_eq size.symm) (le_max_right _ _)) ?_
    · simp only [Node.setPtr_other other]
      exact kept _ (Or.inl front)
    · intro index small
      have fresh : b ≠ g.dataRegionAddr + v2.hghstAllocDblk := by omega
      simp only [Vol.grow, Vol.setNode, Vol.putBlock, update_of_ne fresh, alloc'.block, alloc.block]
      by_cases same : b = nd.at' (offset' / 4096)
      · rw [← same] at here ⊢
        rw [update_self]
        exact outside nd _ _ fills here (le_of_lt long) index small
      · rw [update_of_ne same]
end Holding

def InOrder (g : Geometry) (s : Serv) : Prop :=
  ∃ v, Backed g s v ∧ Synced v ∧ FilesSingle v

def HoldsBytes (g : Geometry) (inum : UInt32) (buf : Bytes) (offset nbytes : UInt32) (s : Serv) :
    Prop :=
  ∃ v b, Backed g s v ∧ Synced v ∧ FilesSingle v ∧ v.inodeBit inum.toNat = true ∧
    Holds v inum.toNat buf offset.toNat nbytes.toNat b

section Serving
variable {inum offset nbytes : UInt32} {buf : Bytes}

theorem inOrder_started (started : Started g s) : InOrder g s := by
  obtain ⟨v, backed, initial⟩ := Started.backed started
  exact ⟨v, backed, Initial.synced initial, fun n bit _ => Initial.single initial n bit⟩

theorem inOrder_serve (s : Serv) (request : Request) (junk : Junk) (order : InOrder g s)
    (proper : Proper s request) : InOrder g (handle s request junk).1 := by
  obtain ⟨v, backed, synced, files⟩ := order
  obtain ⟨chance, _, backed', _, respects⟩ := backed.serve proper (fun _ => synced) junk
  exact ⟨_, backed', respects.synced synced, serve_files backed.sound backed.tidy
    synced (proper.admissible backed.sim backed.sound) files⟩

theorem proper_serve (s : Serv) (request : Request) (junk : Junk) (other : Request)
    (order : InOrder g s) (proper : Proper s request) (proper' : Proper s other) :
    Proper (handle s request junk).1 other := by
  obtain ⟨v, backed, synced, _⟩ := order
  exact ⟨(backed.keeps synced proper junk proper'.allocated).1, proper'.small, proper'.short⟩

theorem write_makes (within : offset.toNat % 4096 + nbytes.toNat ≤ 4096) (s : Serv) (junk : Junk)
    (order : InOrder g s) (proper : Proper s (.write inum buf offset nbytes))
    (ok : (handle s (.write inum buf offset nbytes) junk).2.nodeNum = 0) :
    HoldsBytes g inum buf offset nbytes (handle s (.write inum buf offset nbytes) junk).1 := by
  obtain ⟨v, backed, synced, files⟩ := order
  obtain ⟨chance, reply, backed', _, respects⟩ := backed.serve proper (fun _ => synced) junk
  have files' := @serve_files g v _ chance backed.sound backed.tidy synced
    (proper.admissible backed.sim backed.sound) files
  have outcome := writeFile_outcome inum.toNat buf offset.toNat nbytes.toNat ufsRegularFile
    backed.sound.hghstAllocDblk_lt
  have success : (v.writeFile g inum.toNat buf offset.toNat nbytes.toNat ufsRegularFile).1 =
      true := code_injective (reply.symm.trans ok)
  rw [success] at outcome
  obtain ⟨b, held⟩ := WriteOutcome.holds outcome backed.sound.hghstAllocDblk_lt within
  exact ⟨_, b, backed', respects.synced synced, files', respects.inodeBit _
    ((allocated_iff backed.sim backed.sound inum).mp proper.allocated), held⟩

/-- A copy of the write changes neither the image nor the counters. -/
theorem write_again (s : Serv) (junk : Junk) (proper : Proper s (.write inum buf offset nbytes))
    (held : HoldsBytes g inum buf offset nbytes s) :
    HoldsBytes g inum buf offset nbytes (handle s (.write inum buf offset nbytes) junk).1 ∧
      Unchanged s (handle s (.write inum buf offset nbytes) junk).1 := by
  obtain ⟨v, b, backed, synced, files, bit, held⟩ := held
  obtain ⟨chance, _, backed', _, _⟩ := backed.serve proper (fun _ => synced) junk
  simp only [Vol.serve, held.again] at backed'
  exact ⟨⟨v, b, backed', synced, files, bit, held⟩, Sim.unchanged backed.sim backed'.sim⟩

theorem serve_lasts (s : Serv) (request : Request) (junk : Junk) (proper : Proper s request)
    (spares : Spares inum offset nbytes request) (held : HoldsBytes g inum buf offset nbytes s) :
    HoldsBytes g inum buf offset nbytes (handle s request junk).1 := by
  obtain ⟨v, b, backed, synced, files, bit, held⟩ := held
  obtain ⟨chance, _, backed', _, respects⟩ := backed.serve proper (fun _ => synced) junk
  have admissible := proper.admissible backed.sim backed.sound
  have files' := @serve_files g v _ chance backed.sound backed.tidy synced admissible files
  refine ⟨_, b, backed', respects.synced synced, files', respects.inodeBit _ bit, ?_⟩
  have notDir : (inodeOf s inum).type ≠ ufsDirectory := by
    rw [inodeOf_type backed.sim inum (backed.sound.inodeBit_lt _ bit), held.type]
    decide
  by_cases changes : Changes s inum (.request request junk)
  · -- only a write can change a regular file
    cases request with
    | lookup | stat | read => exact absurd changes id
    | creat | unlink => exact absurd changes.2 notDir
    | write number buf' offset' nbytes' =>
      cases changes
      obtain ⟨disjoint, apart⟩ := spares rfl
      refine held.write (writeFile_outcome _ buf' offset'.toNat nbytes'.toNat ufsRegularFile
        backed.sound.hghstAllocDblk_lt) backed.sound synced bit (files _ bit held.type) ?_ apart
      intro byte low high both
      exact disjoint ⟨byte, low, high, both.1, both.2⟩
  · exact held.apart (serve_apart backed bit changes respects)

theorem read_answers (s : Serv) (junk : Junk) (proper : Proper s (.read inum offset nbytes))
    (held : HoldsBytes g inum buf offset nbytes s) :
    (handle s (.read inum offset nbytes) junk).2.nodeNum = 0 ∧ ∀ index < nbytes.toNat,
      (handle s (.read inum offset nbytes) junk).2.buf index = buf index := by
  obtain ⟨v, b, backed, _, _, _, held⟩ := held
  obtain ⟨bytes, result, same⟩ := held.read
  have read := readFile_sim backed.sim backed.sound
    ((allocated_iff backed.sim backed.sound inum).mp proper.allocated) s.rx.buf offset nbytes
    proper.small junk
  rw [result] at read
  exact ⟨read.1, fun index small => (read.2 index small).trans (same index small)⟩
end Serving

/-- A write that was answered 0, one action after the other: `before` it was
called in `one`, it is first served in `served`, it returns in `two`, and more
happens until `three`. As long as since the first serving only copies of it and
requests that spare its range are served, a read of the range that returns gives
the bytes, and copies change nothing. -/
theorem acknowledged_write_lasts (started : Started g s)
    {before early middle later : List (Action Request Junk)}
    {one served two three : Net Serv Request Reply}
    {inum offset nbytes : UInt32} {buf : Bytes} {index : Nat} {request : Request} {reply : Reply}
    (first : Allowed udp Lawful (idle s) before) (reaches : run udp (idle s) before = one)
    (within : offset.toNat % 4096 + nbytes.toNat ≤ 4096)
    (called : Lawful one (.call (.write inum buf offset nbytes)))
    (unserved : Allowed udp (fun net action => Lawful net action ∧
      Unserved (one.calls + 1) net action)
      (udp one (.call (.write inum buf offset nbytes))) early)
    (arrives : run udp (udp one (.call (.write inum buf offset nbytes))) early = served)
    (quiet : Allowed udp (fun net action => Lawful net action ∧
      Quiet (one.calls + 1) (Spares inum offset nbytes) net action) served middle)
    (reaches' : run udp served middle = two)
    (same : two.calls = one.calls + 1) (returns : Returns two index request reply)
    (success : reply.nodeNum = 0) (quiet' : Allowed udp (fun net action => Lawful net action ∧
      Quiet (one.calls + 1) (Spares inum offset nbytes) net action)
      (udp two (.receive index)) later)
    (reaches'' : run udp (udp two (.receive index)) later = three) :
    (∀ place answer, Returns three place (.read inum offset nbytes) answer →
      answer.nodeNum = 0 ∧ ∀ byte < nbytes.toNat, answer.buf byte = buf byte) ∧
    ∀ place packet junk, three.requests[place]? = some packet → packet.call = one.calls + 1 →
      Unchanged three.server (udp three (.serve place junk)).server := by
  have again : ∀ server junk, InOrder g server → Proper server (.write inum buf offset nbytes) →
      HoldsBytes g inum buf offset nbytes server →
      HoldsBytes g inum buf offset nbytes (handle server (.write inum buf offset nbytes) junk).1 :=
    fun server junk _ proper held => (write_again server junk proper held).1
  have lasts : ∀ server request junk, InOrder g server → Proper server request →
      Spares inum offset nbytes request → HoldsBytes g inum buf offset nbytes server →
      HoldsBytes g inum buf offset nbytes (handle server request junk).1 :=
    fun server request junk _ => serve_lasts server request junk
  have orderly : Orderly (InOrder g) Proper one := by
    subst reaches
    exact orderly_run inOrder_serve proper_serve (orderly_idle _ _ (inOrder_started started)) first
  -- whatever is served before the write itself does not matter
  obtain ⟨orderlyServed, copiesServed, silent⟩ : Orderly (InOrder g) Proper served ∧
      Copies (.write inum buf offset nbytes) (one.calls + 1) served ∧
      ∀ packet ∈ served.replies, packet.call ≠ one.calls + 1 := by
    subst arrives
    exact unserved_run inOrder_serve proper_serve orderly called.1 called.2 unserved
  obtain ⟨orderly', copies, held⟩ : Orderly (InOrder g) Proper two ∧
      Copies (.write inum buf offset nbytes) (one.calls + 1) two ∧
      HoldsBytes g inum buf offset nbytes two.server := by
    subst reaches'
    exact acknowledged (fun reply : Reply => reply.nodeNum = 0) again lasts inOrder_serve
      proper_serve (write_makes within) orderlyServed copiesServed silent quiet returns same success
  -- returning leaves the server and the requests in flight as they are
  have returned : Orderly (InOrder g) Proper (udp two (.receive index)) :=
    orderly_act inOrder_serve proper_serve orderly' ⟨request, reply, returns⟩ trivial
  obtain ⟨orderly'', copies', held', told⟩ : Orderly (InOrder g) Proper three ∧
      Copies (.write inum buf offset nbytes) (one.calls + 1) three ∧
      HoldsBytes g inum buf offset nbytes three.server ∧
      ∀ place answer, Returns three place (.read inum offset nbytes) answer →
        answer.nodeNum = 0 ∧ ∀ byte < nbytes.toNat, answer.buf byte = buf byte := by
    subst reaches''
    exact answered again lasts inOrder_serve proper_serve (.read inum offset nbytes)
      (fun answer => answer.nodeNum = 0 ∧ ∀ byte < nbytes.toNat, answer.buf byte = buf byte)
      (fun server junk _ => read_answers server junk) returned
      (copies_act copies) held rfl quiet'
  refine ⟨told, ?_⟩
  intro place packet junk found number
  have member := List.mem_of_getElem? found
  have fit := (orderly''.requests packet member).2
  simp only [udp, act, found]
  rw [copies'.bodies packet member number] at fit ⊢
  exact (write_again _ junk fit held').2

section Traces

def putByte (byte : UInt8) : Request := .write 1 (fun _ => byte) 0 1

def getByte : Request := .read 1 0 1

def makeFile : List (Action Request Junk) := smooth (.creat 0 ufsRegularFile [97]) noJunk

structure FirstFile (s : Serv) : Prop where
  order : InOrder smallest s
  put : ∀ byte, Proper s (putByte byte)
  get : Proper s getByte

theorem FirstFile.serve {request : Request} (file : FirstFile s) (proper : Proper s request) :
    FirstFile (handle s request noJunk).1 :=
  ⟨inOrder_serve s request noJunk file.order proper,
    fun byte => proper_serve s request noJunk _ file.order proper (file.put byte),
    proper_serve s request noJunk _ file.order proper file.get⟩

theorem handle_write (s : Serv) (inum : UInt32) (buf : Bytes) (offset nbytes : UInt32)
    (junk : Junk) : (handle s (.write inum buf offset nbytes) junk).2.nodeNum =
      (writeFile s inum buf offset nbytes ufsRegularFile junk).1 := by
  simp only [handle, serve, Serv.answer]

theorem handle_creatA (s : Serv) :
    (handle s (.creat 0 ufsRegularFile [97]) noJunk).1 = run step s [creatA] := by
  simp only [handle, run_cons, run_nil, creatA, step]

theorem run_makeFile (started : Started smallest s) :
    Allowed udp Lawful (idle s) makeFile ∧
      run udp (idle s) makeFile = ⟨run step s [creatA], 1, none, [], []⟩ ∧
      FirstFile (run step s [creatA]) ∧
      ∀ byte, (handle (run step s [creatA]) (putByte byte) noJunk).2.nodeNum = 0 := by
  obtain ⟨⟨proper, _⟩, v, rooted⟩ := Started.creatA started
  have allocated : Allocated (run step s [creatA]) 1 := rooted.allocated 1 (le_refl _)
  have order := inOrder_serve s (.creat 0 ufsRegularFile [97]) noJunk (inOrder_started started)
    proper
  rw [handle_creatA] at order
  obtain ⟨allowed, reaches⟩ := @smooth_call _ _ _ _ handle Proper s 0
    (.creat 0 ufsRegularFile [97]) noJunk proper
  rw [handle_creatA] at reaches
  generalize run step s [creatA] = s1 at *
  refine ⟨allowed, reaches, ⟨order,
    fun _ => ⟨allocated, show (1 : UInt32).toNat ≤ 4096 by decide, Nat.zero_le _⟩,
    ⟨allocated, show (1 : UInt32).toNat ≤ 4096 by decide, Nat.zero_le _⟩⟩, ?_⟩
  intro byte
  rw [putByte, handle_write]
  exact rooted.write_first 1 (by decide) (by decide) _ 0 1 (by decide) (by decide) noJunk

theorem FirstFile.holds (file : FirstFile s) {byte : UInt8}
    (ok : (handle s (putByte byte) noJunk).2.nodeNum = 0) :
    HoldsBytes smallest 1 (fun _ => byte) 0 1 (handle s (putByte byte) noJunk).1 := by
  have within : (0 : UInt32).toNat % 4096 + (1 : UInt32).toNat ≤ 4096 := by decide
  have proper := file.put byte
  rw [putByte] at *
  exact write_makes within s noJunk file.order proper ok

/-- A file that holds a byte takes another one in its place. -/
theorem HoldsBytes.rewrite {byte : UInt8} (other : UInt8)
    (held : HoldsBytes g 1 (fun _ => byte) 0 1 s) (proper : Proper s (putByte other)) :
    (handle s (putByte other) noJunk).2.nodeNum = 0 := by
  obtain ⟨v, b, backed, synced, files, bit, held⟩ := held
  obtain ⟨code, _⟩ := writeFile_sim backed.sim backed.sound bit (fun _ => other) 0 1 ufsRegularFile
    proper.small noJunk
  rw [putByte, handle_write, code, writeFile_mapped held.type held.inside held.mapped]
  rfl

/-- A late copy of a write of byte 2 arrives after byte 1 was asked to be written and
before that is served; the second copy of the write of byte 1 arrives after it returned. -/
theorem resent_write_is_read_back : ∃ s three answer, Started smallest s ∧
    run udp (udp (run udp (run udp (udp (run udp (idle s) (makeFile ++ twice (putByte 2) noJunk))
      (.call (putByte 1))) (delayed noJunk)) [.serve 0 noJunk]) (.receive 0))
      (overtaken getByte noJunk) = three ∧
    Returns three 0 getByte answer ∧ answer.nodeNum = 0 ∧
      ∀ byte < (1 : UInt32).toNat, answer.buf byte = 1 := by
  obtain ⟨s, started⟩ := started_exists smallest
  obtain ⟨allowed, reaches, file, success⟩ := run_makeFile started
  generalize run step s [creatA] = s1 at *
  have file1 := file.serve (file.put 2)
  have held1 := file.holds (success 2)
  obtain ⟨allowed', left⟩ := @twice_call _ _ _ _ handle Proper s1 1 (putByte 2) noJunk (file.put 2)
  generalize handle s1 (putByte 2) noJunk = first at *
  have file2 := file1.serve (file1.put 2)
  have success := HoldsBytes.rewrite 1 (file1.holds (HoldsBytes.rewrite 2 held1 (file1.put 2)))
    (file2.put 1)
  obtain ⟨unserved, arrives⟩ := @delayed_call _ _ _ _ handle Proper first.1 2 (putByte 2)
    (putByte 1) noJunk
  generalize handle first.1 (putByte 2) noJunk = second at *
  have file3 := file2.serve (file2.put 1)
  have quiet := @serve_own _ _ _ _ handle Proper second.1 3 (putByte 1) noJunk [⟨2, second.2⟩]
  obtain ⟨quiet', reaches''⟩ := @overtaken_call _ _ _ _ handle Proper
    (handle second.1 (putByte 1) noJunk).1 3 (putByte 1) getByte noJunk 3 [⟨2, second.2⟩]
    (file3.serve (file3.put 1)).get
  have serves : run udp ⟨second.1, 3, some (putByte 1), [⟨3, putByte 1⟩, ⟨3, putByte 1⟩],
      [⟨2, second.2⟩]⟩ [.serve 0 noJunk] = ⟨(handle second.1 (putByte 1) noJunk).1, 3,
        some (putByte 1), [⟨3, putByte 1⟩], [⟨3, (handle second.1 (putByte 1) noJunk).2⟩,
        ⟨2, second.2⟩]⟩ := rfl
  -- what was served need not be computed from here on
  generalize handle second.1 (putByte 1) noJunk = written at *
  generalize handle written.1 (putByte 1) noJunk = again at *
  generalize handle again.1 getByte noJunk = answer at *
  have before : run udp (idle s) (makeFile ++ twice (putByte 2) noJunk) =
      ⟨first.1, 2, none, [⟨2, putByte 2⟩], []⟩ := by
    rw [run_append, reaches]
    exact left
  have returned : udp ⟨written.1, 3, some (putByte 1), [⟨3, putByte 1⟩],
      [⟨3, written.2⟩, ⟨2, second.2⟩]⟩ (.receive 0) =
        ⟨written.1, 3, none, [⟨3, putByte 1⟩], [⟨2, second.2⟩]⟩ := act_receive _ _ _ _ _ _
  rw [← returned] at quiet' reaches''
  have all : Allowed udp (fun net action => Lawful net action ∧ Quiet 3 (Spares 1 0 1) net action)
      ⟨second.1, 3, some (putByte 1), [⟨3, putByte 1⟩, ⟨3, putByte 1⟩], [⟨2, second.2⟩]⟩
      [.serve 0 noJunk] :=
    allowed_mono (fun _ _ both => ⟨both.1, quiet_mono (fun _ => False.elim) both.2⟩) quiet
  have asks : ∀ request, request = getByte → Spares 1 0 1 request := by
    rintro _ rfl
    trivial
  have all' : Allowed udp (fun net action => Lawful net action ∧ Quiet 3 (Spares 1 0 1) net action)
      (udp ⟨written.1, 3, some (putByte 1), [⟨3, putByte 1⟩], [⟨3, written.2⟩, ⟨2, second.2⟩]⟩
        (.receive 0)) (overtaken getByte noJunk) :=
    allowed_mono (fun _ _ both => ⟨both.1, quiet_mono asks both.2⟩) quiet'
  have begun : Allowed udp Lawful (idle s) (makeFile ++ twice (putByte 2) noJunk) := by
    rw [allowed_append, reaches]
    exact ⟨allowed, allowed'⟩
  have told := acknowledged_write_lasts started begun before (by decide)
    ⟨rfl, file1.put 1⟩ unserved arrives all serves rfl ⟨rfl, rfl⟩ success all' reaches''
  refine ⟨s, ⟨answer.1, 4, some getByte, [], [⟨4, answer.2⟩, ⟨3, again.2⟩, ⟨2, second.2⟩]⟩,
    answer.2, started, ?_, ⟨rfl, rfl⟩, told.1 0 _ ⟨rfl, rfl⟩⟩
  rw [before]
  exact (congrArg (fun net => run udp (udp (run udp net [.serve 0 noJunk]) (.receive 0))
    (overtaken getByte noJunk)) arrives).trans ((congrArg (fun net =>
      run udp (udp net (.receive 0)) (overtaken getByte noJunk)) serves).trans reaches'')

/-- Byte 1 is written by a call that was sent twice, byte 2 by the next call; a
read after the late copy of the first gives 1 again. -/
theorem late_copy_undoes_a_write : ∃ s reply answer, Started smallest s ∧
    Allowed udp Lawful (idle s) (makeFile ++ leftover (putByte 1) (putByte 2) noJunk ++
      .receive 0 :: overtaken getByte noJunk) ∧
    Returns (run udp (idle s) (makeFile ++ leftover (putByte 1) (putByte 2) noJunk)) 0 (putByte 2)
      reply ∧ reply.nodeNum = 0 ∧
    Returns (run udp (idle s) (makeFile ++ leftover (putByte 1) (putByte 2) noJunk ++
      .receive 0 :: overtaken getByte noJunk)) 0 getByte answer ∧ answer.nodeNum = 0 ∧
      answer.buf 0 = 1 := by
  obtain ⟨s, started⟩ := started_exists smallest
  obtain ⟨allowed, reaches, file, success⟩ := run_makeFile started
  generalize run step s [creatA] = s1 at *
  -- the three writes, each to the place of the one before
  have held := file.holds (success 1)
  have file1 := file.serve (file.put 1)
  have ok := HoldsBytes.rewrite 2 held (file1.put 2)
  have held' := file1.holds ok
  have file2 := file1.serve (file1.put 2)
  have held'' := file2.holds (HoldsBytes.rewrite 1 held' (file2.put 1))
  have file3 := file2.serve (file2.put 1)
  obtain ⟨code, bytes⟩ := read_answers _ noJunk file3.get held''
  have first := bytes 0 (by decide)
  obtain ⟨allowed', reaches'⟩ := @leftover_call _ _ _ _ handle Proper s1 1 (putByte 1) (putByte 2)
    noJunk (file.put 1) (file1.put 2)
  obtain ⟨allowed'', reaches''⟩ := @overtaken_call _ _ _ _ handle Proper
    (handle (handle s1 (putByte 1) noJunk).1 (putByte 2) noJunk).1 3 (putByte 1) getByte noJunk 2 []
    file3.get
  rw [← getByte] at code first
  generalize handle (handle s1 (putByte 1) noJunk).1 (putByte 2) noJunk = written at *
  generalize handle written.1 (putByte 1) noJunk = stale at *
  generalize handle stale.1 getByte noJunk = answer at *
  have returned : udp ⟨written.1, 3, some (putByte 2), [⟨2, putByte 1⟩], [⟨3, written.2⟩]⟩
      (.receive 0) = ⟨written.1, 3, none, [⟨2, putByte 1⟩], []⟩ := act_receive _ _ _ _ _ _
  have middle : run udp (idle s) (makeFile ++ leftover (putByte 1) (putByte 2) noJunk) =
      ⟨written.1, 3, some (putByte 2), [⟨2, putByte 1⟩], [⟨3, written.2⟩]⟩ := by
    rw [run_append, reaches]
    exact reaches'
  have last : run udp (idle s) (makeFile ++ leftover (putByte 1) (putByte 2) noJunk ++
      .receive 0 :: overtaken getByte noJunk) =
      ⟨answer.1, 4, some getByte, [], [⟨4, answer.2⟩, ⟨2, stale.2⟩]⟩ := by
    rw [run_append, middle, run_cons, returned]
    exact reaches''
  refine ⟨s, written.2, answer.2, started, ?_, ?_, ok, ?_, code, first⟩
  · rw [allowed_append, allowed_append, middle, reaches]
    refine ⟨⟨allowed, allowed'⟩, ⟨⟨_, _, rfl, rfl⟩, trivial⟩, ?_⟩
    rw [returned]
    exact allowed_mono (fun _ _ both => both.1) allowed''
  · rw [middle]
    exact ⟨rfl, rfl⟩
  · rw [last]
    exact ⟨rfl, rfl⟩
end Traces

end OsProjects.LateCopies
