import OsProjects.MkfsImage
import OsProjects.Runs

/-!
Runs of the server: requests, and restarts that start a new process on the
image the old one left. Every run on an image of `mkfs` stays in step with a
sound volume, as long as requests name allocated inodes and carry what fits a
message. Bitmap bits, inode records and the bytes a read returns are read from
the image.
-/

namespace OsProjects.ServerRuns

open ByteStore UfsLayout FileServer Volume VolumeSound VolumeRefinement MkfsImage Runs

inductive Event where
  | request (request : Request) (junk : Junk)
  | restart (junk : Junk)

/-- A restart is `MFS_SHUTDOWN` and a new `initialize_serv`. -/
def step (s : Serv) : Event → Serv
  | .request request junk => serve s request junk
  | .restart junk => initializeServ s.image junk

def Started (g : Geometry) (s : Serv) : Prop :=
  ∃ image junk junk', mkfs g.numInodes g.numData junk = some image ∧ s = initializeServ image junk'

def inodeBit (s : Serv) (inum : Nat) : Bool :=
  bitAt s.image.bytes (4096 * s.super.inodeBitmapAddr.toNat) inum

def dataBit (s : Serv) (k : Nat) : Bool :=
  bitAt s.image.bytes (4096 * s.super.dataBitmapAddr.toNat) k

def Allocated (s : Serv) (inum : UInt32) : Prop :=
  inum.toNat < s.super.numInodes.toNat ∧ inodeBit s inum.toNat = true

def inodeOf (s : Serv) (inum : UInt32) : Inode :=
  nodeAt s.image.bytes (4096 * s.super.inodeRegionAddr.toNat + 128 * inum.toNat)

/-- A request as the client library sends it, on an allocated inode. -/
structure Proper (s : Serv) (request : Request) : Prop where
  allocated : Allocated s (inode request)
  small : length request ≤ 4096
  short : (name request).length ≤ 28

def Sessions (s : Serv) : Event → Prop
  | .request request _ => Proper s request
  | .restart _ => True

def OneRun (s : Serv) : Event → Prop
  | .request request _ => Proper s request
  | .restart _ => False

theorem oneRun_sessions {s : Serv} {events : List Event} (all : Allowed step OneRun s events) :
    Allowed step Sessions s events := by
  refine allowed_mono (fun state event allowed => ?_) all
  cases event with
  | request request junk => exact allowed
  | restart junk => exact allowed.elim

/-! Reading depends on the image and the super block only. -/

section SameDisk
variable {s s' : Serv} (super : s'.super = s.super) (image : s'.image = s.image)
include image

theorem fsread_image (start : Nat) (buf : Bytes) (nbytes : Nat) :
    fsread s' start buf nbytes = fsread s start buf nbytes := by
  unfold fsread
  rw [image]

theorem fsreadEnd_image (start nbytes : Nat) :
    fsreadEnd s' start nbytes = fsreadEnd s start nbytes := by
  unfold fsreadEnd
  rw [image]

theorem scanBlock_image (block : UInt32) (name : List UInt8) (left j : Nat) (de : Bytes)
    (pos : Nat) : scanBlock s' block name left j de pos = scanBlock s block name left j de pos := by
  induction left generalizing j de pos with
  | zero => rfl
  | succ left ih => simp only [scanBlock, fsread_image image, fsreadEnd_image image, ih]

theorem scanDir_image (nd : Inode) (name : List UInt8) (junk : Junk) (left i pos : Nat) :
    scanDir s' nd name junk left i pos = scanDir s nd name junk left i pos := by
  induction left generalizing i pos with
  | zero => rfl
  | succ left ih => simp only [scanDir, scanBlock_image image, ih]

include super

theorem readInode_disk (inum : UInt32) (junk : Junk) :
    readInode s' inum junk = readInode s inum junk := by
  simp only [readInode, inodeAddr, super, fsread_image image, fsreadEnd_image image]

theorem readInodeEnd_disk (inum : UInt32) (junk : Junk) :
    readInodeEnd s' inum junk = readInodeEnd s inum junk := by
  simp only [readInodeEnd, readInode_disk super image, inodeAddr, super, fsreadEnd_image image]

theorem lookupFile_disk (pinum : UInt32) (name : List UInt8) (junk : Junk) :
    lookupFile s' pinum name junk = lookupFile s pinum name junk := by
  simp only [lookupFile, readInode_disk super image, readInodeEnd_disk super image,
    scanDir_image image]

theorem readFile_disk (inum : UInt32) (buf : Bytes) (offset nbytes : UInt32) (junk : Junk) :
    readFile s' inum buf offset nbytes junk = readFile s inum buf offset nbytes junk := by
  simp only [readFile, readInode_disk super image, readInodeEnd_disk super image,
    fsread_image image, fsreadEnd_image image]
end SameDisk

section Reading
variable {g : Geometry} {s : Serv} {v : Vol}

theorem allocated_iff (sim : Sim g s v) (sound : Sound g v) (inum : UInt32) :
    Allocated s inum ↔ v.inodeBit inum.toNat = true := by
  have layout := g.layout
  have count : g.super.numInodes.toNat = g.numInodes := toNat_ofNat_lt (by omega)
  rw [Allocated, inodeBit, sim.super, count, show g.super.inodeBitmapAddr.toNat = 1 from rfl]
  constructor
  · rintro ⟨inside, bit⟩
    rw [← sim.shows'.inodeBit _ (by omega)]
    exact bit
  · intro bit
    have inside := sound.inodeBit_lt _ bit
    refine ⟨inside, ?_⟩
    rw [← sim.shows'.inodeBit _ (by omega)] at bit
    exact bit

theorem inodeBit_eq (sim : Sim g s v) (n : Nat) (inside : n < g.numInodes) :
    inodeBit s n = v.inodeBit n := by
  have layout := g.layout
  rw [inodeBit, sim.super, ← sim.shows'.inodeBit n (by omega)]
  rfl

theorem dataBit_eq (sim : Sim g s v) (k : Nat) (inside : k < g.numData) :
    dataBit s k = v.dataBit k := by
  have layout := g.layout
  have region : g.super.dataBitmapAddr.toNat = g.dataBitmapAddr := toNat_ofNat_lt (by omega)
  rw [dataBit, sim.super, region, sim.shows'.dataBit k (by omega)]

section
variable (sim : Sim g s v) (inum : UInt32) (inside : inum.toNat < g.numInodes)
include sim inside

theorem inodeOf_eq : view (inodeOf s inum) = v.node inum.toNat := by
  have layout := g.layout
  have region : g.super.inodeRegionAddr.toNat = g.inodeRegionAddr := toNat_ofNat_lt (by omega)
  rw [inodeOf, sim.super, region, sim.shows'.node _ (by omega)]

theorem inodeOf_type : (inodeOf s inum).type = (v.node inum.toNat).type := by
  rw [← inodeOf_eq sim inum inside, view_type]

theorem inodeOf_size : (inodeOf s inum).size.toNat = (v.node inum.toNat).size := by
  rw [← inodeOf_eq sim inum inside, view_size]

theorem inodeOf_hole
    (i : Nat) : (inodeOf s inum).ptr i = minusOne ↔ (v.node inum.toNat).direct i = none := by
  rw [← inodeOf_eq sim inum inside, ptr_eq_minusOne]

theorem inodeOf_ptr {i b : Nat} (mapped : (v.node inum.toNat).direct i = some b) :
    ((inodeOf s inum).ptr i).toNat = b := by
  rw [← inodeOf_eq sim inum inside, view_direct] at mapped
  split at mapped
  · cases mapped
  · exact Option.some.inj mapped
end

theorem Proper.admissible {request : Request} (proper : Proper s request) (sim : Sim g s v)
    (sound : Sound g v) : Admissible v request :=
  ⟨(allocated_iff sim sound _).mp proper.allocated, proper.small, proper.short⟩
end Reading

section Reaching
variable {g : Geometry} {s : Serv}

theorem Started.initial (started : Started g s) : ∃ v, Sim g s v ∧ Initial g v := by
  obtain ⟨image, junk, junk', made, rfl⟩ := started
  obtain ⟨image', made', shown, initial⟩ := mkfs_initial g junk
  cases made.symm.trans made'
  exact ⟨_, initializeServ_sim shown initial.boot junk', initial⟩

def smallest : Geometry := ⟨32, 32, by decide, by decide, by decide⟩

def noJunk : Junk := fun _ _ => 0

theorem started_exists (g : Geometry) : ∃ s, Started g s := by
  obtain ⟨image, made, _⟩ := mkfs_initial g noJunk
  exact ⟨initializeServ image noJunk, image, noJunk, noJunk, made, rfl⟩

def restarted (v : Vol) : Vol := { v with highestInode := 0, hghstAllocDblk := 0 }

theorem restarted_sound {v : Vol} (sound : Sound g v) : Sound g (restarted v) := by
  have layout := g.layout
  refine { sound with
    highestInode_lt := ?_, hghstAllocDblk_lt := ?_, inodeBit_le := ?_, dataBit_le := ?_ }
  · change 0 < g.numInodes
    omega
  · change 0 < g.numData
    omega
  · intro n bound
    exact sound.inodeBit_le n (le_trans bound (Nat.zero_le _))
  · intro k bound
    exact sound.dataBit_le k (le_trans bound (Nat.zero_le _))

theorem restart_sim {v : Vol} (sim : Sim g s v) (sound : Sound g v) (junk : Junk) :
    Sim g (initializeServ s.image junk) (restarted v) :=
  initializeServ_sim sim.shows' sound.boot junk

/-- Whatever the sessions were, the server works on a sound volume. -/
theorem sessions_sound (started : Started g s) {events : List Event}
    (all : Allowed step Sessions s events) : ∃ v, Sim g (run step s events) v ∧ Sound g v := by
  apply invariant (fun s => ∃ v, Sim g s v ∧ Sound g v) _ _ all
  · obtain ⟨v, sim, initial⟩ := started.initial
    exact ⟨v, sim, initial.sound⟩
  · rintro s event ⟨v, sim, sound⟩ allowed
    cases event with
    | request request junk =>
      have admissible := Proper.admissible allowed sim sound
      obtain ⟨chance, _, sim', _⟩ := serve_sim sim sound admissible junk
      exact ⟨_, sim', serve_sound sound admissible chance⟩
    | restart junk => exact ⟨_, restart_sim sim sound junk, restarted_sound sound⟩
end Reaching

end OsProjects.ServerRuns
