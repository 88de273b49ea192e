import OsProjects.FirstFiles

/-!
The image as a durable copy and the `fswrite` calls since the last `fsync`. Only
`end_serv` calls `fsync`, so a crash may lose any of the calls of requests that
were answered long ago, and may keep any of the request it interrupts. A crash is
harmless, whatever it keeps, exactly if no call since the process was started has
changed the image: what was answered before that has been made durable.
-/

namespace OsProjects.Crashes

open ByteStore UfsLayout FileServer Volume VolumeSound VolumeRefinement Runs ServerRuns
  DirectoryBlocks BlockOwnership DirectorySlots FirstFiles

variable {g : Geometry} {s s' : Serv} {v : Vol}

def replay (image : Image) (writes : List FsWrite) : Image :=
  writes.foldl (fun image write => image.put write.addr write.count write.source) image

theorem replay_append (image : Image) (first second : List FsWrite) :
    replay image (first ++ second) = replay (replay image first) second :=
  List.foldl_append

/-- All that the functions behind a request do to the server: `fswrite` calls and
steps of the two counters. -/
inductive Works (s : Serv) : Serv → Prop where
  | refl : Works s s
  | fswrite {s' : Serv} (works : Works s s') (addr : UInt32) (buf : Bytes) (nbytes : Nat) :
      Works s (FileServer.fswrite s' addr buf nbytes)
  | inode {s' : Serv} (works : Works s s') :
      Works s { s' with highestInode := s'.highestInode + 1 }
  | dblk {s' : Serv} (works : Works s s') :
      Works s { s' with hghstAllocDblk := s'.hghstAllocDblk + 1 }

namespace Works

theorem trans {s'' : Serv} (first : Works s s') (second : Works s' s'') : Works s s'' := by
  induction second with
  | refl => exact first
  | fswrite _ addr buf nbytes ih => exact ih.fswrite addr buf nbytes
  | inode _ ih => exact ih.inode
  | dblk _ ih => exact ih.dblk

theorem rx (works : Works s s') : s'.rx = s.rx := by
  induction works with
  | refl => rfl
  | fswrite _ _ _ _ ih => exact ih
  | inode _ ih => exact ih
  | dblk _ ih => exact ih

theorem writeInode (s : Serv) (inum : UInt32) (ind : Inode) : Works s (writeInode s inum ind) :=
  refl.fswrite _ _ _

theorem allocDblk (s : Serv) (junk : Junk) : Works s (allocDblk s junk).2 := by
  unfold FileServer.allocDblk
  split
  · exact refl
  · exact refl.dblk.fswrite _ _ _

theorem newInode (s : Serv) (type : UInt32) (junk : Junk) : Works s (newInode s type junk).2 := by
  unfold FileServer.newInode
  split
  · exact refl
  · exact (refl.inode.fswrite _ _ _).trans (writeInode _ _ _)

theorem fillHoles (junk : Junk) (count : Nat) (s : Serv) (fnd : Inode) :
    Works s (fillHoles junk count s fnd).2 := by
  induction count generalizing s fnd with
  | zero => exact refl
  | succ d ih =>
    have taken := allocDblk s (junk.call d)
    unfold FileServer.fillHoles
    split
    · rcases result : FileServer.allocDblk s (junk.call d) with ⟨ndb, s'⟩
      rw [result] at taken
      dsimp only
      split
      · exact taken
      · exact taken.trans (ih s' _)
    · exact refl

theorem writeBlocks (s : Serv) (inum : UInt32) (buf : Bytes) (offset nbytes : UInt32)
    (fnd : Inode) (junk : Junk) : Works s (writeBlocks s inum buf offset nbytes fnd junk).2 := by
  have start := writeInode s inum fnd
  have taken := allocDblk (FileServer.writeInode s inum fnd) (junk.call 2)
  unfold FileServer.writeBlocks
  dsimp only
  split
  · exact start.trans ((refl.fswrite _ _ _).trans (writeInode _ _ _))
  · split
    · exact start
    · rcases result : FileServer.allocDblk (FileServer.writeInode s inum fnd) (junk.call 2) with
        ⟨ndb, s'⟩
      rw [result] at taken
      dsimp only
      split
      · exact start.trans taken
      · exact (start.trans taken).trans
          ((refl.fswrite _ _ _).trans ((refl.fswrite _ _ _).trans (writeInode _ _ _)))

theorem writeFile (s : Serv) (inum : UInt32) (buf : Bytes) (offset nbytes type : UInt32)
    (junk : Junk) : Works s (writeFile s inum buf offset nbytes type junk).2 := by
  have filled := fillHoles (junk.call 1) ((offset / 4096).toNat + 1) s
    (readInode s inum (junk.call 0)).2
  unfold FileServer.writeFile
  dsimp only
  split
  · exact refl
  · split
    · exact refl
    · rcases result : FileServer.fillHoles (junk.call 1) ((offset / 4096).toNat + 1) s
        (readInode s inum (junk.call 0)).2 with ⟨none | fnd, s'⟩
      · rw [result] at filled
        exact filled
      · rw [result] at filled
        exact filled.trans (writeBlocks s' _ _ _ _ _ _)

theorem makeDir (s : Serv) (ninum pinum : UInt32) (junk : Junk) :
    Works s (makeDir s ninum pinum junk).2 := by
  have taken := allocDblk s (junk.call 1)
  unfold FileServer.makeDir
  rcases result : FileServer.allocDblk s (junk.call 1) with ⟨ndb, s'⟩
  rw [result] at taken
  dsimp only
  split
  · exact taken
  · exact taken.trans ((refl.fswrite _ _ _).trans (writeInode _ _ _))

theorem addEntry (s : Serv) (pinum ninum : UInt32) (name : List UInt8) (junk : Junk) :
    Works s (addEntry s pinum ninum name junk) :=
  writeFile s _ _ _ _ _ _

theorem creatFile (s : Serv) (pinum type : UInt32) (name : List UInt8) (junk : Junk) :
    Works s (creatFile s pinum type name junk).2 := by
  have opened := newInode s type (junk.call 2)
  unfold FileServer.creatFile
  dsimp only
  split
  · exact refl
  · split
    · exact refl
    · rcases result : FileServer.newInode s type (junk.call 2) with ⟨ninum, s1⟩
      rw [result] at opened
      dsimp only
      split
      · exact opened
      · split
        · have made := makeDir s1 ninum pinum (junk.call 3)
          rcases result' : FileServer.makeDir s1 ninum pinum (junk.call 3) with ⟨none | _, s2⟩
          · rw [result'] at made
            exact opened.trans made
          · rw [result'] at made
            exact (opened.trans made).trans (addEntry s2 pinum ninum name (junk.call 4))
        · exact opened.trans (addEntry s1 pinum ninum name (junk.call 4))

theorem unlinkFile (s : Serv) (pinum : UInt32) (name : List UInt8) (junk : Junk) :
    Works s (unlinkFile s pinum name junk).2 := by
  unfold FileServer.unlinkFile
  split
  · exact refl
  · unfold unlinkEntry
    dsimp only
    split
    · split
      · exact refl
      · exact (refl.fswrite _ _ _).trans (writeInode _ _ _)
    · exact writeInode _ _ _

end Works

structure Logs (s s' : Serv) : Prop where
  super : s'.super = s.super
  writes : ∃ writes, s'.pending = s.pending ++ writes ∧ s'.image = replay s.image writes

namespace Logs

theorem refl (s : Serv) : Logs s s := ⟨rfl, [], by simp, rfl⟩

theorem trans {s'' : Serv} (first : Logs s s') (second : Logs s' s'') : Logs s s'' := by
  obtain ⟨super, writes, pending, image⟩ := first
  obtain ⟨super', writes', pending', image'⟩ := second
  refine ⟨super'.trans super, writes ++ writes', ?_, ?_⟩
  · rw [pending', pending, List.append_assoc]
  · rw [image', image, replay_append]

theorem of_eq (super : s'.super = s.super) (pending : s'.pending = s.pending)
    (image : s'.image = s.image) : Logs s s' :=
  ⟨super, [], by simp [pending], image⟩

theorem of_works (works : Works s s') : Logs s s' := by
  induction works with
  | refl => exact refl s
  | fswrite _ addr buf nbytes ih =>
    exact ih.trans ⟨rfl, [⟨addr.toNat, nbytes, buf⟩], rfl, rfl⟩
  | inode _ ih => exact ih.trans (of_eq rfl rfl rfl)
  | dblk _ ih => exact ih.trans (of_eq rfl rfl rfl)

theorem answer (s : Serv) (code : UInt32) : Logs s (s.answer code) := of_eq rfl rfl rfl

theorem serve (s : Serv) (request : Request) (junk : Junk) : Logs s (serve s request junk) := by
  cases request with
  | lookup pinum name => exact answer s _
  | stat | read => exact of_eq rfl rfl rfl
  | write inum buf offset nbytes =>
    simp only [FileServer.serve]
    exact (of_works (Works.writeFile s inum buf offset nbytes ufsRegularFile junk)).trans
      (answer _ _)
  | creat pinum type name =>
    simp only [FileServer.serve]
    exact (of_works (Works.creatFile s pinum type name junk)).trans (answer _ _)
  | unlink pinum name =>
    simp only [FileServer.serve]
    exact (of_works (Works.unlinkFile s pinum name junk)).trans (answer _ _)
end Logs

structure Machine where
  serv : Serv
  durable : Image

inductive DiskEvent where
  | request (request : Request) (junk : Junk)
  | shutdown (junk : Junk)
  | crash (underway : Option (Request × Junk)) (kept : List FsWrite) (junk : Junk)

def reboot (disk : Image) (junk : Junk) : Machine := ⟨initializeServ disk junk, disk⟩

/-- `end_serv` makes every write durable; a crash makes the kept ones durable. -/
def diskStep (m : Machine) : DiskEvent → Machine
  | .request request junk => { m with serv := serve m.serv request junk }
  | .shutdown junk => reboot (replay m.durable m.serv.pending) junk
  | .crash _ kept junk => reboot (replay m.durable kept) junk

/-- The calls a crash can interrupt: those of the answered requests, and those of
the request that is being served, if there is one. -/
def outstanding (s : Serv) : Option (Request × Junk) → List FsWrite
  | none => s.pending
  | some (request, junk) => (serve s request junk).pending

def Possible (m : Machine) : DiskEvent → Prop
  | .crash underway kept _ => kept.Sublist (outstanding m.serv underway)
  | _ => True

def Restarting : DiskEvent → Prop
  | .request _ _ => False
  | _ => True

def SuperKept (s : Serv) : Prop := ∀ junk, (initializeServ s.image junk).super = s.super

/-- No `fswrite` call since the process was started has changed the image, neither of
a request that was answered nor of the one under way. -/
def Unchanged (m : Machine) (underway : Option (Request × Junk)) : Prop :=
  ∀ write ∈ outstanding m.serv underway,
    m.durable.put write.addr write.count write.source = m.durable

def Harmless (m : Machine) : DiskEvent → Prop
  | .request _ _ => True
  | .shutdown _ => SuperKept m.serv
  | .crash underway _ _ => Unchanged m underway

structure Reflected (s s' : Serv) : Prop where
  readInode : ∀ inum junk, readInode s' inum junk = readInode s inum junk
  lookupFile : ∀ pinum name junk, lookupFile s' pinum name junk = lookupFile s pinum name junk
  readFile : ∀ inum buf offset nbytes junk,
    readFile s' inum buf offset nbytes junk = readFile s inum buf offset nbytes junk

def Logged (m : Machine) : Prop := replay m.durable m.serv.pending = m.serv.image

theorem reboot_logged (disk : Image) (junk : Junk) : Logged (reboot disk junk) := rfl

theorem Started.logged (started : Started g s) : Logged ⟨s, s.image⟩ := by
  obtain ⟨image, _, junk, _, rfl⟩ := started
  exact reboot_logged image junk

theorem Logged.diskStep {m : Machine} (logged : Logged m) (event : DiskEvent) :
    Logged (diskStep m event) := by
  cases event with
  | request request junk =>
    obtain ⟨_, writes, pending, image⟩ := Logs.serve m.serv request junk
    change replay m.durable (serve m.serv request junk).pending = (serve m.serv request junk).image
    rw [pending, replay_append, logged, image]
  | shutdown | crash => exact reboot_logged _ _

def Loaded (m : Machine) : Prop := ∀ junk, (initializeServ m.durable junk).super = m.serv.super

theorem Started.loaded (started : Started g s) : Loaded ⟨s, s.image⟩ := by
  obtain ⟨image, _, junk, _, rfl⟩ := started
  exact fun _ => rfl

theorem Loaded.diskStep {m : Machine} (loaded : Loaded m) (event : DiskEvent) :
    Loaded (diskStep m event) := by
  cases event with
  | request request junk =>
    intro junk'
    exact (loaded junk').trans (Logs.serve m.serv request junk).super.symm
  | shutdown | crash => exact fun _ => rfl

theorem replay_unchanged {image : Image} {writes : List FsWrite}
    (same : ∀ write ∈ writes, image.put write.addr write.count write.source = image) :
    replay image writes = image := by
  induction writes with
  | nil => rfl
  | cons write rest ih =>
    change replay (image.put write.addr write.count write.source) rest = image
    rw [same write List.mem_cons_self]
    exact ih fun other later => same other (List.mem_cons_of_mem _ later)

theorem pending_outstanding (s : Serv) (underway : Option (Request × Junk)) :
    s.pending.Sublist (outstanding s underway) := by
  cases underway with
  | none => exact List.Sublist.refl _
  | some interrupted =>
    obtain ⟨_, writes, pending, _⟩ := Logs.serve s interrupted.1 interrupted.2
    change s.pending.Sublist (serve s interrupted.1 interrupted.2).pending
    rw [pending]
    exact List.sublist_append_left _ _

theorem Unchanged.replay {m : Machine} {underway : Option (Request × Junk)} {kept : List FsWrite}
    (unchanged : Unchanged m underway) (part : kept.Sublist (outstanding m.serv underway)) :
    Crashes.replay m.durable kept = m.durable :=
  replay_unchanged fun write here => unchanged write (part.subset here)

/-- Whatever a crash keeps, the image is that of the old process, exactly if no call
has changed it since it was made durable. -/
theorem Logged.crash_iff {m : Machine} (logged : Logged m) (underway : Option (Request × Junk)) :
    (∀ kept : List FsWrite, kept.Sublist (outstanding m.serv underway) →
      replay m.durable kept = m.serv.image) ↔ Unchanged m underway := by
  constructor
  · intro same write here
    have durable : m.durable = m.serv.image := same [] (List.nil_sublist _)
    have once : m.durable.put write.addr write.count write.source = m.serv.image :=
      same [write] (List.singleton_sublist.mpr here)
    exact once.trans durable.symm
  · intro unchanged kept part
    rw [unchanged.replay part, ← logged, unchanged.replay (pending_outstanding m.serv underway)]

theorem SuperKept.reflected (kept : SuperKept s) (junk : Junk) :
    Reflected s (initializeServ s.image junk) :=
  ⟨readInode_disk (kept junk) rfl, lookupFile_disk (kept junk) rfl, readFile_disk (kept junk) rfl⟩

/-- A restart that is harmless finds the image of the old process. -/
theorem Harmless.disk {m : Machine} {event : DiskEvent} (restarting : Restarting event)
    (possible : Possible m event) (logged : Logged m) (loaded : Loaded m)
    (harmless : Harmless m event) :
    ∃ junk, diskStep m event = reboot m.serv.image junk ∧ SuperKept m.serv := by
  cases event with
  | request request junk => exact restarting.elim
  | shutdown junk =>
    refine ⟨junk, ?_, harmless⟩
    simp only [Crashes.diskStep]
    rw [logged]
  | crash underway kept junk =>
    have same := (logged.crash_iff underway).mpr harmless
    have durable : m.durable = m.serv.image := same [] (List.nil_sublist _)
    refine ⟨junk, ?_, ?_⟩
    · simp only [Crashes.diskStep]
      rw [same kept possible]
    · rw [SuperKept, ← durable]
      exact loaded

/-- In every run a process that is started after a crash reads what the one before it
had answered, whatever the crash has kept, if no `fswrite` call since that one was
started has changed the image; and only then is the image the same for every choice
of calls that a crash can keep. After a shutdown it reads so if the super block was
left alone. -/
theorem answered_requests_survive (started : Started g s) {events : List DiskEvent}
    (all : Allowed diskStep Possible ⟨s, s.image⟩ events) :
    (∀ event, Restarting event → Possible (run diskStep ⟨s, s.image⟩ events) event →
      Harmless (run diskStep ⟨s, s.image⟩ events) event →
        Reflected (run diskStep ⟨s, s.image⟩ events).serv
          (run diskStep ⟨s, s.image⟩ (events ++ [event])).serv) ∧
      ∀ underway, (∀ kept : List FsWrite,
          kept.Sublist (outstanding (run diskStep ⟨s, s.image⟩ events).serv underway) →
          replay (run diskStep ⟨s, s.image⟩ events).durable kept =
            (run diskStep ⟨s, s.image⟩ events).serv.image) ↔
        Unchanged (run diskStep ⟨s, s.image⟩ events) underway := by
  have logged : Logged (run diskStep ⟨s, s.image⟩ events) :=
    invariant Logged (Started.logged started) (fun _ event logged _ => logged.diskStep event) all
  have loaded : Loaded (run diskStep ⟨s, s.image⟩ events) :=
    invariant Loaded (Started.loaded started) (fun _ event loaded _ => loaded.diskStep event) all
  refine ⟨fun event restarting possible harmless => ?_, logged.crash_iff⟩
  obtain ⟨junk, result, kept⟩ := harmless.disk restarting possible logged loaded
  rw [run_append, run_cons, run_nil, result]
  exact kept.reflected junk

/-- No session of proper requests touches the super block. -/
theorem proper_superKept (started : Started g s) {events : List Event}
    (all : Allowed step Sessions s events) : SuperKept (run step s events) := by
  obtain ⟨v, sim, sound⟩ := sessions_sound started all
  intro junk
  exact (restart_sim sim sound junk).super.trans sim.super.symm

def firstA : List DiskEvent := [.request (.creat 0 ufsRegularFile [97]) noJunk]

theorem firstA_serv (s : Serv) : (run diskStep ⟨s, s.image⟩ firstA).serv = run step s [creatA] := by
  simp only [firstA, creatA, run_cons, run_nil, diskStep, step]

theorem lookup_firstA (started : Started smallest s) (junk : Junk) :
    lookupCode (lookupFile (run step s [creatA]) 0 [97] junk) = 1 := by
  obtain ⟨_, v, rooted⟩ := Started.creatA started
  obtain ⟨_, _, found⟩ := rooted.present letterA_fileName
    (show (2, [97], 1) ∈ _ from List.mem_cons_self) (by decide) (by simp [dot, dotDot])
  have bit : v.inodeBit (0 : UInt32).toNat = true := rooted.bit 0 (Nat.zero_le _)
  rw [lookupCode_sim rooted.backed.sim rooted.backed.sound bit (by decide) junk]
  exact congrArg (Option.getD · minusOne) found

/-- A name that is found is not made again. -/
theorem creat_found {pinum type : UInt32} {name : List UInt8} {junk : Junk}
    (found : (lookupFile s pinum name (junk.call 1)).isSome)
    (dir : (readInode s pinum (junk.call 0)).2.type = ufsDirectory) :
    serve s (.creat pinum type name) junk = s.answer 0 := by
  simp only [serve, creatFile, dir, found, ne_eq, not_true_eq_false, ↓reduceIte]

/-- The next process, after a shutdown, is asked to make a name that is there. -/
theorem shutdown_creat {m : Machine} {pinum type : UInt32} {name : List UInt8} (logged : Logged m)
    (kept : SuperKept m.serv) (found : (lookupFile m.serv pinum name (noJunk.call 1)).isSome)
    (dir : (readInode m.serv pinum (noJunk.call 0)).2.type = ufsDirectory) :
    run diskStep m [.shutdown noJunk, .request (.creat pinum type name) noJunk] =
      ⟨(initializeServ m.serv.image noJunk).answer 0, m.serv.image⟩ := by
  have reflected := kept.reflected noJunk
  have again : serve (initializeServ m.serv.image noJunk) (.creat pinum type name) noJunk =
      (initializeServ m.serv.image noJunk).answer 0 :=
    creat_found (by rwa [reflected.lookupFile]) (by rwa [reflected.readInode])
  have shut : diskStep m (.shutdown noJunk) =
      ⟨initializeServ m.serv.image noJunk, m.serv.image⟩ := by
    rw [diskStep, logged, reboot]
  rw [run_cons, run_cons, run_nil, shut, diskStep, again]

def shutA : List DiskEvent :=
  firstA ++ [.shutdown noJunk, .request (.creat 0 ufsRegularFile [97]) noJunk]

theorem shutA_serv (started : Started smallest s) : ∃ m : Machine, m.serv = run step s [creatA] ∧
    SuperKept m.serv ∧ run diskStep ⟨s, s.image⟩ shutA =
      ⟨(initializeServ m.serv.image noJunk).answer 0, m.serv.image⟩ := by
  have serv := firstA_serv s
  have logged : Logged (run diskStep ⟨s, s.image⟩ firstA) :=
    invariant Logged (Started.logged started) (fun _ event logged _ => logged.diskStep event)
      (allowed_all _ _)
  have all : Allowed step Sessions s [creatA] := ⟨(Started.creatA started).1.1, trivial⟩
  have kept := proper_superKept started all
  have code := lookup_firstA started (noJunk.call 1)
  obtain ⟨_, v, rooted⟩ := Started.creatA started
  have bit : v.inodeBit (0 : UInt32).toNat = true := rooted.bit 0 (Nat.zero_le _)
  have dir : (readInode (run step s [creatA]) 0 (noJunk.call 0)).2.type = ufsDirectory := by
    have record := readInode_sim rooted.backed.sim bit (by decide) (noJunk.call 0)
    rw [← view_type, record]
    exact congrArg Node.type rooted.root
  rw [← serv] at kept code dir
  refine ⟨run diskStep ⟨s, s.image⟩ firstA, serv, kept, ?_⟩
  rw [shutA, run_append]
  refine shutdown_creat logged kept ?_ dir
  cases missing : lookupFile (run diskStep ⟨s, s.image⟩ firstA).serv 0 [97] (noJunk.call 1) with
  | none =>
    rw [missing] at code
    cases code
  | some _ => rfl

/-- A file that was made before a shutdown survives whatever the crash of the next
process keeps, although that process has answered 0 to a `Creat` too. -/
theorem file_survives_crash_after_shutdown : ∃ s, Started smallest s ∧
    (∀ junk, lookupCode (lookupFile (run diskStep ⟨s, s.image⟩ shutA).serv 0 [97] junk) = 1) ∧
      ∀ kept, Possible (run diskStep ⟨s, s.image⟩ shutA) (.crash none kept noJunk) →
        Reflected (run diskStep ⟨s, s.image⟩ shutA).serv
          (run diskStep ⟨s, s.image⟩ (shutA ++ [.crash none kept noJunk])).serv := by
  obtain ⟨s, started⟩ := started_exists smallest
  obtain ⟨m, serv, superKept, result⟩ := shutA_serv started
  refine ⟨s, started, fun junk => ?_, fun kept possible => ?_⟩
  · have same : lookupFile (run diskStep ⟨s, s.image⟩ shutA).serv 0 [97] junk =
        lookupFile m.serv 0 [97] junk := by
      rw [result]
      exact lookupFile_disk (superKept noJunk) rfl 0 [97] junk
    rw [same, serv]
    exact lookup_firstA started junk
  · refine (answered_requests_survive started
      (show Allowed diskStep Possible _ shutA from ⟨trivial, trivial, trivial, trivial⟩)).1 _ trivial
      possible ?_
    rw [result]
    exact fun write none => by cases none

/-- The `Creat` of `a` is answered 0 and the file can be looked up; a crash that
keeps none of its calls leaves a directory without it. -/
theorem crash_loses_answered_creat : ∃ s, Started smallest s ∧
    replyCode s (.creat 0 ufsRegularFile [97]) noJunk = 0 ∧
      (∀ junk, lookupCode (lookupFile (run diskStep ⟨s, s.image⟩ firstA).serv 0 [97] junk) = 1) ∧
      Possible (run diskStep ⟨s, s.image⟩ firstA) (.crash none [] noJunk) ∧
      ∀ junk, lookupFile (run diskStep ⟨s, s.image⟩ (firstA ++ [.crash none [] noJunk])).serv
        0 [97] junk = none := by
  obtain ⟨s, started⟩ := started_exists smallest
  obtain ⟨v, rooted⟩ := Started.rooted started
  have missing : ∀ k inum, (k, [97], inum) ∉ [(0, dot, (0 : UInt32)), (1, dotDot, 0)] := by
    simp [dot, dotDot]
  refine ⟨s, started, ?_, ?_, List.nil_sublist _, ?_⟩
  · exact (rooted.creat letterA_fileName missing (by decide) (by decide) noJunk).1
  · intro junk
    rw [firstA_serv]
    exact lookup_firstA started junk
  · obtain ⟨image, junk, junk', made, rfl⟩ := started
    have again : Started smallest (initializeServ image noJunk) := ⟨image, junk, noJunk, made, rfl⟩
    obtain ⟨w, rootedW⟩ := Started.rooted again
    rw [run_append]
    exact rootedW.lookupFile_none letterA_fileName missing

end OsProjects.Crashes
