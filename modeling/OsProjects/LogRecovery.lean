import OsProjects.LogTransactions
import OsProjects.RedoLogs
import OsProjects.WordArrays

/-!
The file-system log (`log.c`) over a disk that can lose power. A transaction's
blocks stay in the buffer cache; a commit copies them to the log, writes the
header, installs them at home and erases the header, one disk write at a time.
Other processes read blocks and the cache drops clean buffers in between, and the
machine can stop after any write, also during recovery.

A block is a function of the position in it; `bwrite` returns once the disk has
the block. The log is the header at `start` and the 29 blocks behind it.
-/

namespace OsProjects.LogRecovery

open Runs ByteStore WordArrays RedoLogs LogTransactions List

structure Buf where
  data : Bytes
  dirty : Bool

inductive Stage where
  | idle
  | logging (tail : Nat)
  | committing
  | installing (tail : Nat)
  | clearing
  | finishing
  | booting
  /-- a panic -/
  | halted
  deriving DecidableEq

/-- `up` once recovery is over and the first process runs. -/
structure Machine where
  disk : Nat → Bytes
  cache : Nat → Option Buf
  log : Log
  stage : Stage
  up : Bool

namespace Machine

def look (m : Machine) (blockno : Nat) : Bytes :=
  match m.cache blockno with
  | some buf => buf.data
  | none => m.disk blockno

def bread (m : Machine) (blockno : Nat) : Machine :=
  match m.cache blockno with
  | some _ => m
  | none => { m with cache := Function.update m.cache blockno (some ⟨m.disk blockno, false⟩) }

def bwrite (m : Machine) (blockno : Nat) (data : Bytes) : Machine :=
  { m with
    disk := Function.update m.disk blockno data
    cache := Function.update m.cache blockno (some ⟨data, false⟩) }

def evict (m : Machine) (blockno : Nat) : Machine :=
  match m.cache blockno with
  | some ⟨_, false⟩ => { m with cache := Function.update m.cache blockno none }
  | _ => m

end Machine

/-- `struct logheader` in the first words of a block: `n` and the block numbers,
of which `write_head` stores the first `n`. -/
def encodeHead (block : List Nat) (hb : Bytes) : Bytes :=
  putWords (putWord hb 0 (UInt32.ofNat block.length)) 4 (block.map UInt32.ofNat)

def decodeHead (hb : Bytes) : List Nat :=
  (wordsAt hb 4 (signed (wordAt hb 0)).toNat).map UInt32.toNat

section Functions
variable (start : Nat)

def readHead (m : Machine) : Machine :=
  let m := m.bread start
  { m with log := { m.log with block := decodeHead (m.look start) } }

def writeHead (m : Machine) : Machine :=
  let m := m.bread start
  m.bwrite start (encodeHead m.log.block (m.look start))

def logBlock (m : Machine) (tail blockno : Nat) : Machine :=
  let m := (m.bread (start + tail + 1)).bread blockno
  m.bwrite (start + tail + 1) (m.look blockno)

def installBlock (m : Machine) (tail blockno : Nat) : Machine :=
  let m := (m.bread (start + tail + 1)).bread blockno
  m.bwrite blockno (m.look (start + tail + 1))

def proceed (m : Machine) : Machine :=
  match m.stage with
  | .logging tail =>
    match m.log.block[tail]? with
    | some blockno => { logBlock start m tail blockno with stage := .logging (tail + 1) }
    | none => { m with stage := .committing }
  | .committing => { writeHead start m with stage := .installing 0 }
  | .installing tail =>
    match m.log.block[tail]? with
    | some blockno => { installBlock start m tail blockno with stage := .installing (tail + 1) }
    | none => { m with log := { m.log with block := [] }, stage := .clearing }
  | .clearing => { writeHead start m with stage := .finishing }
  | .finishing => { m with log := { m.log with committing := false }, stage := .idle, up := true }
  | .booting => { readHead start m with stage := .installing 0 }
  | .idle => m
  | .halted => m

/-- `begin_op`; a call that has to sleep changes nothing. -/
def enter (m : Machine) : Machine :=
  match beginOp m.log with
  | some log => { m with log := log }
  | none => m

def change (m : Machine) (blockno : Nat) (data : Bytes) : Machine :=
  let m := m.bread blockno
  match logWrite m.log blockno with
  | some log => { m with log := log, cache := Function.update m.cache blockno (some ⟨data, true⟩) }
  | none => { m with stage := .halted }

def leave (m : Machine) : Machine :=
  let log := { m.log with outstanding := m.log.outstanding - 1 }
  if log.committing then { m with log := log, stage := .halted }
  else if log.outstanding = 0 then
    { m with
      log := { log with committing := true }
      stage := if log.block.length > 0 then .logging 0 else .finishing }
  else { m with log := log }

def boot (disk : Nat → Bytes) : Machine := ⟨disk, fun _ => none, empty, .booting, false⟩

inductive Event where
  | beginOp (pid : Nat)
  | write (pid : Nat) (blockno : UInt32) (data : Bytes)
  | endOp (pid : Nat)
  | read (blockno : Nat)
  | evict (blockno : Nat)
  | proceed
  | crash

def act (m : Machine) : Event → Machine
  | .beginOp _ => enter m
  | .write _ blockno data => change m blockno.toNat data
  | .endOp _ => leave m
  | .read blockno => m.bread blockno
  | .evict blockno => m.evict blockno
  | .proceed => proceed start m
  | .crash => boot m.disk

/-- After a panic only a restart helps. -/
def step (m : Machine) : Event → Machine
  | .crash => boot m.disk
  | event => if m.stage = .halted then m else act start m event

def Home (blockno : Nat) : Prop := blockno < start ∨ start + logSize ≤ blockno

/-- System calls are made once the system is up, they write blocks outside the log
and end what they began. -/
def Possible (m : Machine) : Event → Prop
  | .beginOp _ => m.up = true
  | .write _ blockno _ => m.up = true ∧ Home start blockno.toNat
  | .endOp _ => m.up = true ∧ 1 ≤ m.log.outstanding
  | _ => True

instance (blockno : Nat) : Decidable (Home start blockno) := inferInstanceAs (Decidable (_ ∨ _))

instance (m : Machine) : (event : Event) → Decidable (Possible start m event)
  | .beginOp _ => inferInstanceAs (Decidable (_ = _))
  | .write _ _ _ => inferInstanceAs (Decidable (_ ∧ _))
  | .endOp _ => inferInstanceAs (Decidable (_ ∧ _))
  | .read _ | .evict _ | .proceed | .crash => isTrue trivial

end Functions

/-- What the log is for: `current` is what the file system reads, `stable` what a
crash leaves of it. -/
structure Durable where
  current : Nat → Bytes
  stable : Nat → Bytes

/-- A write is seen at once, the commit point makes all of it stable, and a crash
goes back to what is stable. -/
def Durable.record (m : Machine) (event : Event) (d : Durable) : Durable :=
  match event with
  | .write _ blockno data =>
    if m.stage ≠ .halted ∧ (logWrite m.log blockno.toNat).isSome then
      { d with current := Function.update d.current blockno.toNat data }
    else d
  | .proceed => if m.stage = .committing then { d with stable := d.current } else d
  | .crash => { d with current := d.stable }
  | _ => d

section Header

theorem decodeHead_encodeHead (block : List Nat) (hb : Bytes)
    (small : ∀ blockno ∈ block, blockno < 4294967296) (few : block.length < 2147483648) :
    decodeHead (encodeHead block hb) = block := by
  have count : (signed (wordAt (encodeHead block hb) 0)).toNat = (block.map UInt32.ofNat).length := by
    rw [encodeHead, wordAt_putWords_outside _ _ _ _ (by omega), wordAt_putWord_same,
      length_map, signed, UInt32.toNat_ofNat_of_lt' (by simpa [UInt32.size] using by omega)]
    simp [few]
  rw [decodeHead, count, encodeHead, wordsAt_putWords, map_map]
  conv_rhs => rw [← map_id block]
  refine map_congr_left fun blockno member => ?_
  have fits : blockno < UInt32.size := small blockno member
  simp only [Function.comp, id]
  rw [UInt32.toNat_ofNat_of_lt' fits]

end Header

variable {blockno : Nat}

section Cache

def Machine.Dirty (m : Machine) (blockno : Nat) : Prop :=
  ∃ buf, m.cache blockno = some buf ∧ buf.dirty = true

def Machine.Clean (m : Machine) : Prop :=
  ∀ blockno buf, m.cache blockno = some buf → buf.dirty = false → buf.data = m.disk blockno

theorem Machine.Clean.look_eq {m : Machine} (clean : m.Clean)
    (undirty : ¬ m.Dirty blockno) : m.look blockno = m.disk blockno := by
  unfold Machine.look
  split
  · rename_i buf cached
    refine clean _ _ cached ?_
    by_contra marked
    exact undirty ⟨buf, cached, Bool.not_eq_false _ ▸ marked⟩
  · rfl

structure Untouched (m m' : Machine) : Prop where
  disk : m'.disk = m.disk
  log : m'.log = m.log
  stage : m'.stage = m.stage
  up : m'.up = m.up
  look : m.Clean → m'.look = m.look
  dirty : ∀ blockno, m'.Dirty blockno → m.Dirty blockno
  clean : m.Clean → m'.Clean

theorem Untouched.trans {m m' m'' : Machine} (first : Untouched m m')
    (second : Untouched m' m'') : Untouched m m'' where
  disk := second.disk.trans first.disk
  log := second.log.trans first.log
  stage := second.stage.trans first.stage
  up := second.up.trans first.up
  look clean := (second.look (first.clean clean)).trans (first.look clean)
  dirty _ here := first.dirty _ (second.dirty _ here)
  clean clean := second.clean (first.clean clean)

theorem cached_cases {cache : Nat → Option Buf} {blockno other : Nat} {slot : Option Buf} {buf : Buf}
    (here : Function.update cache blockno slot other = some buf) :
    (other = blockno ∧ slot = some buf) ∨ (other ≠ blockno ∧ cache other = some buf) := by
  by_cases same : other = blockno
  · subst same
    exact Or.inl ⟨rfl, by rwa [Function.update_self] at here⟩
  · exact Or.inr ⟨same, by rwa [Function.update_of_ne same] at here⟩

theorem untouched_bread (m : Machine) (blockno : Nat) : Untouched m (m.bread blockno) := by
  unfold Machine.bread
  split
  · exact ⟨rfl, rfl, rfl, rfl, fun _ => rfl, fun _ here => here, fun clean => clean⟩
  · rename_i missing
    refine {
      disk := rfl, log := rfl, stage := rfl, up := rfl, look := fun _ => ?_, dirty := ?_
      clean := fun clean => ?_ }
    · funext other
      by_cases same : other = blockno
      · subst same
        simp [Machine.look, missing]
      · simp [Machine.look, Function.update_of_ne same]
    · rintro other ⟨buf, cached, marked⟩
      rcases cached_cases cached with ⟨rfl, new⟩ | ⟨_, old⟩
      · cases new
        cases marked
      · exact ⟨buf, old, marked⟩
    · intro other buf cached unmarked
      rcases cached_cases cached with ⟨rfl, new⟩ | ⟨_, old⟩
      · cases new
        rfl
      · exact clean other buf old unmarked

theorem untouched_evict (m : Machine) (blockno : Nat) : Untouched m (m.evict blockno) := by
  unfold Machine.evict
  split
  · rename_i data cached
    refine {
      disk := rfl, log := rfl, stage := rfl, up := rfl, look := fun clean => ?_, dirty := ?_
      clean := fun clean => ?_ }
    · have same : data = m.disk blockno := clean blockno _ cached rfl
      funext other
      by_cases here : other = blockno
      · subst here
        simp [Machine.look, cached, same]
      · simp [Machine.look, Function.update_of_ne here]
    · rintro other ⟨buf, here, marked⟩
      rcases cached_cases here with ⟨_, gone⟩ | ⟨_, old⟩
      · cases gone
      · exact ⟨buf, old, marked⟩
    · intro other buf here unmarked
      rcases cached_cases here with ⟨_, gone⟩ | ⟨_, old⟩
      · cases gone
      · exact clean other buf old unmarked
  · exact ⟨rfl, rfl, rfl, rfl, fun _ => rfl, fun _ here => here, fun clean => clean⟩

structure Wrote (m m' : Machine) (blockno : Nat) (data : Bytes) : Prop where
  disk : m'.disk = Function.update m.disk blockno data
  log : m'.log = m.log
  up : m'.up = m.up
  look : m'.look = Function.update m.look blockno data
  dirty : ∀ other, m'.Dirty other → m.Dirty other
  clean : m'.Clean

theorem wrote_bwrite {m m' : Machine} (same : Untouched m m') (clean : m.Clean) (blockno : Nat)
    (data : Bytes) : Wrote m (m'.bwrite blockno data) blockno data where
  disk := by rw [← same.disk]; rfl
  log := same.log
  up := same.up
  look := by
    rw [← same.look clean]
    funext other
    by_cases here : other = blockno
    · subst here
      simp [Machine.look, Machine.bwrite]
    · simp [Machine.look, Machine.bwrite, Function.update_of_ne here]
  dirty := by
    rintro other ⟨buf, cached, marked⟩
    rcases cached_cases cached with ⟨_, new⟩ | ⟨_, old⟩
    · cases new
      cases marked
    · exact same.dirty _ ⟨buf, old, marked⟩
  clean := by
    intro other buf cached unmarked
    rcases cached_cases cached with ⟨rfl, new⟩ | ⟨apart, old⟩
    · cases new
      simp [Machine.bwrite]
    · exact (same.clean clean other buf old unmarked).trans (Function.update_of_ne apart ..).symm

theorem wrote_writeHead (start : Nat) {m : Machine} (clean : m.Clean) :
    ∃ hb, Wrote m (writeHead start m) start (encodeHead m.log.block hb) := by
  have same := untouched_bread m start
  refine ⟨(m.bread start).look start, ?_⟩
  simp only [writeHead, same.log]
  exact wrote_bwrite same clean _ _

theorem wrote_logBlock (start : Nat) {m : Machine} (clean : m.Clean) (tail blockno : Nat) :
    Wrote m (logBlock start m tail blockno) (start + tail + 1) (m.look blockno) := by
  have same := (untouched_bread m (start + tail + 1)).trans (untouched_bread _ blockno)
  simp only [logBlock, same.look clean]
  exact wrote_bwrite same clean _ _

theorem wrote_installBlock (start : Nat) {m : Machine} (clean : m.Clean) (tail blockno : Nat) :
    Wrote m (installBlock start m tail blockno) blockno (m.look (start + tail + 1)) := by
  have same := (untouched_bread m (start + tail + 1)).trans (untouched_bread _ blockno)
  simp only [installBlock, same.look clean]
  exact wrote_bwrite same clean _ _

end Cache

section Recovery
variable (start : Nat)

structure Good (block : List Nat) : Prop where
  distinct : block.Nodup
  home : ∀ blockno ∈ block, Home start blockno
  small : ∀ blockno ∈ block, blockno < 4294967296
  few : block.length ≤ 29

def entries (disk : Nat → Bytes) (block : List Nat) : List (Nat × Bytes) :=
  block.zipIdx.map fun entry => (entry.1, disk (start + entry.2 + 1))

structure Recoverable (disk stable : Nat → Bytes) (block : List Nat) : Prop where
  head : decodeHead (disk start) = block
  good : Good start block
  replayed : ∀ blockno, Home start blockno →
    replay (entries start disk block) disk blockno = stable blockno

variable {start} {disk stable : Nat → Bytes} {block : List Nat}

theorem Good.nil : Good start [] := ⟨nodup_nil, by simp, by simp, by simp⟩

theorem Good.decode (good : Good start block) (hb : Bytes) :
    decodeHead (encodeHead block hb) = block :=
  decodeHead_encodeHead block hb good.small (by have := good.few; omega)

theorem Good.index_lt (good : Good start block) {tail blockno : Nat}
    (here : block[tail]? = some blockno) : tail < 29 := by
  obtain ⟨inside, _⟩ := List.getElem?_eq_some_iff.mp here
  exact Nat.lt_of_lt_of_le inside good.few

theorem not_home {tail : Nat} (small : tail < 29) : ¬ Home start (start + tail + 1) := by
  unfold Home logSize
  omega

theorem not_home_start : ¬ Home start start := by
  unfold Home logSize
  omega

theorem map_fst_entries : (entries start disk block).map Prod.fst = block := by
  simp [entries, map_map, Function.comp_def]

theorem mem_entries {tail blockno : Nat} (here : block[tail]? = some blockno) :
    (blockno, disk (start + tail + 1)) ∈ entries start disk block :=
  mem_map.mpr ⟨(blockno, tail), mem_zipIdx_iff_getElem?.mpr here, rfl⟩

theorem entries_congr {disk' : Nat → Bytes} (same : ∀ tail blockno, block[tail]? = some blockno →
      disk' (start + tail + 1) = disk (start + tail + 1)) :
    entries start disk' block = entries start disk block := by
  refine map_congr_left fun entry member => ?_
  rw [same entry.2 entry.1 (mem_zipIdx_iff_getElem?.mp member)]

theorem Recoverable.distinct (saved : Recoverable start disk stable block) :
    ((entries start disk block).map Prod.fst).Nodup := by
  rw [map_fst_entries]
  exact saved.good.distinct

theorem Recoverable.logged (saved : Recoverable start disk stable block) {tail blockno : Nat}
    (here : block[tail]? = some blockno) : disk (start + tail + 1) = stable blockno := by
  have home := saved.good.home blockno (mem_of_getElem? here)
  rw [← saved.replayed blockno home, replay_of_mem saved.distinct (mem_entries here)]

/-- Whatever is written to a block of the log's header, recovery writes it again. -/
theorem Recoverable.install (saved : Recoverable start disk stable block)
    (member : blockno ∈ block) (data : Bytes) :
    Recoverable start (Function.update disk blockno data) stable block := by
  have home := saved.good.home blockno member
  have other : ∀ place, ¬ Home start place → Function.update disk blockno data place = disk place := by
    intro place away
    refine Function.update_of_ne ?_ _ _
    rintro rfl
    exact away home
  refine ⟨?_, saved.good, fun place here => ?_⟩
  · rw [other start not_home_start, saved.head]
  · rw [entries_congr fun tail _ found => other _ (not_home (saved.good.index_lt found)),
      replay_update saved.distinct (map_fst_entries.symm ▸ member), saved.replayed place here]

/-- An empty header: the home blocks are the stable ones. -/
theorem recoverable_nil (head : decodeHead (disk start) = [])
    (homes : ∀ blockno, Home start blockno → disk blockno = stable blockno) :
    Recoverable start disk stable [] :=
  ⟨head, Good.nil, homes⟩

/-- The commit point: the log has the new data of the header's blocks, and the
other blocks have not changed. -/
theorem recoverable_commit (good : Good start block)
    (copied : ∀ tail blockno, block[tail]? = some blockno →
      disk (start + tail + 1) = stable blockno)
    (rest : ∀ blockno, Home start blockno → blockno ∉ block → disk blockno = stable blockno)
    (hb : Bytes) :
    Recoverable start (Function.update disk start (encodeHead block hb)) stable block := by
  have other : ∀ place, place ≠ start →
      Function.update disk start (encodeHead block hb) place = disk place :=
    fun place apart => Function.update_of_ne apart _ _
  have same : entries start (Function.update disk start (encodeHead block hb)) block =
      entries start disk block :=
    entries_congr fun tail _ _ => other _ (by omega)
  have distinct : ((entries start disk block).map Prod.fst).Nodup := map_fst_entries ▸ good.distinct
  refine ⟨by rw [Function.update_self, good.decode], good, fun place home => ?_⟩
  have apart : place ≠ start := fun here => not_home_start (here ▸ home)
  rw [same]
  by_cases member : place ∈ block
  · obtain ⟨tail, inside, here⟩ := getElem_of_mem member
    have found : block[tail]? = some place := here ▸ getElem?_eq_getElem inside
    rw [replay_of_mem distinct (mem_entries found), copied tail place found]
  · rw [replay_of_not_mem (by rwa [map_fst_entries]), other place apart, rest place home member]

end Recovery

section Invariant
variable (start : Nat)

/-- Before the commit point the home blocks are the stable ones, and the file
system sees other data only in the blocks of the header. -/
structure Fresh (disk : Nat → Bytes) (log : Log) (d : Durable) : Prop where
  head : decodeHead (disk start) = []
  homes : ∀ blockno, Home start blockno → disk blockno = d.stable blockno
  rest : ∀ blockno, Home start blockno → blockno ∉ log.block → d.current blockno = d.stable blockno

structure Shut (log : Log) (up : Bool) : Prop where
  none : log.outstanding = 0
  waiting : up = true → log.committing = true

def Settled (d : Durable) : Prop :=
  ∀ blockno, Home start blockno → d.current blockno = d.stable blockno

def AtStage (disk : Nat → Bytes) (log : Log) (up : Bool) (d : Durable) : Stage → Prop
  | .idle => up = true ∧ Fresh start disk log d ∧ log.committing = false ∧ 0 ≤ log.outstanding ∧
      (log.outstanding = 0 → log.block = [])
  | .logging tail => up = true ∧ Fresh start disk log d ∧ Shut log up ∧
      ∀ index blockno, index < tail → log.block[index]? = some blockno →
        disk (start + index + 1) = d.current blockno
  | .committing => up = true ∧ Fresh start disk log d ∧ Shut log up ∧
      ∀ index blockno, log.block[index]? = some blockno →
        disk (start + index + 1) = d.current blockno
  | .installing tail => Shut log up ∧ Settled start d ∧ Recoverable start disk d.stable log.block ∧
      ∀ index blockno, index < tail → log.block[index]? = some blockno →
        disk blockno = d.stable blockno
  | .clearing => Shut log up ∧ Settled start d ∧ log.block = [] ∧
      (∃ block, Recoverable start disk d.stable block) ∧
      ∀ blockno, Home start blockno → disk blockno = d.stable blockno
  | .finishing => Shut log up ∧ Settled start d ∧ log.block = [] ∧
      Recoverable start disk d.stable []
  | .booting => up = false ∧ Shut log up ∧ Settled start d ∧
      ∃ block, Recoverable start disk d.stable block
  | .halted => ∃ block, Recoverable start disk d.stable block

structure Kept (m : Machine) (d : Durable) : Prop where
  clean : m.Clean
  dirtyHome : ∀ blockno, m.Dirty blockno → Home start blockno
  quiet : m.up = false → ∀ blockno, ¬ m.Dirty blockno
  good : Good start m.log.block
  seen : m.up = true → m.stage ≠ .halted →
    ∀ blockno, Home start blockno → m.look blockno = d.current blockno
  stage : AtStage start m.disk m.log m.up d m.stage

variable {start} {m : Machine} {d : Durable}

theorem Fresh.recoverable {disk : Nat → Bytes} {log : Log} (fresh : Fresh start disk log d) :
    Recoverable start disk d.stable [] :=
  recoverable_nil fresh.head fresh.homes

/-- At every moment the disk alone determines the stable state. -/
theorem Kept.saved (kept : Kept start m d) : ∃ block, Recoverable start m.disk d.stable block := by
  have here := kept.stage
  cases stage : m.stage with
  | idle | logging tail | committing =>
    rw [stage] at here
    exact ⟨[], here.2.1.recoverable⟩
  | installing tail =>
    rw [stage] at here
    exact ⟨m.log.block, here.2.2.1⟩
  | clearing =>
    rw [stage] at here
    exact here.2.2.2.1
  | finishing =>
    rw [stage] at here
    exact ⟨[], here.2.2.2⟩
  | booting =>
    rw [stage] at here
    exact here.2.2.2
  | halted =>
    rw [stage] at here
    exact here

theorem Kept.untouched (kept : Kept start m d) {m' : Machine} (same : Untouched m m') :
    Kept start m' d where
  clean := same.clean kept.clean
  dirtyHome blockno here := kept.dirtyHome blockno (same.dirty _ here)
  quiet off blockno here := kept.quiet (same.up ▸ off) blockno (same.dirty _ here)
  good := same.log ▸ kept.good
  seen on running := by
    rw [same.look kept.clean]
    exact kept.seen (same.up ▸ on) (same.stage ▸ running)
  stage := by
    rw [same.disk, same.log, same.up, same.stage]
    exact kept.stage

theorem kept_boot {block : List Nat} {disk stable : Nat → Bytes}
    (saved : Recoverable start disk stable block) : Kept start (boot disk) ⟨stable, stable⟩ where
  clean _ _ here := by cases here
  dirtyHome := by
    rintro _ ⟨_, here, _⟩
    cases here
  quiet := by
    rintro _ _ ⟨_, here, _⟩
    cases here
  good := Good.nil
  seen on := by cases on
  stage := ⟨rfl, ⟨rfl, fun on => by cases on⟩, fun _ _ => rfl, block, saved⟩

theorem Kept.halt (kept : Kept start m d) (log : Log) (good : Good start log.block) (d' : Durable)
    (same : d'.stable = d.stable) : Kept start { m with log := log, stage := .halted } d' where
  clean := kept.clean
  dirtyHome := kept.dirtyHome
  quiet := kept.quiet
  good := good
  seen _ running := absurd rfl running
  stage := by
    obtain ⟨block, saved⟩ := kept.saved
    exact ⟨block, same ▸ saved⟩

theorem beginOp_some {log log' : Log} (began : beginOp log = some log') :
    log.committing = false ∧ (log.block.length : Int) + (log.outstanding + 1) * maxOpBlocks ≤ logSize ∧
      log' = { log with outstanding := log.outstanding + 1 } := by
  unfold beginOp at began
  split at began
  · cases began
  · rename_i idle
    split at began
    · cases began
    · rename_i room
      exact ⟨Bool.not_eq_true _ ▸ idle, Int.not_lt.mp room, (Option.some.inj began).symm⟩

theorem logWrite_some {log log' : Log} (wrote : logWrite log blockno = some log') :
    log.block.length < 29 ∧ 1 ≤ log.outstanding ∧ ((blockno ∈ log.block ∧ log' = log) ∨
        (blockno ∉ log.block ∧ log' = { log with block := log.block ++ [blockno] })) := by
  unfold logWrite at wrote
  split at wrote
  · cases wrote
  · rename_i room
    simp only [logSize] at room
    split at wrote
    · cases wrote
    · rename_i inside
      refine ⟨by omega, by omega, ?_⟩
      split at wrote
      · rename_i absorbed
        exact Or.inl ⟨absorbed, (Option.some.inj wrote).symm⟩
      · rename_i new
        exact Or.inr ⟨new, (Option.some.inj wrote).symm⟩

theorem logWrite_grows {log log' : Log} (wrote : logWrite log blockno = some log') :
    blockno ∈ log'.block ∧ log.block ⊆ log'.block ∧
      log'.committing = log.committing ∧ log'.outstanding = log.outstanding := by
  obtain ⟨_, _, ⟨old, rfl⟩ | ⟨_, rfl⟩⟩ := logWrite_some wrote
  · exact ⟨old, List.Subset.refl _, rfl, rfl⟩
  · exact ⟨by simp, subset_append_left _ _, rfl, rfl⟩

/-- With an operation open, or no commit on its way, the log is idle. -/
theorem Kept.idle (kept : Kept start m d) (running : m.stage ≠ .halted)
    (opened : m.log.outstanding ≠ 0 ∨ (m.up = true ∧ m.log.committing = false)) :
    m.stage = .idle := by
  have shut : ∀ {P : Prop}, Shut m.log m.up → P := fun closed => by
    rcases opened with some | ⟨up, off⟩
    · exact absurd closed.none some
    · rw [closed.waiting up] at off
      cases off
  have here := kept.stage
  cases stage : m.stage with
  | idle => rfl
  | halted => exact absurd stage running
  | logging tail | committing =>
    rw [stage] at here
    exact shut here.2.2.1
  | installing tail | clearing | finishing =>
    rw [stage] at here
    exact shut here.1
  | booting =>
    rw [stage] at here
    exact shut here.2.1

/-- The calls of a process leave the disk and the cache as they are and change the
log only. -/
theorem Kept.relog (kept : Kept start m d) {log : Log} {stage : Stage} (good : Good start log.block)
    (running : m.stage ≠ .halted) (at' : AtStage start m.disk log m.up d stage) :
    Kept start { m with log := log, stage := stage } d where
  clean := kept.clean
  dirtyHome := kept.dirtyHome
  quiet := kept.quiet
  good := good
  seen on _ := kept.seen on running
  stage := at'

theorem Kept.enter (kept : Kept start m d) (up : m.up = true) (running : m.stage ≠ .halted) :
    Kept start (enter m) d := by
  unfold LogRecovery.enter
  split
  · rename_i log began
    obtain ⟨off, _, rfl⟩ := beginOp_some began
    have idle := kept.idle running (Or.inr ⟨up, off⟩)
    have here := kept.stage
    rw [idle] at here
    obtain ⟨_, fresh, _, counted, _⟩ := here
    have result : AtStage start m.disk { m.log with outstanding := m.log.outstanding + 1 } m.up d
        m.stage := by
      rw [idle]
      exact ⟨up, ⟨fresh.head, fresh.homes, fresh.rest⟩, off, by simp only; omega,
        fun zero => by simp only at zero; omega⟩
    exact kept.relog kept.good running result
  · exact kept

theorem Kept.leave (kept : Kept start m d) (up : m.up = true) (running : m.stage ≠ .halted)
    (opened : 1 ≤ m.log.outstanding) : Kept start (leave m) d := by
  have idle := kept.idle running (Or.inl (by omega))
  have here := kept.stage
  rw [idle] at here
  obtain ⟨_, fresh, off, _, _⟩ := here
  have fresh' : ∀ log : Log, log.block = m.log.block → Fresh start m.disk log d := fun log same =>
    ⟨fresh.head, fresh.homes, by rw [same]; exact fresh.rest⟩
  unfold LogRecovery.leave
  simp only [off, Bool.false_eq_true, if_false]
  split
  · rename_i last
    refine kept.relog kept.good running ?_
    split
    · exact ⟨up, fresh' _ rfl, ⟨last, fun _ => rfl⟩, fun _ _ none => absurd none (Nat.not_lt_zero _)⟩
    · rename_i none
      have nothing : m.log.block = [] := eq_nil_of_length_eq_zero (by omega)
      refine ⟨⟨last, fun _ => rfl⟩, fun blockno home => fresh.rest blockno home ?_, nothing,
        fresh.recoverable⟩
      rw [nothing]
      exact not_mem_nil
  · rename_i more
    refine kept.relog kept.good running ?_
    rw [idle]
    exact ⟨up, fresh' _ rfl, rfl, by simp only; omega, fun zero => absurd zero more⟩

theorem Good.append {block : List Nat} (good : Good start block)
    (home : Home start blockno) (small : blockno < 4294967296) (room : block.length < 29)
    (new : blockno ∉ block) : Good start (block ++ [blockno]) where
  distinct := nodup_append.mpr ⟨good.distinct, nodup_singleton _, by
    rintro old member _ here rfl
    exact new (mem_singleton.mp here ▸ member)⟩
  home place member := by
    rcases mem_append.mp member with old | here
    · exact good.home place old
    · exact mem_singleton.mp here ▸ home
  small place member := by
    rcases mem_append.mp member with old | here
    · exact good.small place old
    · exact mem_singleton.mp here ▸ small
  few := by
    rw [length_append, length_singleton]
    omega

section
variable (kept : Kept start m d) (up : m.up = true) (running : m.stage ≠ .halted) {blockno : UInt32}
  (home : Home start blockno.toNat)
include kept up running home

theorem Kept.write {log : Log}
    (wrote : logWrite m.log blockno.toNat = some log) (data : Bytes) :
    Kept start
      { m with log := log, cache := Function.update m.cache blockno.toNat (some ⟨data, true⟩) }
      { d with current := Function.update d.current blockno.toNat data } := by
  obtain ⟨room, opened, change⟩ := logWrite_some wrote
  have idle := kept.idle running (Or.inl (by omega))
  have here := kept.stage
  rw [idle] at here
  obtain ⟨_, fresh, off, counted, _⟩ := here
  obtain ⟨member, wider, same⟩ := logWrite_grows wrote
  constructor
  · intro place buf cached unmarked
    rcases cached_cases cached with ⟨_, new⟩ | ⟨_, old⟩
    · cases new
      cases unmarked
    · exact kept.clean place buf old unmarked
  · rintro place ⟨buf, cached, marked⟩
    rcases cached_cases cached with ⟨rfl, _⟩ | ⟨_, old⟩
    · exact home
    · exact kept.dirtyHome place ⟨buf, old, marked⟩
  · intro down
    exact absurd (up.symm.trans down) Bool.true_eq_false.mp
  · rcases change with ⟨_, rfl⟩ | ⟨new, rfl⟩
    · exact kept.good
    · exact kept.good.append home blockno.toNat_lt room new
  · intro _ _ place there
    by_cases target : place = blockno.toNat
    · subst target
      simp [Machine.look]
    · have old := kept.seen up running place there
      simpa [Machine.look, Function.update_of_ne target] using old
  · rw [idle]
    refine ⟨up, ⟨fresh.head, fresh.homes, fun place there absent => ?_⟩, same.1.trans off,
      same.2 ▸ counted, fun zero => ?_⟩
    · have apart : place ≠ blockno.toNat := by
        rintro rfl
        exact absent member
      exact (Function.update_of_ne apart ..).trans
        (fresh.rest place there fun old => absent (wider old))
    · rw [same.2] at zero
      omega

theorem Kept.change (pid : Nat) (data : Bytes) :
    Kept start (change m blockno.toNat data) (d.record m (.write pid blockno data)) := by
  have same := untouched_bread m blockno.toNat
  have kept' := kept.untouched same
  have running' : (m.bread blockno.toNat).stage ≠ .halted := same.stage ▸ running
  unfold LogRecovery.change Durable.record
  simp only
  split
  · rename_i log wrote
    have accepted : m.stage ≠ .halted ∧ (logWrite m.log blockno.toNat).isSome := by
      rw [← same.log, wrote]
      exact ⟨running, rfl⟩
    rw [if_pos accepted]
    exact kept'.write (same.up ▸ up) running' home wrote data
  · rename_i refused
    have rejected : ¬ (m.stage ≠ .halted ∧ (logWrite m.log blockno.toNat).isSome) := by
      rw [← same.log, refused]
      exact fun both => Bool.false_ne_true both.2
    rw [if_neg rejected]
    exact kept'.halt _ kept'.good d rfl
end

section Commit

/-- After a disk write by `commit` or recovery: what the file system sees and
where the log stands are left to show. -/
theorem Kept.wrote (kept : Kept start m d) {m' : Machine} {data : Bytes}
    (wrote : Wrote m m' blockno data) {stage : Stage} {d' : Durable}
    (seen : m.up = true → ∀ place, Home start place →
      Function.update m.look blockno data place = d'.current place)
    (at' : AtStage start (Function.update m.disk blockno data) m.log m.up d' stage) :
    Kept start { m' with stage := stage } d' where
  clean := wrote.clean
  dirtyHome place here := kept.dirtyHome place (wrote.dirty _ here)
  quiet off place here := kept.quiet (wrote.up ▸ off) place (wrote.dirty _ here)
  good := wrote.log ▸ kept.good
  seen on _ := by
    change ∀ place, Home start place → m'.look place = d'.current place
    rw [wrote.look]
    exact seen (wrote.up ▸ on)
  stage := by
    change AtStage start m'.disk m'.log m'.up d' stage
    rw [wrote.disk, wrote.log, wrote.up]
    exact at'

/-- A write to the log area does not change what the file system sees. -/
theorem Kept.seen_aside (kept : Kept start m d) (running : m.stage ≠ .halted)
    (aside : ¬ Home start blockno) (data : Bytes) (up : m.up = true) (place : Nat)
    (home : Home start place) : Function.update m.look blockno data place = d.current place := by
  have apart : place ≠ blockno := by
    rintro rfl
    exact aside home
  rw [Function.update_of_ne apart]
  exact kept.seen up running place home

theorem Fresh.aside {disk : Nat → Bytes} {log : Log} (fresh : Fresh start disk log d)
    (aside : ¬ Home start blockno) (apart : blockno ≠ start) (data : Bytes) :
    Fresh start (Function.update disk blockno data) log d where
  head := by
    rw [Function.update_of_ne apart.symm]
    exact fresh.head
  homes place home := by
    have other : place ≠ blockno := by
      rintro rfl
      exact aside home
    rw [Function.update_of_ne other]
    exact fresh.homes place home
  rest := fresh.rest

section
variable (kept : Kept start m d)
include kept

theorem Kept.atStage {stage : Stage} (at' : m.stage = stage) :
    AtStage start m.disk m.log m.up d stage := at' ▸ kept.stage

theorem Kept.logging {tail blockno : Nat} (stage : m.stage = .logging tail)
    (here : m.log.block[tail]? = some blockno) :
    Kept start { logBlock start m tail blockno with stage := .logging (tail + 1) } d := by
  obtain ⟨up, fresh, shut, copied⟩ := kept.atStage stage
  have running : m.stage ≠ .halted := by simp [stage]
  have aside := @not_home start tail (kept.good.index_lt here)
  refine kept.wrote (wrote_logBlock start kept.clean tail blockno)
    (kept.seen_aside running aside _) ⟨up, fresh.aside aside (by omega) _, shut, ?_⟩
  intro index place before found
  by_cases now : index = tail
  · subst now
    rw [here, Option.some.injEq] at found
    subst found
    rw [Function.update_self]
    exact kept.seen up running blockno (kept.good.home _ (mem_of_getElem? here))
  · rw [Function.update_of_ne (by omega)]
    exact copied index place (by omega) found

theorem Kept.committing (stage : m.stage = .committing) :
    Kept start { writeHead start m with stage := .installing 0 } { d with stable := d.current } := by
  obtain ⟨up, fresh, shut, copied⟩ := kept.atStage stage
  have running : m.stage ≠ .halted := by simp [stage]
  obtain ⟨hb, wrote⟩ := wrote_writeHead start kept.clean
  refine kept.wrote wrote (kept.seen_aside running not_home_start _)
    ⟨shut, fun _ _ => rfl, ?_, fun _ _ none => absurd none (Nat.not_lt_zero _)⟩
  refine recoverable_commit kept.good copied (fun place home absent => ?_) hb
  exact (fresh.homes place home).trans (fresh.rest place home absent).symm

theorem Kept.installing {tail blockno : Nat}
    (stage : m.stage = .installing tail) (here : m.log.block[tail]? = some blockno) :
    Kept start { installBlock start m tail blockno with stage := .installing (tail + 1) } d := by
  obtain ⟨shut, settled, saved, installed⟩ := kept.atStage stage
  have running : m.stage ≠ .halted := by simp [stage]
  have member := mem_of_getElem? here
  have home := saved.good.home _ member
  -- the log block is never dirty, so the cache has what the disk has
  have data : m.look (start + tail + 1) = d.stable blockno := by
    rw [kept.clean.look_eq fun dirty => not_home (saved.good.index_lt here) (kept.dirtyHome _ dirty),
      saved.logged here]
  refine kept.wrote (wrote_installBlock start kept.clean tail blockno) (fun up place there => ?_)
    ⟨shut, settled, saved.install member _, fun index place before found => ?_⟩
  · by_cases target : place = blockno
    · subst target
      rw [Function.update_self, data, settled place home]
    · rw [Function.update_of_ne target]
      exact kept.seen up running place there
  · by_cases target : place = blockno
    · subst target
      rw [Function.update_self, data]
    · rw [Function.update_of_ne target]
      refine installed index place ?_ found
      have apart : index ≠ tail := by
        rintro rfl
        exact target (Option.some.inj (found.symm.trans here))
      omega

theorem Kept.installed {tail : Nat} (stage : m.stage = .installing tail)
    (done : m.log.block[tail]? = none) :
    Kept start { m with log := { m.log with block := [] }, stage := .clearing } d := by
  obtain ⟨shut, settled, saved, installed⟩ := kept.atStage stage
  have running : m.stage ≠ .halted := by simp [stage]
  refine kept.relog Good.nil running
    ⟨⟨shut.none, shut.waiting⟩, settled, rfl, ⟨_, saved⟩, fun place home => ?_⟩
  by_cases member : place ∈ m.log.block
  · obtain ⟨index, inside, found⟩ := getElem_of_mem member
    have past := getElem?_eq_none_iff.mp done
    exact installed index place (by omega) (found ▸ getElem?_eq_getElem inside)
  · have kept' := saved.replayed place home
    rwa [replay_of_not_mem (by rwa [map_fst_entries])] at kept'

theorem Kept.clearing (stage : m.stage = .clearing) :
    Kept start { writeHead start m with stage := .finishing } d := by
  obtain ⟨shut, settled, nothing, _, homes⟩ := kept.atStage stage
  have running : m.stage ≠ .halted := by simp [stage]
  obtain ⟨hb, wrote⟩ := wrote_writeHead start kept.clean
  refine kept.wrote wrote (kept.seen_aside running not_home_start _)
    ⟨shut, settled, nothing, recoverable_nil ?_ fun place home => ?_⟩
  · rw [Function.update_self, kept.good.decode, nothing]
  · rw [Function.update_of_ne fun same => not_home_start (same ▸ home)]
    exact homes place home

theorem Kept.finishing (stage : m.stage = .finishing) :
    Kept start { m with log := { m.log with committing := false }, stage := .idle, up := true } d := by
  obtain ⟨shut, settled, nothing, saved⟩ := kept.atStage stage
  have running : m.stage ≠ .halted := by simp [stage]
  have fresh : Fresh start m.disk { m.log with committing := false } d :=
    ⟨saved.head, saved.replayed, fun place home _ => settled place home⟩
  refine ⟨kept.clean, kept.dirtyHome, (fun off => by cases off), kept.good,
    fun _ _ place home => ?_, rfl, fresh, rfl, Int.le_of_eq shut.none.symm, fun _ => nothing⟩
  change m.look place = d.current place
  cases up : m.up with
  | true => exact kept.seen up running place home
  | false =>
    rw [kept.clean.look_eq (kept.quiet up place), settled place home]
    exact saved.replayed place home

theorem Kept.booting (stage : m.stage = .booting) :
    Kept start { readHead start m with stage := .installing 0 } d := by
  obtain ⟨off, shut, settled, block, saved⟩ := kept.atStage stage
  have same := untouched_bread m start
  have kept' := kept.untouched same
  have running : (m.bread start).stage ≠ .halted := by simp [same.stage, stage]
  have head : decodeHead ((m.bread start).look start) = block := by
    rw [same.look kept.clean, kept.clean.look_eq (kept.quiet off start), saved.head]
  simp only [readHead, head]
  refine kept'.relog saved.good running ?_
  rw [same.disk, same.up, same.log]
  exact ⟨⟨shut.none, shut.waiting⟩, settled, saved, fun _ _ none => absurd none (Nat.not_lt_zero _)⟩

theorem Kept.proceed : Kept start (proceed start m) (d.record m .proceed) := by
  unfold LogRecovery.proceed Durable.record
  cases stage : m.stage with
  | logging tail =>
    cases here : m.log.block[tail]? with
    | some blockno => simpa [here] using kept.logging stage here
    | none =>
      obtain ⟨up, fresh, shut, copied⟩ := kept.atStage stage
      have past := getElem?_eq_none_iff.mp here
      have whole : AtStage start m.disk m.log m.up d .committing :=
        ⟨up, fresh, shut, fun index blockno found => copied index blockno
          (Nat.lt_of_lt_of_le (List.getElem?_eq_some_iff.mp found).1 past) found⟩
      simpa [here] using kept.relog kept.good (by rw [stage]; exact nofun) whole
  | committing => simpa using kept.committing stage
  | installing tail =>
    cases here : m.log.block[tail]? with
    | some blockno => simpa [here] using kept.installing stage here
    | none => simpa [here] using kept.installed stage here
  | clearing => simpa using kept.clearing stage
  | finishing => simpa using kept.finishing stage
  | booting => simpa using kept.booting stage
  | idle | halted => simpa using kept
end

end Commit

theorem step_running {event : Event} (running : m.stage ≠ .halted) :
    step start m event = act start m event := by
  cases event <;> simp [step, act, running]

theorem step_halted {event : Event} (halted : m.stage = .halted) (other : event ≠ .crash) :
    step start m event = m ∧ d.record m event = d := by
  cases event <;> simp_all [step, Durable.record]

theorem Kept.act (kept : Kept start m d) (running : m.stage ≠ .halted) {event : Event}
    (possible : Possible start m event) : Kept start (act start m event) (d.record m event) := by
  cases event with
  | beginOp pid => exact kept.enter possible running
  | write pid blockno data => exact kept.change possible.1 running possible.2 pid data
  | endOp pid => exact kept.leave possible.1 running possible.2
  | read blockno => exact kept.untouched (untouched_bread m blockno)
  | evict blockno => exact kept.untouched (untouched_evict m blockno)
  | proceed => exact kept.proceed
  | crash =>
    obtain ⟨block, saved⟩ := kept.saved
    exact kept_boot saved

theorem Kept.step (kept : Kept start m d) {event : Event} (possible : Possible start m event) :
    Kept start (step start m event) (d.record m event) := by
  by_cases halted : m.stage = .halted
  · by_cases crash : event = .crash
    · obtain ⟨block, saved⟩ := kept.saved
      subst crash
      exact kept_boot saved
    · obtain ⟨same, same'⟩ := @step_halted start m d event halted crash
      rw [same, same']
      exact kept
  · rw [step_running halted]
    exact kept.act halted possible

end Invariant

section Restart
variable {start : Nat} {m : Machine} {d : Durable}

def Recovering : Stage → Prop
  | .booting | .installing _ | .clearing | .finishing | .idle => True
  | _ => False

theorem proceed_recovering (recovering : Recovering m.stage) :
    Recovering (proceed start m).stage ∧ d.record m .proceed = d := by
  cases stage : m.stage with
  | installing tail =>
    cases here : m.log.block[tail]? <;>
      simp [Recovering, proceed, Durable.record, stage, here]
  | booting | clearing | finishing | idle => simp [Recovering, proceed, Durable.record, stage]
  | _ => simp [Recovering, stage] at recovering

theorem installBlock_log (m : Machine) (tail blockno : Nat) :
    (installBlock start m tail blockno).log = m.log :=
  ((untouched_bread m (start + tail + 1)).trans (untouched_bread _ blockno)).log

def remaining (start : Nat) (m : Machine) : Nat :=
  match m.stage with
  | .booting => (decodeHead (m.look start)).length + 4
  | .installing tail => m.log.block.length - tail + 3
  | .clearing => 2
  | .finishing => 1
  | _ => 0

theorem remaining_proceed (recovering : Recovering m.stage) :
    remaining start (proceed start m) ≤ remaining start m - 1 := by
  cases stage : m.stage with
  | booting =>
    have same : (m.bread start).look start = m.look start := by
      unfold Machine.bread Machine.look
      cases cached : m.cache start <;> simp [cached]
    simp [remaining, proceed, stage, readHead, same]
  | installing tail =>
    cases here : m.log.block[tail]? with
    | some blockno =>
      have inside := (List.getElem?_eq_some_iff.mp here).1
      simp only [remaining, proceed, stage, here, installBlock_log]
      omega
    | none =>
      simp only [remaining, proceed, stage, here]
      omega
  | clearing | finishing | idle => simp [remaining, proceed, stage]
  | _ => simp [Recovering, stage] at recovering

theorem kept_recovers (kept : Kept start m d) (recovering : Recovering m.stage) {count : Nat}
    (enough : remaining start m ≤ count) :
    Kept start (run (step start) m (replicate count .proceed)) d ∧
      (run (step start) m (replicate count .proceed)).stage = .idle := by
  induction count generalizing m with
  | zero =>
    refine ⟨kept, ?_⟩
    cases stage : m.stage <;> simp_all [Recovering, remaining]
  | succ count ih =>
    have running : m.stage ≠ .halted := by
      intro halted
      rw [halted] at recovering
      exact recovering
    have next := @proceed_recovering start m d recovering
    have step' : step start m .proceed = proceed start m := step_running running
    have shorter := @remaining_proceed start m recovering
    rw [replicate_succ, run_cons, step']
    refine ih ?_ next.1 (by omega)
    have kept' := kept.proceed
    rwa [next.2] at kept'

/-- The files' blocks as a run of transactions, commits and crashes leaves them,
beside the run itself. -/
def history (start : Nat) (disk : Nat → Bytes) (events : List Event) : Machine × Durable :=
  run (recorded (step start) Durable.record) (boot disk, ⟨disk, disk⟩) events

theorem kept_history {disk : Nat → Bytes} {events : List Event}
    (formatted : decodeHead (disk start) = [])
    (possible : Allowed (step start) (Possible start) (boot disk) events) :
    Kept start (history start disk events).1 (history start disk events).2 := by
  refine invariant (fun state : Machine × Durable => Kept start state.1 state.2)
    (kept_boot (recoverable_nil formatted fun _ _ => rfl))
    (fun _ _ kept possible => kept.step possible) (allowed_recorded.mpr possible)

/-- Whatever processes do and whenever the power fails, reads see all writes since
the last restart; the last `end_op` makes them stable; and a crash at any point
leaves exactly what was stable: all of a transaction from the moment its header is
on the disk, and nothing of it before. -/
theorem transactions_survive_crashes (start : Nat) (disk : Nat → Bytes) (events : List Event)
    (formatted : decodeHead (disk start) = [])
    (possible : Allowed (step start) (Possible start) (boot disk) events) :
    let m := run (step start) (boot disk) events
    let d := (history start disk events).2
    (m.up = true → m.stage ≠ .halted →
        ∀ blockno, Home start blockno → m.look blockno = d.current blockno) ∧
      (m.stage = .idle → m.log.outstanding = 0 →
        ∀ blockno, Home start blockno → d.current blockno = d.stable blockno) ∧
      ∀ count ≥ 33, let m' := run (step start) (boot m.disk) (replicate count .proceed)
        m'.up = true ∧ m'.stage = .idle ∧
          ∀ blockno, Home start blockno → m'.look blockno = d.stable blockno := by
  intro m d
  have kept : Kept start m d := by
    have kept := kept_history formatted possible
    rwa [history, run_recorded] at kept
  refine ⟨kept.seen, fun stage none blockno home => ?_, fun count enough => ?_⟩
  · obtain ⟨_, fresh, _, _, nothing⟩ := kept.atStage stage
    refine fresh.rest blockno home ?_
    rw [nothing none]
    exact not_mem_nil
  · obtain ⟨block, saved⟩ := kept.saved
    have few : remaining start (boot m.disk) ≤ count := by
      have head : (boot m.disk).look start = m.disk start := rfl
      have short := saved.good.few
      simp only [remaining, boot] at head ⊢
      rw [head, saved.head]
      omega
    obtain ⟨kept', idle⟩ := kept_recovers (kept_boot saved) trivial few
    have up := (kept'.atStage idle).1
    exact ⟨up, idle, kept'.seen up (by simp [idle])⟩

def oneWrite : List Event :=
  replicate 4 .proceed ++
    [.beginOp 1, .write 1 40 fun _ => 7, .endOp 1, .proceed, .proceed, .proceed]

/-- With the header on the disk a crash keeps the block's new data, one write
earlier it brings back the old. -/
theorem header_write_is_the_commit_point :
    (run (step 2) (boot (run (step 2) (boot fun _ _ => 0) oneWrite).disk)
        (replicate 33 .proceed)).look 40 = (fun _ => 7) ∧
      (run (step 2) (boot (run (step 2) (boot fun _ _ => 0) oneWrite.dropLast).disk)
        (replicate 33 .proceed)).look 40 = fun _ => 0 := by
  have committed := transactions_survive_crashes 2 (fun _ _ => 0) oneWrite (by decide) (by decide)
  have lost := transactions_survive_crashes 2 (fun _ _ => 0) oneWrite.dropLast (by decide)
    (by decide)
  exact ⟨(committed.2.2 33 (Nat.le_refl _)).2.2 40 (by decide),
    (lost.2.2 33 (Nat.le_refl _)).2.2 40 (by decide)⟩

end Restart

end OsProjects.LogRecovery
