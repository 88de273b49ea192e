import OsProjects.RingBuffers
import OsProjects.Runs

/-!
Pipes (`pipe.c`). Any number of processes write to a pipe and read from it; each
runs under the pipe's lock until it returns or sleeps, and calls are interleaved
in any way. The counters are machine words that wrap. `kill` sets a process's flag
and wakes it.
-/

namespace OsProjects.Pipes

open Runs RingBuffers Function List

structure Pipe where
  data : Nat → UInt8
  nread : UInt32
  nwrite : UInt32
  readopen : Bool
  writeopen : Bool

inductive Wrote where
  | returned
  | failed (rest : List UInt8)
  | slept (rest : List UInt8)

def Wrote.rest : Wrote → List UInt8
  | .returned => []
  | .failed rest => rest
  | .slept rest => rest

def pipewrite (killed : Bool) : List UInt8 → Pipe → Pipe × Wrote
  | [], p => (p, .returned)
  | byte :: rest, p =>
    if p.nwrite = p.nread + 512 then
      if p.readopen = false ∨ killed = true then (p, .failed (byte :: rest))
      else (p, .slept (byte :: rest))
    else
      pipewrite killed rest
        { p with
          data := update p.data (p.nwrite % 512).toNat byte
          nwrite := p.nwrite + 1 }

def copyOut : Nat → Pipe → List UInt8 × Pipe
  | 0, p => ([], p)
  | n + 1, p =>
    if p.nread = p.nwrite then ([], p)
    else
      let next := copyOut n { p with nread := p.nread + 1 }
      (p.data (p.nread % 512).toNat :: next.1, next.2)

inductive Read where
  | returned (bytes : List UInt8)
  | failed
  | slept

def piperead (killed : Bool) (n : Nat) (p : Pipe) : Pipe × Read :=
  if p.nread = p.nwrite ∧ p.writeopen = true then
    if killed then (p, .failed) else (p, .slept)
  else
    let next := copyOut n p
    (next.2, .returned next.1)

/-- What a process does; a writer sleeps on `&p->nwrite`, a reader on
`&p->nread`. -/
inductive Call where
  | idle
  | writing (rest : List UInt8) (asleep : Bool)
  | reading (n : Nat) (asleep : Bool)
  deriving DecidableEq

def Call.wakeReader : Call → Call
  | .reading n _ => .reading n false
  | call => call

def Call.wakeWriter : Call → Call
  | .writing rest _ => .writing rest false
  | call => call

def Call.rest : Call → List UInt8
  | .writing rest _ => rest
  | _ => []

structure System (Process : Type) where
  pipe : Pipe
  call : Process → Call
  killed : Process → Bool

inductive Event (Process : Type) where
  | write (process : Process) (bytes : List UInt8)
  | read (process : Process) (n : Nat)
  /-- takes the lock and goes on until it returns or sleeps -/
  | run (process : Process)
  | kill (process : Process)
  | closeWrite
  | closeRead

section Steps
variable {Process : Type} [DecidableEq Process]

def wakeReaders (call : Process → Call) : Process → Call := fun q => (call q).wakeReader

def wakeWriters (call : Process → Call) : Process → Call := fun q => (call q).wakeWriter

def turnWriter (s : System Process) (process : Process) (rest : List UInt8) : System Process :=
  let done := pipewrite (s.killed process) rest s.pipe
  match done.2 with
  | .returned =>
    { s with
      pipe := done.1
      call := update (wakeReaders s.call) process .idle }
  -- nobody is woken on this way out
  | .failed _ => { s with pipe := done.1, call := update s.call process .idle }
  | .slept rest =>
    { s with
      pipe := done.1
      call := update (wakeReaders s.call) process (.writing rest true) }

def turnReader (s : System Process) (process : Process) (n : Nat) : System Process :=
  let done := piperead (s.killed process) n s.pipe
  match done.2 with
  | .returned _ =>
    { s with
      pipe := done.1
      call := update (wakeWriters s.call) process .idle }
  | .failed => { s with call := update s.call process .idle }
  | .slept => { s with call := update s.call process (.reading n true) }

def turn (s : System Process) (process : Process) : System Process :=
  match s.call process with
  | .writing rest false => turnWriter s process rest
  | .reading n false => turnReader s process n
  | _ => s

def step (s : System Process) : Event Process → System Process
  | .write process bytes => { s with call := update s.call process (.writing bytes false) }
  | .read process n => { s with call := update s.call process (.reading n false) }
  | .run process => turn s process
  | .kill process =>
    { s with
      killed := update s.killed process true
      call := update s.call process (s.call process).wakeReader.wakeWriter }
  | .closeWrite =>
    { s with
      pipe := { s.pipe with writeopen := false }
      call := wakeReaders s.call }
  | .closeRead =>
    { s with
      pipe := { s.pipe with readopen := false }
      call := wakeWriters s.call }

def pipealloc (data : Nat → UInt8) : System Process :=
  ⟨⟨data, 0, 0, true, true⟩, fun _ => .idle, fun _ => false⟩

/-- A process makes one call at a time, and none once it is killed; an end is
closed when nobody uses it. -/
def Possible (s : System Process) : Event Process → Prop
  | .write process _ => s.call process = .idle ∧ s.killed process = false ∧ s.pipe.writeopen = true
  | .read process _ => s.call process = .idle ∧ s.killed process = false ∧ s.pipe.readopen = true
  | .closeWrite => ∀ q rest asleep, s.call q ≠ .writing rest asleep
  | .closeRead => ∀ q n asleep, s.call q ≠ .reading n asleep
  | _ => True

/-- The bytes stored, each with its writer, the bytes returned by `piperead`, and
what each process has asked to write; a failed call counts as the bytes it has
stored. -/
structure History (Process : Type) where
  put : List (Process × UInt8)
  got : List UInt8
  asked : Process → List UInt8

def History.record (s : System Process) (event : Event Process) (h : History Process) :
    History Process :=
  match event with
  | .write process bytes =>
    { h with asked := update h.asked process (h.asked process ++ bytes) }
  | .run process =>
    match s.call process with
    | .writing rest false =>
      let left := (pipewrite (s.killed process) rest s.pipe).2
      let stored := rest.take (rest.length - left.rest.length)
      { h with
        put := h.put ++ stored.map fun byte => (process, byte)
        asked :=
          match left with
          | .failed rest => update h.asked process
              ((h.asked process).take ((h.asked process).length - rest.length))
          | _ => h.asked }
    | .reading n false =>
      match (piperead (s.killed process) n s.pipe).2 with
      | .returned bytes => { h with got := h.got ++ bytes }
      | _ => h
    | _ => h
  | _ => h

end Steps

section Buffer
variable {p : Pipe} {queue : List UInt8}

def Pipe.Has (p : Pipe) (queue : List UInt8) : Prop :=
  Holds 512 4294967296 p.data p.nread.toNat p.nwrite.toNat queue

theorem Pipe.Has.empty_iff (has : p.Has queue) : p.nread = p.nwrite ↔ queue = [] := by
  rw [← UInt32.toNat_inj]
  exact Holds.empty_iff has (by decide)

theorem Pipe.Has.full_iff (has : p.Has queue) : p.nwrite = p.nread + 512 ↔ queue.length = 512 := by
  rw [← UInt32.toNat_inj, UInt32.toNat_add]
  exact Holds.full_iff has (by decide)

theorem Pipe.Has.push (has : p.Has queue) (room : queue.length < 512) (byte : UInt8) :
    Pipe.Has { p with
        data := update p.data (p.nwrite % 512).toNat byte
        nwrite := p.nwrite + 1 } (queue ++ [byte]) := by
  unfold Pipe.Has
  rw [UInt32.toNat_add, UInt32.toNat_mod]
  exact Holds.push has (by decide) room byte

theorem Pipe.Has.pop {byte : UInt8} (has : p.Has (byte :: queue)) :
    p.data (p.nread % 512).toNat = byte ∧ Pipe.Has { p with nread := p.nread + 1 } queue := by
  unfold Pipe.Has
  rw [UInt32.toNat_add, UInt32.toNat_mod]
  exact Holds.pop has

structure Stored (killed : Bool) (p : Pipe) (queue bytes : List UInt8) (done : Pipe × Wrote)
    (stored : List UInt8) : Prop where
  has : done.1.Has (queue ++ stored)
  split : bytes = stored ++ done.2.rest
  flags : done.1.readopen = p.readopen ∧ done.1.writeopen = p.writeopen
  returned : done.2 = .returned ∨ (queue ++ stored).length = 512
  failed : ∀ rest, done.2 = .failed rest → p.readopen = false ∨ killed = true
  slept : ∀ rest, done.2 = .slept rest → p.readopen = true ∧ killed = false

theorem Stored.take {killed : Bool} {bytes stored : List UInt8} {done : Pipe × Wrote}
    (spec : Stored killed p queue bytes done stored) :
    bytes.take (bytes.length - done.2.rest.length) = stored := by
  rw [spec.split, length_append, Nat.add_sub_cancel]
  exact take_left' rfl

theorem pipewrite_spec (killed : Bool) (bytes : List UInt8) (has : p.Has queue) :
    ∃ stored, Stored killed p queue bytes (pipewrite killed bytes p) stored := by
  induction bytes generalizing p queue with
  | nil =>
    refine ⟨[], ?_, rfl, ⟨rfl, rfl⟩, Or.inl rfl, fun _ same => ?_, fun _ same => ?_⟩
    · rw [append_nil]
      exact has
    · cases same
    · cases same
  | cons byte rest ih =>
    unfold pipewrite
    by_cases full : p.nwrite = p.nread + 512
    · have length := has.full_iff.mp full
      rw [if_pos full]
      by_cases refused : p.readopen = false ∨ killed = true
      · rw [if_pos refused]
        refine ⟨[], ?_, rfl, ⟨rfl, rfl⟩, Or.inr ?_, fun _ _ => refused, fun _ same => ?_⟩
        · rw [append_nil]
          exact has
        · rw [append_nil, length]
        · cases same
      · rw [if_neg refused]
        rw [not_or] at refused
        refine ⟨[], ?_, rfl, ⟨rfl, rfl⟩, Or.inr ?_, fun _ same => ?_, fun _ _ => ?_⟩
        · rw [append_nil]
          exact has
        · rw [append_nil, length]
        · cases same
        · exact ⟨Bool.not_eq_false _ ▸ refused.1, Bool.not_eq_true _ ▸ refused.2⟩
    · have room : queue.length < 512 :=
        Nat.lt_of_le_of_ne has.fits fun length => full (has.full_iff.mpr length)
      rw [if_neg full]
      obtain ⟨stored, has', split, flags, returned, failed, slept⟩ := ih (has.push room byte)
      rw [append_assoc, singleton_append] at has' returned
      exact ⟨byte :: stored, has', congrArg (byte :: ·) split, flags, returned, failed, slept⟩

theorem copyOut_spec (n : Nat) (has : p.Has queue) :
    ∃ rest, queue = (copyOut n p).1 ++ rest ∧ (copyOut n p).2.Has rest ∧
      ((copyOut n p).1.length = n ∨ rest = []) ∧
      (copyOut n p).2.readopen = p.readopen ∧ (copyOut n p).2.writeopen = p.writeopen := by
  induction n generalizing p queue with
  | zero => exact ⟨queue, rfl, has, Or.inl rfl, rfl, rfl⟩
  | succ n ih =>
    unfold copyOut
    by_cases empty : p.nread = p.nwrite
    · rw [if_pos empty]
      have none := has.empty_iff.mp empty
      subst none
      exact ⟨[], rfl, has, Or.inr rfl, rfl, rfl⟩
    · rw [if_neg empty]
      cases queue with
      | nil => exact absurd (has.empty_iff.mpr rfl) empty
      | cons byte queue =>
        obtain ⟨first, has'⟩ := has.pop
        obtain ⟨rest, split, has'', length, flags⟩ := ih has'
        refine ⟨rest, ?_, has'', ?_, flags⟩
        · rw [first, cons_append, ← split]
        · simpa using length

/-- What one stay of a reader under the lock does: it takes bytes from the front, or
finds the open pipe empty. -/
theorem piperead_spec (killed : Bool) (n : Nat) (has : p.Has queue) :
    (∃ pipe bytes rest, piperead killed n p = (pipe, .returned bytes) ∧ queue = bytes ++ rest ∧
        pipe.Has rest ∧ (bytes.length = n ∨ rest = []) ∧ pipe.readopen = p.readopen ∧
        pipe.writeopen = p.writeopen ∧ (queue = [] → p.writeopen = false)) ∨
      (queue = [] ∧ p.writeopen = true ∧ (killed = true ∧ piperead killed n p = (p, .failed) ∨
          killed = false ∧ piperead killed n p = (p, .slept))) := by
  unfold piperead
  by_cases waits : p.nread = p.nwrite ∧ p.writeopen = true
  · right
    refine ⟨has.empty_iff.mp waits.1, waits.2, ?_⟩
    rw [if_pos waits]
    cases killed with
    | true => exact Or.inl ⟨rfl, rfl⟩
    | false => exact Or.inr ⟨rfl, rfl⟩
  · left
    rw [if_neg waits]
    obtain ⟨rest, split, has', length, flags⟩ := copyOut_spec n has
    refine ⟨_, _, rest, rfl, split, has', length, flags.1, flags.2, fun none => ?_⟩
    by_contra opened
    exact waits ⟨has.empty_iff.mpr none, Bool.not_eq_false _ ▸ opened⟩

end Buffer

section Order
variable {Process : Type} [DecidableEq Process] {s : System Process} {h : History Process}

def History.by (h : History Process) (process : Process) : List UInt8 :=
  (h.put.filter fun entry => entry.1 = process).map Prod.snd

/-- What has been stored has been read, in the same order, or is in the pipe; and a
process has stored what it asked to write, up to what it still has to do. -/
structure Fifo (s : System Process) (h : History Process) : Prop where
  queue : ∃ queue, s.pipe.Has queue ∧ h.put.map Prod.snd = h.got ++ queue
  own : ∀ process, h.by process ++ (s.call process).rest = h.asked process

@[simp] theorem Call.rest_wakeReader (call : Call) : call.wakeReader.rest = call.rest := by
  cases call <;> rfl

@[simp] theorem Call.rest_wakeWriter (call : Call) : call.wakeWriter.rest = call.rest := by
  cases call <;> rfl

theorem rest_update (call : Process → Call) (process other : Process) (new : Call) :
    (update call process new other).rest =
      if other = process then new.rest else (call other).rest := by
  by_cases same : other = process
  · subst same
    simp
  · simp [same]

theorem filter_stored (process other : Process) (bytes : List UInt8) :
    ((bytes.map fun byte => (process, byte)).filter fun entry => entry.1 = other).map Prod.snd =
      if other = process then bytes else [] := by
  by_cases same : other = process
  · subst same
    simp [filter_map, comp_def]
  · simp [filter_map, comp_def, same, Ne.symm same]

theorem by_append (h : History Process) (process other : Process) (bytes : List UInt8)
    (asked : Process → List UInt8) :
    History.by ⟨h.put ++ bytes.map fun byte => (process, byte), h.got, asked⟩ other =
      h.by other ++ if other = process then bytes else [] := by
  simp only [History.by, filter_append, map_append, filter_stored]

theorem Fifo.turnWriter (fifo : Fifo s h) {process : Process} {rest : List UInt8}
    (call : s.call process = .writing rest false) :
    Fifo (turnWriter s process rest) (h.record s (.run process)) := by
  obtain ⟨⟨queue, has, order⟩, own⟩ := fifo
  obtain ⟨stored, spec⟩ := pipewrite_spec (s.killed process) rest has
  have before := own process
  rw [call] at before
  change h.by process ++ rest = _ at before
  unfold Pipes.turnWriter History.record
  simp only [call]
  rw [spec.take]
  generalize pipewrite (s.killed process) rest s.pipe = done at spec
  obtain ⟨pipe, wrote⟩ := done
  have queued : ∃ queue, pipe.Has queue ∧
      (h.put ++ stored.map fun byte => (process, byte)).map Prod.snd = h.got ++ queue := by
    refine ⟨queue ++ stored, spec.has, ?_⟩
    rw [map_append, order, append_assoc, map_map]
    simp [comp_def]
  have split : rest = stored ++ wrote.rest := spec.split
  rw [split, ← append_assoc] at before
  cases wrote with
  | failed left =>
    refine ⟨queued, fun other => ?_⟩
    rw [by_append, rest_update]
    by_cases same : other = process
    · subst same
      simp only [Wrote.rest] at before
      simp only [if_true, Call.rest, append_nil, update_self, ← before,
        length_append, Nat.add_sub_cancel]
      rw [← length_append]
      exact (take_left' rfl).symm
    · simpa [same] using own other
  | returned | slept left =>
    refine ⟨queued, fun other => ?_⟩
    rw [by_append, rest_update, wakeReaders, Call.rest_wakeReader]
    by_cases same : other = process
    · subst same
      simpa [Wrote.rest, Call.rest] using before
    · simpa [same] using own other

/-- Nothing was stored, and nobody has more or less to store. -/
theorem Fifo.same_rest (fifo : Fifo s h) {call : Process → Call}
    (same : ∀ process, (call process).rest = (s.call process).rest) (process : Process) :
    h.by process ++ (call process).rest = h.asked process := by
  rw [same process]
  exact fifo.own process

theorem Fifo.turnReader (fifo : Fifo s h) {process : Process} {n : Nat}
    (call : s.call process = .reading n false) :
    Fifo (turnReader s process n) (h.record s (.run process)) := by
  obtain ⟨queue, has, order⟩ := fifo.queue
  have reader : ∀ new : Call, new.rest = [] → ∀ other,
      (update s.call process new other).rest = (s.call other).rest := by
    intro new none other
    rw [rest_update]
    split
    · rename_i same
      rw [same, call, none]
      rfl
    · rfl
  unfold Pipes.turnReader History.record
  simp only [call]
  rcases piperead_spec (s.killed process) n has with
    ⟨pipe, bytes, rest, result, split, has', _⟩ | ⟨_, _, ⟨_, result⟩ | ⟨_, result⟩⟩
  · simp only [result]
    refine ⟨⟨rest, has', ?_⟩, fifo.same_rest fun other => ?_⟩
    · simp only [order, split, append_assoc]
    · rw [rest_update, wakeWriters, Call.rest_wakeWriter]
      exact (rest_update s.call process other .idle).symm.trans (reader .idle rfl other)
  · simp only [result]
    exact ⟨⟨queue, has, order⟩, fifo.same_rest (reader .idle rfl)⟩
  · simp only [result]
    exact ⟨⟨queue, has, order⟩, fifo.same_rest (reader (.reading n true) rfl)⟩

theorem Fifo.step (fifo : Fifo s h) {event : Event Process} (possible : Possible s event) :
    Fifo (step s event) (h.record s event) := by
  cases event with
  | write process bytes =>
    refine ⟨fifo.queue, fun other => ?_⟩
    have before := fifo.own other
    change h.by other ++ (update s.call process (.writing bytes false) other).rest =
      update h.asked process (h.asked process ++ bytes) other
    rw [rest_update]
    by_cases same : other = process
    · subst same
      rw [possible.1] at before
      simp only [Call.rest, append_nil] at before
      simp [Call.rest, before]
    · simpa [same] using before
  | read process n =>
    refine ⟨fifo.queue, fifo.same_rest fun other => (rest_update _ _ _ _).trans ?_⟩
    split
    · rename_i same
      rw [same, possible.1]
      rfl
    · rfl
  | run process =>
    change Fifo (turn s process) (h.record s (.run process))
    cases call : s.call process with
    | idle => simpa only [turn, History.record, call] using fifo
    | writing rest asleep =>
      cases asleep with
      | true => simpa only [turn, History.record, call] using fifo
      | false => simpa only [turn, call] using fifo.turnWriter call
    | reading n asleep =>
      cases asleep with
      | true => simpa only [turn, History.record, call] using fifo
      | false => simpa only [turn, call] using fifo.turnReader call
  | kill process =>
    refine ⟨fifo.queue, fifo.same_rest fun other => (rest_update _ _ _ _).trans ?_⟩
    split
    · rename_i same
      rw [same, Call.rest_wakeWriter, Call.rest_wakeReader]
    · rfl
  | closeWrite => exact ⟨fifo.queue, fifo.same_rest fun other => Call.rest_wakeReader _⟩
  | closeRead => exact ⟨fifo.queue, fifo.same_rest fun other => Call.rest_wakeWriter _⟩

def history (data : Nat → UInt8) (events : List (Event Process)) :
    System Process × History Process :=
  run (recorded step History.record) (pipealloc data, ⟨[], [], fun _ => []⟩) events

theorem fifo_history {data : Nat → UInt8} {events : List (Event Process)}
    (possible : Allowed step Possible (pipealloc data) events) :
    Fifo (history data events).1 (history data events).2 := by
  refine invariant (fun state : System Process × History Process => Fifo state.1 state.2) ?_
    (fun _ _ fifo possible => fifo.step possible) (allowed_recorded.mpr possible)
  exact ⟨⟨[], holds_empty data (by decide), rfl⟩, fun _ => rfl⟩

/-- However writers and readers are interleaved, and however often the counters
wrap, what `piperead` has returned is a beginning of what has been stored, at most
512 bytes behind; each process has stored what it asked to write, in order, up to
what its call still has to do; and a reader that asked for bytes and gets none has
read all there will ever be. -/
theorem pipes_are_fifo (data : Nat → UInt8) (events : List (Event Process))
    (possible : Allowed step Possible (pipealloc data) events) :
    let s := (history data events).1
    let h := (history data events).2
    h.got <+: h.put.map Prod.snd ∧ h.put.length ≤ h.got.length + 512 ∧
      (∀ process, h.by process ++ (s.call process).rest = h.asked process) ∧
      ∀ killed n, 0 < n → (piperead killed n s.pipe).2 = .returned [] →
        s.pipe.writeopen = false ∧ h.got = h.put.map Prod.snd := by
  intro s h
  have fifo : Fifo s h := fifo_history possible
  obtain ⟨queue, has, order⟩ := fifo.queue
  refine ⟨⟨queue, order.symm⟩, ?_, fifo.own, fun killed n positive result => ?_⟩
  · have lengths := congrArg length order
    have fits := has.fits
    rw [length_map, length_append] at lengths
    omega
  · rcases piperead_spec killed n has with
      ⟨pipe, bytes, rest, result', split, _, length, _, _, closed⟩ |
      ⟨_, _, ⟨_, result'⟩ | ⟨_, result'⟩⟩
    · rw [result'] at result
      cases result
      have none : rest = [] := by
        refine length.resolve_left fun zero => ?_
        rw [length_nil] at zero
        omega
      subst none
      subst split
      exact ⟨closed rfl, by rw [order]; simp⟩
    · rw [result'] at result
      cases result
    · rw [result'] at result
      cases result

end Order

def exchange : List (Event Bool) := [.write true [1, 2, 3], .run true, .read false 2, .run false]

theorem exchange_reads_a_beginning :
    (history (fun _ => 0) exchange).2.got = [1, 2] ∧ (history (fun _ => 0) exchange).2.got <+:
        (history (fun _ => 0) exchange).2.put.map Prod.snd :=
  ⟨by decide, (pipes_are_fifo (fun _ => 0) exchange
    ⟨⟨rfl, rfl, rfl⟩, trivial, ⟨rfl, rfl, rfl⟩, trivial, trivial⟩).1⟩

section Wakeups
variable {Process : Type} [DecidableEq Process] {s : System Process}

def Unharmed (s : System Process) (event : Event Process) : Prop :=
  Possible s event ∧
    ∀ process rest asleep, event = .kill process → s.call process ≠ .writing rest asleep

/-- A sleeping reader finds the pipe empty and open for writing, a sleeping writer
finds it full and open for reading. -/
structure Awake (s : System Process) : Prop where
  has : ∃ queue, s.pipe.Has queue
  reader : ∀ process n, s.call process = .reading n true →
    s.pipe.nread = s.pipe.nwrite ∧ s.pipe.writeopen = true
  writer : ∀ process rest, s.call process = .writing rest true →
    s.pipe.nwrite = s.pipe.nread + 512 ∧ s.pipe.readopen = true
  readers : ∀ process n asleep, s.call process = .reading n asleep → s.pipe.readopen = true
  alive : ∀ process rest asleep, s.call process = .writing rest asleep → s.killed process = false

def Call.Calm (pipe : Pipe) (killed : Bool) : Call → Prop
  | .idle => True
  | .reading _ asleep => pipe.readopen = true ∧
      (asleep = true → pipe.nread = pipe.nwrite ∧ pipe.writeopen = true)
  | .writing _ asleep => killed = false ∧
      (asleep = true → pipe.nwrite = pipe.nread + 512 ∧ pipe.readopen = true)

theorem awake_iff {Process : Type} {s : System Process} : Awake s ↔ (∃ queue, s.pipe.Has queue) ∧
    ∀ process, (s.call process).Calm s.pipe (s.killed process) := by
  constructor
  · intro awake
    refine ⟨awake.has, fun process => ?_⟩
    cases call : s.call process with
    | idle => trivial
    | reading n asleep =>
      exact ⟨awake.readers process n asleep call, fun sleeps =>
        awake.reader process n (sleeps ▸ call)⟩
    | writing rest asleep =>
      exact ⟨awake.alive process rest asleep call, fun sleeps =>
        awake.writer process rest (sleeps ▸ call)⟩
  · rintro ⟨has, calm⟩
    refine ⟨has, fun process n here => ?_, fun process rest here => ?_,
      fun process n asleep here => ?_, fun process rest asleep here => ?_⟩ <;>
    · have own := calm process
      rw [here] at own
      first | exact own.1 | exact own.2 rfl

section
variable {call : Call} {pipe pipe' : Pipe} {killed : Bool} (calm : call.Calm pipe killed)
  (opened : pipe'.readopen = pipe.readopen)
include calm opened

theorem Call.Calm.wakeReader
    (stays : pipe.nwrite = pipe.nread + 512 → pipe'.nwrite = pipe'.nread + 512) :
    call.wakeReader.Calm pipe' killed := by
  cases call with
  | idle => trivial
  | reading n asleep => exact ⟨opened.trans calm.1, fun wrong => by cases wrong⟩
  | writing rest asleep =>
    exact ⟨calm.1, fun sleeps => (calm.2 sleeps).imp stays opened.trans⟩

theorem Call.Calm.wakeWriter (nobody : pipe.nread = pipe.nwrite → pipe.writeopen = false) :
    call.wakeWriter.Calm pipe' killed := by
  cases call with
  | idle => trivial
  | reading n asleep =>
    refine ⟨opened.trans calm.1, fun sleeps => ?_⟩
    obtain ⟨empty, stillOpen⟩ := calm.2 sleeps
    exact absurd stillOpen (by simp [nobody empty])
  | writing rest asleep => exact ⟨calm.1, fun wrong => by cases wrong⟩
end

theorem calm_update {pipe : Pipe} {killed : Process → Bool} {call : Process → Call}
    {process : Process} {new : Call} (own : new.Calm pipe (killed process))
    (others : ∀ other ≠ process, (call other).Calm pipe (killed other)) (other : Process) :
    (update call process new other).Calm pipe (killed other) :=
  (forall_update_iff call fun other now => now.Calm pipe (killed other)).mpr ⟨own, others⟩ other

theorem Awake.turnWriter (awake : Awake s) {process : Process} {rest : List UInt8}
    (call : s.call process = .writing rest false) : Awake (turnWriter s process rest) := by
  obtain ⟨⟨queue, has⟩, calm⟩ := awake_iff.mp awake
  obtain ⟨stored, spec⟩ := pipewrite_spec (s.killed process) rest has
  have alive := awake.alive process rest false call
  unfold Pipes.turnWriter
  simp only
  generalize pipewrite (s.killed process) rest s.pipe = done at spec
  obtain ⟨pipe, wrote⟩ := done
  obtain ⟨has', _, flags, returned, failed, slept⟩ := spec
  -- a pipe that was full is full
  have stays : s.pipe.nwrite = s.pipe.nread + 512 → pipe.nwrite = pipe.nread + 512 := by
    intro full
    have length := has.full_iff.mp full
    have fits : (queue ++ stored).length ≤ 512 := Holds.fits has'
    rw [length_append] at fits
    refine (Pipe.Has.full_iff has').mpr ?_
    rw [length_append]
    omega
  cases wrote with
  | returned =>
    exact awake_iff.mpr ⟨⟨_, has'⟩, calm_update trivial fun other _ =>
      (calm other).wakeReader flags.1 stays⟩
  | failed left =>
    -- the readers are gone, so nobody sleeps
    have closed : s.pipe.readopen = false := by
      refine (failed left rfl).resolve_right fun killed => ?_
      rw [alive] at killed
      cases killed
    refine awake_iff.mpr ⟨⟨_, has'⟩, calm_update trivial fun other _ => ?_⟩
    have own := calm other
    cases here : s.call other with
    | idle => trivial
    | reading n asleep =>
      rw [here] at own
      exact absurd own.1 (by simp [closed])
    | writing left asleep =>
      rw [here] at own
      exact ⟨own.1, fun sleeps => absurd (own.2 sleeps).2 (by simp [closed])⟩
  | slept left =>
    have full : pipe.nwrite = pipe.nread + 512 :=
      (Pipe.Has.full_iff has').mpr (returned.resolve_left fun same => by cases same)
    have opened : pipe.readopen = true := flags.1.trans (slept left rfl).1
    exact awake_iff.mpr ⟨⟨_, has'⟩, calm_update ⟨alive, fun _ => ⟨full, opened⟩⟩ fun other _ =>
      (calm other).wakeReader flags.1 stays⟩

theorem Awake.turnReader (awake : Awake s) {process : Process} {n : Nat}
    (call : s.call process = .reading n false) : Awake (turnReader s process n) := by
  obtain ⟨⟨queue, has⟩, calm⟩ := awake_iff.mp awake
  have opened := awake.readers process n false call
  unfold Pipes.turnReader
  simp only
  rcases piperead_spec (s.killed process) n has with
    ⟨pipe, bytes, rest, result, split, has', _, readopen, writeopen, closed⟩ |
    ⟨empty, waits, ⟨_, result⟩ | ⟨_, result⟩⟩
  · -- another reader cannot sleep on a pipe that is not empty, or closed
    rw [result]
    exact awake_iff.mpr ⟨⟨rest, has'⟩, calm_update trivial fun other _ =>
      (calm other).wakeWriter readopen fun none => closed (has.empty_iff.mp none)⟩
  · rw [result]
    exact awake_iff.mpr ⟨⟨queue, has⟩, calm_update trivial fun other _ => calm other⟩
  · rw [result]
    exact awake_iff.mpr ⟨⟨queue, has⟩, calm_update
      ⟨opened, fun _ => ⟨has.empty_iff.mpr empty, waits⟩⟩ fun other _ => calm other⟩

theorem Awake.step (awake : Awake s) {event : Event Process} (unharmed : Unharmed s event) :
    Awake (step s event) := by
  obtain ⟨possible, spared⟩ := unharmed
  obtain ⟨has, calm⟩ := awake_iff.mp awake
  cases event with
  | write process bytes =>
    exact awake_iff.mpr ⟨has, calm_update ⟨possible.2.1, fun wrong => by cases wrong⟩
      fun other _ => calm other⟩
  | read process n =>
    exact awake_iff.mpr ⟨has, calm_update ⟨possible.2.2, fun wrong => by cases wrong⟩
      fun other _ => calm other⟩
  | run process =>
    change Awake (turn s process)
    cases call : s.call process with
    | idle => simpa only [turn, call] using awake
    | writing rest asleep =>
      cases asleep with
      | true => simpa only [turn, call] using awake
      | false => simpa only [turn, call] using awake.turnWriter call
    | reading n asleep =>
      cases asleep with
      | true => simpa only [turn, call] using awake
      | false => simpa only [turn, call] using awake.turnReader call
  | kill process =>
    refine awake_iff.mpr ⟨has, calm_update ?_ fun other apart => ?_⟩
    · have own := calm process
      cases call : s.call process with
      | idle => trivial
      | reading n asleep =>
        rw [call] at own
        exact ⟨own.1, fun wrong => by cases wrong⟩
      | writing rest asleep => exact absurd call (spared process rest asleep rfl)
    · change (s.call other).Calm s.pipe (update s.killed process true other)
      rw [update_of_ne apart]
      exact calm other
  | closeWrite =>
    refine awake_iff.mpr ⟨has, fun other => ?_⟩
    have own := calm other
    change (s.call other).wakeReader.Calm _ _
    cases call : s.call other with
    | idle => trivial
    | reading n asleep =>
      rw [call] at own
      exact ⟨own.1, fun wrong => by cases wrong⟩
    | writing rest asleep => exact absurd call (possible other rest asleep)
  | closeRead =>
    refine awake_iff.mpr ⟨has, fun other => ?_⟩
    have own := calm other
    change (s.call other).wakeWriter.Calm _ _
    cases call : s.call other with
    | idle => trivial
    | reading n asleep => exact absurd call (possible other n asleep)
    | writing rest asleep =>
      rw [call] at own
      exact ⟨own.1, fun wrong => by cases wrong⟩

/-- Unless a writer is killed in its call, a reader sleeps only while the pipe is
empty and may still be written, a writer only while it is full and may still be
read; so a reader and a writer never wait for each other. -/
theorem no_pipe_sleeper_is_forgotten (data : Nat → UInt8) (events : List (Event Process))
    (unharmed : Allowed step Unharmed (pipealloc data) events) :
    let s := run step (pipealloc data) events
    (∀ process n, s.call process = .reading n true →
        s.pipe.nread = s.pipe.nwrite ∧ s.pipe.writeopen = true) ∧
      (∀ process rest, s.call process = .writing rest true →
        s.pipe.nwrite = s.pipe.nread + 512 ∧ s.pipe.readopen = true) ∧
      ∀ reader writer n rest, s.call reader = .reading n true → s.call writer ≠ .writing rest true := by
  intro s
  have awake : Awake s := by
    refine invariant Awake ?_ (fun _ _ awake unharmed => awake.step unharmed) unharmed
    exact ⟨⟨[], holds_empty data (by decide)⟩, (fun _ _ wrong => by cases wrong),
      (fun _ _ wrong => by cases wrong), (fun _ _ _ wrong => by cases wrong),
      fun _ _ _ wrong => by cases wrong⟩
  refine ⟨awake.reader, awake.writer, fun reader writer n rest sleeps waits => ?_⟩
  obtain ⟨queue, has⟩ := awake.has
  have empty := has.empty_iff.mp (awake.reader reader n sleeps).1
  have full := has.full_iff.mp (awake.writer writer rest waits).1
  rw [empty] at full
  cases full

def inTurn : List (Event Bool) :=
  [.read false 5, .run false, .write true (replicate 600 7), .run true, .run false, .run true]

theorem inTurn_unharmed : Allowed step Unharmed (pipealloc fun _ => 0) inTurn := by
  refine ⟨⟨⟨rfl, rfl, rfl⟩, ?_⟩, ⟨trivial, ?_⟩, ⟨⟨rfl, rfl, rfl⟩, ?_⟩, ⟨trivial, ?_⟩, ⟨trivial, ?_⟩,
    ⟨trivial, ?_⟩, trivial⟩ <;> exact fun _ _ _ same => by cases same

/-- A reader waits for the first byte. The writer that brings it fills the pipe and
waits in its place, and again after the reader has taken 5 bytes. -/
theorem reader_and_writer_wait_in_turn :
    (run step (pipealloc fun _ => 0) (inTurn.take 2)).call false = .reading 5 true ∧
      (run step (pipealloc fun _ => 0) (inTurn.take 2)).pipe.writeopen = true ∧
      (run step (pipealloc fun _ => 0) inTurn).call true = .writing (replicate 83 7) true ∧
      (run step (pipealloc fun _ => 0) inTurn).pipe.readopen = true := by
  have first : Allowed step Unharmed (pipealloc fun _ => 0) (inTurn.take 2) :=
    ⟨inTurn_unharmed.1, inTurn_unharmed.2.1, trivial⟩
  have reads : (run step (pipealloc fun _ => 0) (inTurn.take 2)).call false = .reading 5 true := by
    decide
  have writes : (run step (pipealloc fun _ => 0) inTurn).call true =
      .writing (replicate 83 7) true := by decide +kernel
  have told := no_pipe_sleeper_is_forgotten (fun _ => 0) inTurn inTurn_unharmed
  exact ⟨reads, ((no_pipe_sleeper_is_forgotten _ _ first).1 false 5 reads).2, writes,
    (told.2.1 true _ writes).2⟩

/-- A reader sleeps; a writer that is killed fills the pipe and returns without
waking it, so the reader sleeps on a full pipe. -/
theorem killed_writer_wakes_nobody :
    let s := run step (pipealloc fun _ => 0)
      [Event.read false 10, .run false, .write true (replicate 513 7), .kill true, .run true]
    s.call false = .reading 10 true ∧ s.pipe.nwrite = s.pipe.nread + 512 := by
  decide +kernel

end Wakeups

end OsProjects.Pipes
